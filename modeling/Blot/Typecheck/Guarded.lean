import Blot.Typecheck.Constrain

/-!
# Runs whose work items meet a condition

A statement about the runs of the solver that never take a certain branch needs those runs as a set.
`constrainIdsWhile guard` is `constrainIds` with a test of `guard` before each work item, on the state the item meets;
a run that fails the test stops as if it had run out of fuel.  Inside a choice only the candidates that succeed are
tested: what a failing one does is undone.

* `constrainIdsWhile_refines` — a guarded run is a run;
* `constrainLoop_invariant` — the induction over the queue, once for all.
-/

namespace Blot.Typecheck

open Blot.Support Checker

section Guard

variable (guard : Checker → WorkItem → Bool) (lookup : MemberLookup)

def guardItem (step : WorkItem → Finset (ℕ × ℕ) → List WorkItem → Solve Queue) (item : WorkItem)
    (seen : Finset (ℕ × ℕ)) (work : List WorkItem) : Solve Queue := fun s =>
  if guard s item then step item seen work s else (.error .fuel, s)

/-- A candidate that fails is left to `canConstrainIds`; one that succeeds has its items tested. -/
def guardChoice (can : Ty → Ty → Span → Solve Bool) (constrain : Ty → Ty → Span → Solve Unit) (left right : Ty)
    (span : Span) : Solve Bool := fun s =>
  match can left right span s with
  | (.ok true, _) =>
    match constrain left right span s with
    | (.ok (), s') => (.ok true, s')
    | (.error _, s') => (.error .fuel, s')
  | result => result

/-- `constrainIds`, with each work item that is kept tested by `guard`. -/
def constrainIdsWhile : ℕ → Ty → Ty → Span → Solve Unit
  | 0, _, _, _ => Attempt.stop .fuel
  | fuel + 1, left, right, span =>
    constrainLoop lookup
      (guardItem guard (constrainWorkItem fuel
        (guardChoice (canConstrainIds lookup fuel) (constrainIdsWhile fuel)))) span (fuel + 1) ∅
      [⟨left, right, span⟩]

/-- `constrain`, with each work item that is kept tested by `guard`. -/
def constrainWhile (fuel : ℕ) (left right : Ty) (span : Span) : Solve Unit := fun s =>
  match constrainIdsWhile guard lookup fuel left right span s with
  | (result, s') => (result, { s' with boundInsertions := [] })

end Guard

/-! ### A guarded run is a run -/

section Refines

variable {can can' : Ty → Ty → Span → Solve Bool}
  (hcan : ∀ left right span, Attempt.Refines (can left right span) (can' left right span))

theorem refines_allM {f g : Ty → Solve Bool} (h : ∀ t, Attempt.Refines (f t) (g t)) (members : List Ty) :
    Attempt.Refines (members.allM f) (members.allM g) := by
  induction members with
  | nil => exact Attempt.refines_refl _
  | cons member rest ih =>
    refine Attempt.refines_bind (h member) fun b => ?_
    cases b with
    | true => exact ih
    | false => exact Attempt.refines_refl _

theorem refines_anyM {f g : Ty → Solve Bool} (h : ∀ t, Attempt.Refines (f t) (g t)) (members : List Ty) :
    Attempt.Refines (members.anyM f) (members.anyM g) := by
  induction members with
  | nil => exact Attempt.refines_refl _
  | cons member rest ih =>
    refine Attempt.refines_bind (h member) fun b => ?_
    cases b with
    | true => exact Attempt.refines_refl _
    | false => exact ih

include hcan

theorem refines_constrainUnquantified (fuel : ℕ) (left right : Ty) (span : Span) (seen : Finset (ℕ × ℕ))
    (work : List WorkItem) :
    Attempt.Refines (constrainUnquantified fuel can left right span seen work)
      (constrainUnquantified fuel can' left right span seen work) := by
  cases left with
  | var l => cases right <;> exact Attempt.refines_refl _
  | union members =>
    cases right with
    | var r => exact Attempt.refines_refl _
    | _ => exact Attempt.refines_bind (refines_allM (fun _ => hcan _ _ _) _) fun _ => Attempt.refines_refl _
  | _ =>
    cases right with
    | union members => exact Attempt.refines_bind (refines_anyM (fun _ => hcan _ _ _) _) fun _ => Attempt.refines_refl _
    | _ => exact Attempt.refines_refl _

theorem refines_constrainWorkItem (fuel : ℕ) (item : WorkItem) (seen : Finset (ℕ × ℕ)) (work : List WorkItem) :
    Attempt.Refines (constrainWorkItem fuel can item seen work) (constrainWorkItem fuel can' item seen work) := by
  obtain ⟨left, right, span⟩ := item
  refine Attempt.refines_ite (Attempt.refines_refl _) ?_
  cases left with
  | qualified rs body => exact Attempt.refines_refl _
  | bottom | forallType vs body => cases right <;> exact Attempt.refines_refl _
  | _ =>
    cases right with
    | qualified rs body | top | forallType vs body => exact Attempt.refines_refl _
    | _ => exact refines_constrainUnquantified hcan _ _ _ _ _ _

end Refines

theorem refines_constrainLoop (lookup : MemberLookup)
    {step step' : WorkItem → Finset (ℕ × ℕ) → List WorkItem → Solve Queue}
    (h : ∀ item seen work, Attempt.Refines (step item seen work) (step' item seen work)) (span : Span) (n : ℕ)
    (seen : Finset (ℕ × ℕ)) (work : List WorkItem) :
    Attempt.Refines (constrainLoop lookup step span n seen work) (constrainLoop lookup step' span n seen work) := by
  induction n generalizing seen work with
  | zero => exact Attempt.refines_refl _
  | succ n ih =>
    cases work with
    | nil =>
      refine Attempt.refines_bind (Attempt.refines_refl _) fun ready => ?_
      cases ready with
      | nil => exact Attempt.refines_refl _
      | cons item work => exact ih _ _
    | cons item work => exact Attempt.refines_bind (h _ _ _) fun _ => ih _ _

section Guarded

variable {guard : Checker → WorkItem → Bool} {lookup : MemberLookup}

theorem guardItem_ok {step : WorkItem → Finset (ℕ × ℕ) → List WorkItem → Solve Queue} {item : WorkItem}
    {seen : Finset (ℕ × ℕ)} {work : List WorkItem} {s s' : Checker} {q : Queue}
    (h : guardItem guard step item seen work s = (.ok q, s')) :
    guard s item = true ∧ step item seen work s = (.ok q, s') := by
  unfold guardItem at h
  by_cases hg : guard s item = true
  · rw [if_pos hg] at h
    exact ⟨hg, h⟩
  · rw [if_neg hg] at h
    simp at h

/-- What a guarded choice answers, the solver's choice answers; a candidate taken was constrained. -/
theorem guardChoice_ok {can : Ty → Ty → Span → Solve Bool} {constrain : Ty → Ty → Span → Solve Unit} {left right : Ty}
    {span : Span} {s s' : Checker} {b : Bool} (h : guardChoice can constrain left right span s = (.ok b, s')) :
    (b = true ∧ constrain left right span s = (.ok (), s')) ∨
      (b = false ∧ can left right span s = (.ok false, s')) := by
  unfold guardChoice at h
  rcases hc : can left right span s with ⟨e | b', s₁⟩
  · simp [hc] at h
  · cases b' with
    | false =>
      rw [hc] at h
      obtain ⟨hb, rfl⟩ := Prod.mk.inj h
      exact Or.inr ⟨(Except.ok.inj hb).symm, rfl⟩
    | true =>
      rw [hc] at h
      simp only at h
      rcases hr : constrain left right span s with ⟨e | u, s₂⟩
      · simp [hr] at h
      · rw [hr] at h
        obtain ⟨hb, rfl⟩ := Prod.mk.inj h
        exact Or.inl ⟨(Except.ok.inj hb).symm, rfl⟩

theorem guardChoice_refines {fuel : ℕ} {constrain : Ty → Ty → Span → Solve Unit}
    (h : ∀ left right span, Attempt.Refines (constrain left right span) (constrainIds lookup fuel left right span))
    (left right : Ty) (span : Span) :
    Attempt.Refines (guardChoice (canConstrainIds lookup fuel) constrain left right span)
      (canConstrainIds lookup fuel left right span) := by
  intro s b s' hc
  rcases guardChoice_ok hc with ⟨rfl, htaken⟩ | ⟨rfl, hfailed⟩
  · unfold canConstrainIds canConstrainWith
    rw [h left right span s () s' htaken]
  · exact hfailed

/-- **A guarded run is a run of the solver.** -/
theorem constrainIdsWhile_refines (fuel : ℕ) (left right : Ty) (span : Span) :
    Attempt.Refines (constrainIdsWhile guard lookup fuel left right span)
      (constrainIds lookup fuel left right span) := by
  induction fuel generalizing left right span with
  | zero => exact Attempt.refines_refl _
  | succ fuel ih =>
    refine refines_constrainLoop lookup (fun item seen work s q s' h => ?_) span _ _ _
    obtain ⟨-, h⟩ := guardItem_ok h
    exact refines_constrainWorkItem (guardChoice_refines ih) fuel item seen work s q s' h

theorem constrainWhile_refines (fuel : ℕ) (left right : Ty) (span : Span) :
    Attempt.Refines (constrainWhile guard lookup fuel left right span) (constrain lookup fuel left right span) := by
  intro s u s' h
  unfold constrainWhile at h
  rcases hr : constrainIdsWhile guard lookup fuel left right span s with ⟨e | u', s₁⟩
  · simp [hr] at h
  · rw [hr] at h
    unfold constrain
    rw [constrainIdsWhile_refines fuel left right span s u' s₁ hr]
    exact h

/-- **A run that passes a stronger test** passes the weaker one. -/
theorem constrainIdsWhile_mono {guard' : Checker → WorkItem → Bool}
    (hguard : ∀ s item, guard s item = true → guard' s item = true) (fuel : ℕ) (left right : Ty) (span : Span) :
    Attempt.Refines (constrainIdsWhile guard lookup fuel left right span)
      (constrainIdsWhile guard' lookup fuel left right span) := by
  induction fuel generalizing left right span with
  | zero => exact Attempt.refines_refl _
  | succ fuel ih =>
    refine refines_constrainLoop lookup (fun item seen work s q s' h => ?_) span _ _ _
    obtain ⟨hg, h⟩ := guardItem_ok h
    have hchoice : ∀ left right span, Attempt.Refines
        (guardChoice (canConstrainIds lookup fuel) (constrainIdsWhile guard lookup fuel) left right span)
        (guardChoice (canConstrainIds lookup fuel) (constrainIdsWhile guard' lookup fuel) left right span) := by
      intro left right span s b s' hc
      unfold guardChoice
      rcases guardChoice_ok hc with ⟨rfl, htaken⟩ | ⟨rfl, hfailed⟩
      · rw [canConstrainIds, canConstrainWith, constrainIdsWhile_refines _ _ _ _ _ _ _ htaken]
        simp only [ih _ _ _ _ _ _ htaken]
      · rw [hfailed]
    unfold guardItem
    rw [if_pos (hguard s item hg)]
    exact refines_constrainWorkItem hchoice fuel item seen work s q s' h

theorem constrainWhile_mono {guard' : Checker → WorkItem → Bool}
    (hguard : ∀ s item, guard s item = true → guard' s item = true) (fuel : ℕ) (left right : Ty) (span : Span) :
    Attempt.Refines (constrainWhile guard lookup fuel left right span)
      (constrainWhile guard' lookup fuel left right span) := by
  intro s u s' h
  unfold constrainWhile at h
  rcases hr : constrainIdsWhile guard lookup fuel left right span s with ⟨e | u', s₁⟩
  · simp [hr] at h
  · rw [hr] at h
    unfold constrainWhile
    rw [constrainIdsWhile_mono hguard fuel left right span s u' s₁ hr]
    exact h

end Guarded

theorem constrainIdsWhile_true (lookup : MemberLookup) (fuel : ℕ) :
    constrainIdsWhile (fun _ _ => true) lookup fuel = constrainIds lookup fuel := by
  induction fuel with
  | zero => rfl
  | succ fuel ih =>
    have hchoice : guardChoice (canConstrainIds lookup fuel) (constrainIds lookup fuel) =
        canConstrainIds lookup fuel := by
      funext left right span s
      unfold guardChoice canConstrainIds canConstrainWith
      rcases constrainIds lookup fuel left right span s with ⟨(_ | _) | _, s₁⟩ <;> rfl
    funext left right span
    unfold constrainIdsWhile constrainIds
    rw [ih, hchoice]
    rfl

theorem constrainWhile_true (lookup : MemberLookup) :
    constrainWhile (fun _ _ => true) lookup = constrain lookup := by
  funext fuel left right span s
  unfold constrainWhile constrain
  rw [constrainIdsWhile_true]

/-! ### Induction over the queue -/

/-- **The rule of the queue**: what every item keeps, and every batch of woken obligations keeps, holds at the end. -/
theorem constrainLoop_invariant {lookup : MemberLookup}
    {step : WorkItem → Finset (ℕ × ℕ) → List WorkItem → Solve Queue} {span : Span}
    (Inv : Checker → Finset (ℕ × ℕ) → List WorkItem → Prop)
    (hitem : ∀ s seen item work q s', Inv s seen (item :: work) → step item seen work s = (.ok q, s') →
      Inv s' q.1 q.2)
    (hready : ∀ n s seen ready s', Inv s seen [] →
      takeReadyMemberConstraints lookup span n s = (.ok ready, s') → Inv s' seen ready)
    {n : ℕ} {seen : Finset (ℕ × ℕ)} {work : List WorkItem} {s s' : Checker} (hinv : Inv s seen work)
    (h : constrainLoop lookup step span n seen work s = (.ok (), s')) : ∃ seen', Inv s' seen' [] := by
  induction n generalizing seen work s with
  | zero => exact absurd h Attempt.stop_ne_ok
  | succ n ih =>
    cases work with
    | nil =>
      obtain ⟨ready, s₁, h₁, h₂⟩ := Attempt.bind_eq_ok.1 h
      have hinv₁ := hready n s seen ready s₁ hinv h₁
      cases ready with
      | nil =>
        obtain ⟨-, rfl⟩ := Attempt.pure_eq_ok.1 h₂
        exact ⟨seen, hinv₁⟩
      | cons item work => exact ih hinv₁ h₂
    | cons item work =>
      obtain ⟨q, s₁, h₁, h₂⟩ := Attempt.bind_eq_ok.1 h
      exact ih (hitem s seen item work q s₁ hinv h₁) h₂

/-! ### Runs from the empty state -/

/-- `fresh` or `fresh_empty_array_element` at a level. -/
def Checker.allocateOne (s : Checker) (level : ℕ) (isEmpty : Bool) : Checker :=
  if isEmpty then (s.allocate level).markEmpty s.arena.length else s.allocate level

/-- The states reached from the empty one by fresh variables at `levels` and successful calls of `solve` on `types`
over the variables there are. -/
inductive Checker.Run (levels : ℕ → Prop) (types : Ty → Prop) (solve : ℕ → Ty → Ty → Span → Solve Unit) :
    Checker → Prop where
  | empty : Run levels types solve Checker.empty
  | fresh {s : Checker} {level : ℕ} (isEmpty : Bool) (h : Run levels types solve s) (hlevel : levels level) :
    Run levels types solve (s.allocateOne level isEmpty)
  | constrain {s s' : Checker} {fuel : ℕ} {left right : Ty} {span : Span} (h : Run levels types solve s)
    (hleft : types left ∧ left.InScope s.arena.length) (hright : types right ∧ right.InScope s.arena.length)
    (hsolve : solve fuel left right span s = (.ok (), s')) : Run levels types solve s'

/-- A run of guarded calls is a run. -/
theorem run_of_guarded {levels : ℕ → Prop} {types : Ty → Prop} {guard : Checker → WorkItem → Bool}
    {lookup : MemberLookup} {s : Checker} (h : s.Run levels types (constrainWhile guard lookup)) :
    s.Run levels types (constrain lookup) := by
  induction h with
  | empty => exact .empty
  | fresh isEmpty _ hlevel ih => exact .fresh isEmpty ih hlevel
  | constrain _ hleft hright hsolve ih =>
    exact .constrain ih hleft hright (constrainWhile_refines _ _ _ _ _ _ _ hsolve)

end Blot.Typecheck
