import Blot.Support.Journal
import Blot.Typecheck.Children
import Blot.Typecheck.Constrain

/-!
# Failed choices leave no trace

Every mutation of the solver is a journalled bound insertion, a new variable, a change of a variable that the
checkpoint does not know, or a change of what `can_constrain_ids` snapshots.  `Checker.Since` says so of two states;
every function of the solver moves along it, and `rollbackBounds` takes any such move back.

* `Checker.Scoped` — the marks and the literal facts name variables of the arena; `Solver` carries it;
* `Checker.Since` — what a run can do to a state;
* `constrainIds_moves` — **the frame of the solver**;
* `canConstrainIds_false` — a failed choice restores the state.
-/

namespace Blot.Typecheck

open Blot.Support Checker

/-! ### What a run can do to a state -/

/-- The empty-array marks and the numeric-literal facts name variables of the arena. -/
structure Checker.Scoped (s : Checker) : Prop where
  marks : ∀ v ∈ s.emptyArrayElements, v < s.arena.length
  literals : ∀ p ∈ s.numericLiterals, p.1 < s.arena.length

def BoundInsertion.back (e : BoundInsertion) (v : Variable) : Variable := v.pop e.direction

/-- `s'` was reached from `s` by growing the arena and by journalled insertions into its old variables. -/
structure Checker.Since (s s' : Checker) : Prop where
  journal : Journal.Since BoundInsertion.variableId BoundInsertion.back (s.boundInsertions, s.arena)
    (s'.boundInsertions, s'.arena)
  level : s'.level = s.level
  marks : s'.emptyArrayElements.filter (· < s.arena.length) = s.emptyArrayElements.filter (· < s.arena.length)
  literals : s'.numericLiterals.filter (·.1 < s.arena.length) = s.numericLiterals.filter (·.1 < s.arena.length)
  inScope : s.Scoped → s'.Scoped

namespace Checker

variable {s s' s'' : Checker}

theorem Since.length_le (h : Since s s') : s.arena.length ≤ s'.arena.length := h.journal.1

theorem Since.refl (s : Checker) : Since s s := ⟨Journal.Since.refl _, rfl, rfl, rfl, id⟩

theorem Since.trans (h₁ : Since s s') (h₂ : Since s' s'') : Since s s'' where
  journal := h₁.journal.trans h₂.journal
  level := h₂.level.trans h₁.level
  marks := by
    rw [← h₁.marks]
    ext v
    have hv := Finset.ext_iff.1 h₂.marks v
    have hlen := h₁.length_le
    simp only [Finset.mem_filter] at hv ⊢
    constructor
    · rintro ⟨hm, hlt⟩
      exact ⟨(hv.1 ⟨hm, by omega⟩).1, hlt⟩
    · rintro ⟨hm, hlt⟩
      exact ⟨(hv.2 ⟨hm, by omega⟩).1, hlt⟩
  literals := by
    have hlen := h₁.length_le
    have hnest : ∀ l : List (ℕ × NumericLiteralFact),
        (l.filter (·.1 < s'.arena.length)).filter (·.1 < s.arena.length) = l.filter (·.1 < s.arena.length) := by
      intro l
      rw [List.filter_filter]
      refine List.filter_congr fun p _ => ?_
      simp only [Bool.and_eq_left_iff_imp, decide_eq_true_eq]
      omega
    rw [← h₁.literals, ← hnest s''.numericLiterals, h₂.literals, hnest]
  inScope := h₂.inScope ∘ h₁.inScope

/-- Nothing but the obligations and the skolem supply changed. -/
theorem Since.of_eq (hj : s'.boundInsertions = s.boundInsertions) (ha : s'.arena = s.arena)
    (hl : s'.level = s.level) (he : s'.emptyArrayElements = s.emptyArrayElements)
    (hn : s'.numericLiterals = s.numericLiterals) : Since s s' where
  journal := by rw [hj, ha]; exact Journal.Since.refl _
  level := hl
  marks := by rw [he]
  literals := by rw [hn]
  inScope h := ⟨by rw [he, ha]; exact h.marks, by rw [hn, ha]; exact h.literals⟩

@[simp] theorem pop_push (v : Variable) (d : BoundDirection) (t : Ty) : (v.push d t).pop d = v := by
  cases d <;> simp [Variable.push, Variable.pop]

theorem since_insertBound (s : Checker) (id : ℕ) (d : BoundDirection) (t : Ty) : Since s (s.insertBound id d t) where
  journal := @Journal.Since.change _ _ _ _ ⟨id, d⟩ (·.push d t) (fun v => pop_push v d t)
    (s.boundInsertions, s.arena)
  level := rfl
  marks := rfl
  literals := rfl
  inScope h := ⟨by simpa [insertBound, pushBound, recordBoundInsertion] using h.marks,
    by simpa [insertBound, pushBound, recordBoundInsertion] using h.literals⟩

theorem since_allocate (s : Checker) (level : ℕ) : Since s (s.allocate level) where
  journal := Journal.Since.grow _ _
  level := rfl
  marks := rfl
  literals := rfl
  inScope h :=
    ⟨fun v hv => by have := h.marks v hv; simp only [allocate, List.length_append, List.length_singleton]; omega,
      fun p hp => by have := h.literals p hp; simp only [allocate, List.length_append, List.length_singleton]; omega⟩

/-- A mark on a variable younger than `s`. -/
theorem Since.markEmpty (h : Since s s') {id : ℕ} (hid : s.arena.length ≤ id) (hid' : id < s'.arena.length) :
    Since s (s'.markEmpty id) where
  journal := h.journal
  level := h.level
  marks := by
    rw [← h.marks, Checker.markEmpty, Finset.filter_insert, if_neg (by omega)]
  literals := h.literals
  inScope hs := ⟨fun v hv => (Finset.mem_insert.1 hv).elim (fun e => e ▸ hid') ((h.inScope hs).marks v),
    (h.inScope hs).literals⟩

/-- New bounds for a variable younger than `s`. -/
theorem Since.setBounds (h : Since s s') {id : ℕ} (hid : s.arena.length ≤ id) (lower upper : List Ty) :
    Since s (setBounds id lower upper s').2 where
  journal := h.journal.overwrite hid
  level := h.level
  marks := h.marks
  literals := h.literals
  inScope hs :=
    ⟨by simpa [Typecheck.setBounds, Attempt.modify_run] using (h.inScope hs).marks,
      by simpa [Typecheck.setBounds, Attempt.modify_run] using (h.inScope hs).literals⟩

end Checker

/-! ### Every function of the solver moves along `Since` -/

/-- Every run of `m` moves the state along `Since`. -/
abbrev Framed {α : Type} (m : Solve α) : Prop := Attempt.Moves Checker.Since m

section Framed

variable {α β κ : Type}

theorem framed_pure (a : α) : Framed (pure a) := Attempt.moves_pure Since.refl a

theorem framed_stop (e : Stop) : Framed (Attempt.stop e : Solve α) := Attempt.moves_stop Since.refl e

theorem framed_get : Framed Attempt.get := Attempt.moves_get Since.refl

theorem framed_bind {m : Solve α} {f : α → Solve β} (hm : Framed m) (hf : ∀ a, Framed (f a)) : Framed (m >>= f) :=
  @Attempt.moves_bind _ _ _ _ Checker.Since (fun _ _ _ => Checker.Since.trans) _ _ hm hf

/-- A step of the state that `Since` covers. -/
theorem framed_modify {f : Checker → Checker} (h : ∀ s, Since s (f s)) : Framed (Attempt.modify f) := h

theorem framed_insertBound (id : ℕ) (d : BoundDirection) (t : Ty) : Framed (Attempt.modify (·.insertBound id d t)) :=
  fun s => since_insertBound s id d t

theorem framed_fresh : Framed fresh := fun s => since_allocate s s.level

theorem framed_mapParts {f : Bool → Ty → κ → Solve (Ty × κ)} (hf : ∀ b t k, Framed (f b t k))
    (ps : List (Bool × Ty)) (k : κ) : Framed (mapParts f ps k) := by
  induction ps generalizing k with
  | nil => exact framed_pure _
  | cons p rest ih => exact framed_bind (hf p.1 p.2 k) fun _ => framed_bind (ih _) fun _ => framed_pure _

theorem framed_mapTypes {f : Ty → κ → Solve (Ty × κ)} (hf : ∀ t k, Framed (f t k)) (ts : List Ty) (k : κ) :
    Framed (mapTypes f ts k) :=
  mapTypes_eq (f := fun _ => f) ts k ▸ framed_mapParts (fun _ => hf) _ k

theorem framed_mapChildren {f : Bool → Ty → κ → Solve (Ty × κ)} (hf : ∀ b t k, Framed (f b t k)) (t : Ty) (k : κ) :
    Framed (mapChildren f t k) := by
  rw [mapChildren_eq]
  exact framed_bind (framed_mapParts hf _ k) fun _ => framed_pure _

theorem framed_extrudeBounds {f : Ty → Copies → Solve (Ty × Copies)} (hf : ∀ t k, Framed (f t k)) (copy : ℕ)
    (d : BoundDirection) (bounds : List Ty) (copies : Copies) : Framed (extrudeBounds f copy d bounds copies) := by
  induction bounds generalizing copies with
  | nil => exact framed_pure _
  | cons bound rest ih =>
    exact framed_bind (hf _ _) fun _ => framed_bind (framed_insertBound _ _ _) fun _ => ih _

end Framed

theorem since_copy (s : Checker) (level source : ℕ) :
    Since s (copyEmptyMark source s.arena.length (s.allocate level)).2 := by
  rw [copyEmptyMark, Attempt.modify_run]
  have h := since_allocate s level
  by_cases hm : source ∈ (s.allocate level).emptyArrayElements
  · simp only [hm, if_true]
    exact h.markEmpty le_rfl (by simp [allocate])
  · simpa only [hm, if_false] using h

theorem framed_copy {α : Type} {level source : ℕ} {f : ℕ → Solve α} (hf : ∀ copy, Framed (f copy)) :
    Framed (freshAt level >>= fun copy => copyEmptyMark source copy >>= fun _ => f copy) := fun s =>
  (since_copy s level source).trans (hf _ _)

theorem framed_extrude (fuel : ℕ) (polarity : Bool) (level : ℕ) (t : Ty) (copies : Copies) :
    Framed (extrude fuel polarity level t copies) := by
  induction fuel generalizing polarity t copies with
  | zero => exact framed_stop _
  | succ fuel ih =>
    unfold extrude
    refine framed_bind framed_get fun s => Attempt.moves_ite (framed_pure _) ?_
    cases t with
    | var id =>
      simp only
      cases copies.lookup id with
      | some copy => exact framed_pure _
      | none =>
        refine framed_copy fun copy => framed_bind framed_get fun s => ?_
        refine Attempt.moves_ite ?_ ?_
        all_goals
          exact framed_bind (framed_insertBound _ _ _) fun _ =>
            framed_bind (framed_extrudeBounds (ih _) _ _ _ _) fun _ => framed_pure _
    | _ => exact framed_mapChildren (fun _ => ih _) _ _

theorem framed_freshen (fuel level : ℕ) (t : Ty) (copies : Copies) : Framed (freshen fuel level t copies) := by
  induction fuel generalizing t copies with
  | zero => exact framed_stop _
  | succ fuel ih =>
    unfold freshen
    cases t with
    | var id =>
      refine framed_bind framed_get fun source => Attempt.moves_ite (framed_pure _) ?_
      cases copies.lookup id with
      | some copy => exact framed_pure _
      | none =>
        intro s
        -- the copy is younger than `s`, so its bounds need no journal entry
        have h : Since s (copyEmptyMark id s.arena.length (s.allocate s.level)).2 := since_copy s s.level id
        refine @Attempt.bind_keeps _ _ _ _ _ (mapTypes (freshen fuel level) (source.variableOf id).lower _) _ _
          (h.trans (framed_mapTypes ih _ _ _)) fun lower s₁ _ h₁ => ?_
        refine Attempt.bind_keeps (h₁.trans (framed_mapTypes ih _ _ _)) fun upper s₂ _ h₂ => ?_
        exact h₂.setBounds le_rfl _ _
    | _ => exact framed_mapChildren (fun _ => ih) _ _

/-! ### Member requirements -/

theorem framed_obligations (f : Checker → MemberConstraints) :
    Framed (Attempt.modify fun s => { s with memberConstraints := f s }) :=
  framed_modify fun _ => Since.of_eq rfl rfl rfl rfl rfl

theorem framed_indexMemberRequirement (fuel id : ℕ) (r : MemberRequirement Ty) :
    Framed (indexMemberRequirement fuel id r) := by
  unfold indexMemberRequirement
  refine framed_bind framed_get fun s => ?_
  cases memberVariableIds s fuel [r.subject, r.member] [] ∅ with
  | none => exact framed_stop _
  | some found => exact framed_obligations _

theorem framed_registerMemberRequirement (fuel : ℕ) (r : MemberRequirement Ty) :
    Framed (registerMemberRequirement fuel r) := by
  unfold registerMemberRequirement
  refine framed_bind framed_get fun s => Attempt.moves_ite (framed_pure _) ?_
  exact framed_bind (framed_obligations _) fun _ => framed_indexMemberRequirement _ _ _

theorem framed_registerAll (fuel : ℕ) (rs : List (MemberRequirement Ty)) : Framed (registerAll fuel rs) := by
  induction rs with
  | nil => exact framed_pure _
  | cons r rest ih => exact framed_bind (framed_registerMemberRequirement fuel r) fun _ => ih

theorem framed_activateQualifiedType (fuel : ℕ) (t : Ty) : Framed (activateQualifiedType fuel t) := by
  induction fuel generalizing t with
  | zero => exact framed_stop _
  | succ fuel ih =>
    have hchildren : Framed (mapChildren (fun _ child (k : Unit) => do
          let child ← activateQualifiedType fuel child
          return (child, k)) t () >>= fun p => pure p.1) :=
      framed_bind (framed_mapChildren (fun _ _ _ => framed_bind (ih _) fun _ => framed_pure _) _ _)
        fun _ => framed_pure _
    cases t with
    | forallType vs body => exact framed_pure _
    | qualified rs body => exact framed_bind (framed_registerAll _ _) fun _ => ih _
    | _ => exact hchildren

theorem framed_instantiate (fuel level : ℕ) (body : Ty) : Framed (instantiate fuel level body) :=
  framed_bind (framed_freshen _ _ _ _) fun _ => framed_activateQualifiedType _ _

theorem framed_freshBinders (vs : List ℕ) : Framed (freshBinders vs) := by
  induction vs with
  | nil => exact framed_pure _
  | cons v rest ih => exact framed_bind framed_fresh fun _ => framed_bind ih fun _ => framed_pure _

theorem framed_instantiateForall (fuel : ℕ) (vs : List ℕ) (body : Ty) : Framed (instantiateForall fuel vs body) :=
  framed_bind (framed_freshBinders _) fun _ => framed_activateQualifiedType _ _

theorem framed_nextSkolem (f : Checker → ℕ) : Framed (Attempt.modify fun s => { s with nextSkolem := f s }) :=
  framed_modify fun _ => Since.of_eq rfl rfl rfl rfl rfl

theorem framed_freshRigids (vs : List ℕ) : Framed (freshRigids vs) := by
  induction vs with
  | nil => exact framed_pure _
  | cons v rest ih =>
    exact framed_bind framed_get fun _ => framed_bind (framed_nextSkolem _) fun _ => framed_bind ih fun _ =>
      framed_pure _

theorem framed_skolemize (vs : List ℕ) (body : Ty) : Framed (skolemize vs body) :=
  framed_bind (framed_freshRigids _) fun _ => framed_pure _

theorem since_allocateMarked (allocated : List Bool) (s : Checker) :
    Since s (allocated.foldl (fun s isEmpty =>
      if isEmpty then (s.allocate s.level).markEmpty s.arena.length else s.allocate s.level) s) := by
  induction allocated generalizing s with
  | nil => exact Since.refl s
  | cons isEmpty rest ih =>
    refine Since.trans ?_ (ih _)
    cases isEmpty with
    | false => exact since_allocate s s.level
    | true => exact (since_allocate s s.level).markEmpty le_rfl (by simp [allocate])

theorem framed_allocateSignature (signature : MemberSignature) : Framed (allocateSignature signature) :=
  framed_bind (framed_modify fun s => since_allocateMarked signature.allocated s) fun _ =>
    framed_bind (framed_nextSkolem _) fun _ => framed_pure _

theorem framed_orDiagnostic {α : Type} (code : String) (about : List Ty) (span : Span) (o : Option α) :
    Framed (orDiagnostic code about span o) := by
  cases o with
  | none => exact framed_stop _
  | some a => exact framed_pure a

theorem framed_takeReadyMemberConstraints (lookup : MemberLookup) (span : Span) (fuel : ℕ) :
    Framed (takeReadyMemberConstraints lookup span fuel) := by
  induction fuel with
  | zero => exact framed_stop _
  | succ fuel ih =>
    unfold takeReadyMemberConstraints
    refine framed_bind framed_get fun s => ?_
    cases popFirst s.memberConstraints.queued with
    | none => exact framed_pure _
    | some popped =>
      refine framed_bind (framed_obligations _) fun _ => ?_
      cases s.memberConstraints.entries[popped.1]? with
      | none => exact ih
      | some entry =>
        refine Attempt.moves_ite ih (framed_bind (framed_indexMemberRequirement _ _ _) fun _ => ?_)
        refine framed_bind framed_get fun s => ?_
        cases lookup.memberLookupSubject s entry.requirement.subject with
        | none => exact ih
        | some subject =>
          refine framed_bind (framed_orDiagnostic _ _ _ _) fun value => ?_
          refine framed_bind (framed_orDiagnostic _ _ _ _) fun member => ?_
          refine framed_bind (framed_orDiagnostic _ _ _ _) fun signature => ?_
          refine framed_bind (framed_allocateSignature _) fun signature => ?_
          refine framed_bind (framed_instantiate _ _ _) fun signature => ?_
          exact framed_bind (framed_obligations _) fun _ => framed_bind ih fun _ => framed_pure _

/-! ### Bounds and work items -/

theorem framed_addBound (d : BoundDirection) (bound : Ty) (span : Span) (fuel : ℕ) (pending : List ℕ)
    (visited : Finset ℕ) (work : List WorkItem) : Framed (addBound d bound span fuel pending visited work) := by
  induction fuel generalizing pending visited work with
  | zero => exact framed_stop _
  | succ fuel ih =>
    cases pending with
    | nil => exact framed_pure _
    | cons id pending =>
      refine Attempt.moves_ite (ih _ _ _) (framed_bind framed_get fun s => Attempt.moves_ite (ih _ _ _) ?_)
      exact framed_bind (framed_insertBound _ _ _) fun _ => ih _ _ _

theorem framed_addEach {add : Ty → List WorkItem → Solve (List WorkItem)} (hadd : ∀ t work, Framed (add t work))
    (bounds : List Ty) (work : List WorkItem) : Framed (addEach add bounds work) := by
  induction bounds generalizing work with
  | nil => exact framed_pure _
  | cons bound rest ih => exact framed_bind (hadd _ _) fun _ => ih _

theorem since_edge (s : Checker) (left right : ℕ) :
    Since s ((((s.pushBound left .upper (.var right)).pushBound right .lower (.var left)).recordBoundInsertion
      left .upper).recordBoundInsertion right .lower) :=
  (since_insertBound s left .upper (.var right)).trans (since_insertBound _ right .lower (.var left))

theorem framed_constrainVariables (fuel left right : ℕ) (span : Span) (seen : Finset (ℕ × ℕ))
    (work : List WorkItem) : Framed (constrainVariables fuel left right span seen work) := by
  unfold constrainVariables
  refine Attempt.moves_ite (framed_pure _) (framed_bind framed_get fun s => Attempt.moves_ite (framed_pure _) ?_)
  have hwork : ∀ lowers uppers, Framed (do
      let work ← addEach (fun bound => addLowerBound fuel right bound span) lowers work
      let work ← addEach (fun bound => addUpperBound fuel left bound span) uppers work
      return (insert (left, right) seen, work)) := fun _ _ =>
    framed_bind (framed_addEach (fun _ _ => framed_addBound _ _ _ _ _ _ _) _ _) fun _ =>
      framed_bind (framed_addEach (fun _ _ => framed_addBound _ _ _ _ _ _ _) _ _) fun _ => framed_pure _
  exact fun s => (since_edge s left right).trans (hwork _ _ _)

theorem framed_constrainBound (fuel : ℕ) (d : BoundDirection) {add : Ty → List WorkItem → Solve (List WorkItem)}
    (hadd : ∀ t work, Framed (add t work)) (id : ℕ) (bound : Ty) (span : Span) (work : List WorkItem) :
    Framed (constrainBound fuel d add id bound span work) :=
  framed_bind framed_get fun _ => Attempt.moves_ite (hadd _ _)
    (framed_bind (framed_extrude _ _ _ _ _) fun _ => framed_pure _)

theorem framed_constrainAbove (fuel id : ℕ) (right : Ty) (span : Span) (work : List WorkItem) :
    Framed (constrainAbove fuel id right span work) :=
  framed_constrainBound _ _ (fun _ _ => framed_addBound _ _ _ _ _ _ _) _ _ _ _

theorem framed_constrainBelow (fuel : ℕ) (left : Ty) (id : ℕ) (span : Span) (work : List WorkItem) :
    Framed (constrainBelow fuel left id span work) :=
  framed_constrainBound _ _ (fun _ _ => framed_addBound _ _ _ _ _ _ _) _ _ _ _

theorem framed_typeError {α : Type} (about : List Ty) (span : Span) : Framed (typeError about span : Solve α) :=
  framed_stop _

theorem framed_constrainStructural (left right : Ty) (span : Span) (work : List WorkItem) :
    Framed (constrainStructural left right span work) := by
  refine framed_bind framed_get fun s => ?_
  cases decompose (fun v => v ∈ s.emptyArrayElements) left right with
  | ok items => exact framed_pure _
  | error about => exact framed_typeError _ _

section Choice

variable {can : Ty → Ty → Span → Solve Bool} (hcan : ∀ left right span, Framed (can left right span))

theorem framed_allM {f : Ty → Solve Bool} (hf : ∀ t, Framed (f t)) (members : List Ty) : Framed (members.allM f) := by
  induction members with
  | nil => exact framed_pure _
  | cons member rest ih =>
    refine framed_bind (hf member) fun b => ?_
    cases b with
    | true => exact ih
    | false => exact framed_pure _

theorem framed_anyM {f : Ty → Solve Bool} (hf : ∀ t, Framed (f t)) (members : List Ty) : Framed (members.anyM f) := by
  induction members with
  | nil => exact framed_pure _
  | cons member rest ih =>
    refine framed_bind (hf member) fun b => ?_
    cases b with
    | true => exact framed_pure _
    | false => exact ih

include hcan

theorem framed_constrainUnquantified (fuel : ℕ) (left right : Ty) (span : Span) (seen : Finset (ℕ × ℕ))
    (work : List WorkItem) : Framed (constrainUnquantified fuel can left right span seen work) := by
  have hbelow : ∀ t id, Framed (do
      let work ← constrainBelow fuel t id span work
      return (seen, work)) := fun _ _ => framed_bind (framed_constrainBelow _ _ _ _ _) fun _ => framed_pure _
  have habove : ∀ id t, Framed (do
      let work ← constrainAbove fuel id t span work
      return (seen, work)) := fun _ _ => framed_bind (framed_constrainAbove _ _ _ _ _) fun _ => framed_pure _
  have hstructural : ∀ l r, Framed (do
      let work ← constrainStructural l r span work
      return (seen, work)) := fun _ _ => framed_bind (framed_constrainStructural _ _ _ _) fun _ => framed_pure _
  have hany : ∀ l members, Framed (do
      if ← members.anyM fun member => can l member span then return (seen, work)
      typeError [l, .union members] span) := fun _ _ =>
    framed_bind (framed_anyM (fun _ => hcan _ _ _) _) fun _ => Attempt.moves_ite (framed_pure _) (framed_typeError _ _)
  have hall : ∀ members r, Framed (do
      if ← members.allM fun member => can member r span then return (seen, work)
      typeError [.union members, r] span) := fun _ _ =>
    framed_bind (framed_allM (fun _ => hcan _ _ _) _) fun _ => Attempt.moves_ite (framed_pure _) (framed_typeError _ _)
  unfold constrainUnquantified
  cases left with
  | var l =>
    cases right with
    | var r => exact framed_constrainVariables _ _ _ _ _ _
    | _ => exact habove _ _
  | union members =>
    cases right with
    | var r => exact hbelow _ _
    | _ => exact hall _ _
  | _ =>
    cases right with
    | var r => exact hbelow _ _
    | union members => exact hany _ _
    | _ => exact hstructural _ _

theorem framed_constrainWorkItem (fuel : ℕ) (item : WorkItem) (seen : Finset (ℕ × ℕ)) (work : List WorkItem) :
    Framed (constrainWorkItem fuel can item seen work) := by
  obtain ⟨left, right, span⟩ := item
  have hqualified : ∀ rs l r, Framed (do
      registerAll fuel rs
      return (seen, work ++ [(⟨l, r, span⟩ : WorkItem)])) := fun _ _ _ =>
    framed_bind (framed_registerAll _ _) fun _ => framed_pure _
  have hforall : ∀ vs body r, Framed (do
      let instantiated ← instantiateForall fuel vs body
      return (seen, work ++ [(⟨instantiated, r, span⟩ : WorkItem)])) := fun _ _ _ =>
    framed_bind (framed_instantiateForall _ _ _) fun _ => framed_pure _
  have hrigid : ∀ l vs body, Framed (do
      let rigid ← skolemize vs body
      return (seen, work ++ [(⟨l, rigid, span⟩ : WorkItem)])) := fun _ _ _ =>
    framed_bind (framed_skolemize _ _) fun _ => framed_pure _
  refine Attempt.moves_ite (framed_pure _) ?_
  cases left with
  | qualified rs body => exact hqualified _ _ _
  | bottom =>
    cases right with
    | qualified rs body => exact hqualified _ _ _
    | _ => exact framed_pure _
  | forallType vs body =>
    cases right with
    | qualified rs body => exact hqualified _ _ _
    | top => exact framed_pure _
    | _ => exact hforall _ _ _
  | _ =>
    cases right with
    | qualified rs body => exact hqualified _ _ _
    | top => exact framed_pure _
    | forallType vs body => exact hrigid _ _ _
    | _ => exact framed_constrainUnquantified hcan _ _ _ _ _ _

end Choice

theorem framed_constrainLoop (lookup : MemberLookup) {step : WorkItem → Finset (ℕ × ℕ) → List WorkItem → Solve Queue}
    (hstep : ∀ item seen work, Framed (step item seen work)) (span : Span) (n : ℕ) (seen : Finset (ℕ × ℕ))
    (work : List WorkItem) : Framed (constrainLoop lookup step span n seen work) := by
  induction n generalizing seen work with
  | zero => exact framed_stop _
  | succ n ih =>
    cases work with
    | nil =>
      refine framed_bind (framed_takeReadyMemberConstraints _ _ _) fun ready => ?_
      cases ready with
      | nil => exact framed_pure _
      | cons item work => exact ih _ _
    | cons item work => exact framed_bind (hstep _ _ _) fun _ => ih _ _

/-! ### Rolling back -/

theorem undo_append (js rest : List BoundInsertion) (arena : List Variable) :
    undo rest.length (js ++ rest) arena =
      (rest, Journal.unwind BoundInsertion.variableId BoundInsertion.back js arena) := by
  induction js generalizing arena with
  | nil => cases rest <;> simp [undo]
  | cons e js ih =>
    have hlen : (e :: (js ++ rest)).length > rest.length := by
      simp only [List.length_cons, List.length_append]
      omega
    rw [List.cons_append, undo, if_pos hlen, ih]
    rfl

theorem rollbackBounds_eq (s : Checker) (insertionCount variableCount nextSkolem : ℕ) :
    s.rollbackBounds insertionCount variableCount nextSkolem =
      { s with
        boundInsertions := (undo insertionCount s.boundInsertions s.arena).1
        arena := (undo insertionCount s.boundInsertions s.arena).2.take variableCount
        emptyArrayElements := s.emptyArrayElements.filter (· < variableCount)
        numericLiterals := s.numericLiterals.filter (·.1 < variableCount)
        nextSkolem := nextSkolem } := rfl

/-- What a speculation leaves when it gives up. -/
def Checker.restore (s s' : Checker) : Checker :=
  { s'.rollbackBounds s.boundInsertions.length s.arena.length s.nextSkolem with
    memberConstraints := s.memberConstraints }

/-- Rolling back restores everything but what lies outside the checkpoint's scope. -/
theorem Checker.Since.restore_eq {s s' : Checker} (h : Since s s') :
    s.restore s' = { s with
      emptyArrayElements := s.emptyArrayElements.filter (· < s.arena.length)
      numericLiterals := s.numericLiterals.filter (·.1 < s.arena.length) } := by
  obtain ⟨hlen, js, hjs, hold⟩ := h.journal
  simp only at hjs hold
  rw [restore, rollbackBounds_eq, hjs, undo_append, hold, h.marks, h.literals, h.level]

/-- **Rolling back restores the state.** -/
theorem Checker.Since.restore {s s' : Checker} (h : Since s s') (hs : s.Scoped) : s.restore s' = s := by
  have hmarks : s.emptyArrayElements.filter (· < s.arena.length) = s.emptyArrayElements :=
    Finset.filter_true_of_mem hs.marks
  have hliterals : s.numericLiterals.filter (·.1 < s.arena.length) = s.numericLiterals :=
    List.filter_eq_self.2 fun p hp => decide_eq_true (hs.literals p hp)
  rw [h.restore_eq, hmarks, hliterals]

/-- A speculation that gives up moves along `Since` too. -/
theorem Checker.Since.since_restore {s s' : Checker} (h : Since s s') : Since s (s.restore s') := by
  rw [h.restore_eq]
  refine ⟨Journal.Since.refl _, rfl, ?_, ?_, fun hs => ⟨?_, ?_⟩⟩
  · simp only [Finset.filter_filter, and_self]
  · simp only [List.filter_filter, Bool.and_self]
  · exact fun v hv => hs.marks v (Finset.mem_filter.1 hv).1
  · exact fun p hp => hs.literals p (List.mem_filter.1 hp).1

theorem framed_canConstrainWith {constrain : Ty → Ty → Span → Solve Unit}
    (h : ∀ left right span, Framed (constrain left right span)) (left right : Ty) (span : Span) :
    Framed (canConstrainWith constrain left right span) := by
  intro s
  have hs := h left right span s
  revert hs
  unfold canConstrainWith
  rcases constrain left right span s with ⟨e | u, s'⟩ <;> intro hs
  · cases e with
    | fuel => exact hs
    | diagnostic d => exact hs.since_restore
  · exact hs

/-- **The frame of the solver**: whatever a run of the queue does, it does along `Since`. -/
theorem framed_constrainIds (lookup : MemberLookup) (fuel : ℕ) (left right : Ty) (span : Span) :
    Framed (constrainIds lookup fuel left right span) := by
  induction fuel generalizing left right span with
  | zero => exact framed_stop _
  | succ fuel ih =>
    exact framed_constrainLoop lookup (framed_constrainWorkItem (framed_canConstrainWith ih) fuel) span _ _ _

/-! ### Solver states -/

/-- A state of the solver: a checker whose marks and literals are in scope. -/
structure Solver where
  checker : Checker
  inScope : checker.Scoped

def Solver.after {α : Type} (s : Solver) (m : Solve α) (hm : Framed m) : Solver :=
  ⟨(m s.checker).2, (hm s.checker).inScope s.inScope⟩

section Choice

variable (lookup : MemberLookup) (fuel : ℕ)

theorem canConstrainIds_false {left right : Ty} {span : Span} {s : Solver} {s' : Checker}
    (h : canConstrainIds lookup fuel left right span s.checker = (.ok false, s')) : s' = s.checker := by
  have hs := framed_constrainIds lookup fuel left right span s.checker
  unfold canConstrainIds canConstrainWith at h
  rcases hr : constrainIds lookup fuel left right span s.checker with ⟨e | u, s₁⟩
  · rw [hr] at h hs
    cases e with
    | fuel => simp at h
    | diagnostic d =>
      obtain ⟨-, rfl⟩ := Prod.mk.inj h
      exact hs.restore s.inScope
  · rw [hr] at h
    simp at h

theorem framed_constrainNumericLiteralCandidate (id : ℕ) (candidate : NumericLiteralCandidate) (span : Span) :
    Framed (constrainNumericLiteralCandidate lookup fuel id candidate span) :=
  framed_bind (framed_constrainIds _ _ _ _ _) fun _ => framed_constrainIds _ _ _ _ _

theorem numericLiteralCandidateFits_state {id : ℕ} {candidate : NumericLiteralCandidate} {span : Span} {s : Solver}
    {result : Except Stop Unit} {s' : Checker}
    (h : numericLiteralCandidateFits lookup fuel id candidate span s.checker = (result, s'))
    (hfuel : result ≠ .error .fuel) : s' = s.checker := by
  have hs := framed_constrainNumericLiteralCandidate lookup fuel id candidate span s.checker
  unfold numericLiteralCandidateFits at h
  rcases hr : constrainNumericLiteralCandidate lookup fuel id candidate span s.checker with ⟨e | u, s₁⟩
  · rw [hr] at h hs
    cases e with
    | fuel => exact absurd (Prod.mk.inj h).1.symm hfuel
    | diagnostic d =>
      obtain ⟨-, rfl⟩ := Prod.mk.inj h
      exact hs.restore s.inScope
  · rw [hr] at h hs
    obtain ⟨-, rfl⟩ := Prod.mk.inj h
    exact hs.restore s.inScope

/-- The probes of one literal leave the state alone, whatever they come to. -/
theorem chooseCandidate_state {id : ℕ} {span : Span} {allowDefault : Bool} {s : Solver}
    (candidates : List NumericLiteralCandidate) {selected : Option NumericLiteralCandidate} {error : Option Diagnostic}
    {choice : CandidateChoice} {s' : Checker}
    (h : chooseCandidate lookup fuel id span allowDefault candidates selected error s.checker = (.ok choice, s')) :
    s' = s.checker := by
  induction candidates generalizing selected error with
  | nil => cases selected <;> exact (Prod.mk.inj h).2.symm
  | cons candidate rest ih =>
    unfold chooseCandidate at h
    rcases hr : numericLiteralCandidateFits lookup fuel id candidate span s.checker with ⟨e | u, s₁⟩
    · rw [hr] at h
      cases e with
      | fuel => simp at h
      | diagnostic d =>
        obtain rfl := numericLiteralCandidateFits_state lookup fuel hr (by simp)
        exact ih h
    · rw [hr] at h
      obtain rfl := numericLiteralCandidateFits_state lookup fuel hr (by simp)
      simp only at h
      split at h
      · exact (Prod.mk.inj h).2.symm
      · split at h
        · exact (Prod.mk.inj h).2.symm
        · exact ih h

theorem anyM_filter {s : Solver} {left : Ty} {span : Span} {members : List Ty} {keep : Ty → Bool}
    (hfail : ∀ m ∈ members, keep m = false →
      (canConstrainIds lookup fuel left m span s.checker).1 = .ok false) :
    members.anyM (fun m => canConstrainIds lookup fuel left m span) s.checker =
      (members.filter keep).anyM (fun m => canConstrainIds lookup fuel left m span) s.checker := by
  induction members with
  | nil => rfl
  | cons m rest ih =>
    have ih := ih fun n hn => hfail n (List.mem_cons_of_mem _ hn)
    rcases hr : canConstrainIds lookup fuel left m span s.checker with ⟨e | b, s'⟩
    · cases hk : keep m with
      | false => simpa [hr] using hfail m List.mem_cons_self hk
      | true =>
        rw [List.filter_cons_of_pos hk, List.anyM, List.anyM, Attempt.bind_run_error hr, Attempt.bind_run_error hr]
    · cases b with
      | true =>
        cases hk : keep m with
        | false => simpa [hr] using hfail m List.mem_cons_self hk
        | true => rw [List.filter_cons_of_pos hk, List.anyM, List.anyM, Attempt.bind_run_ok hr, Attempt.bind_run_ok hr]
      | false =>
        -- a failed candidate leaves the state as it was, so the rest is tried from there
        obtain rfl := canConstrainIds_false lookup fuel hr
        cases hk : keep m with
        | false =>
          rw [List.filter_cons_of_neg (by simp [hk]), List.anyM, Attempt.bind_run_ok hr]
          exact ih
        | true =>
          rw [List.filter_cons_of_pos hk, List.anyM, List.anyM, Attempt.bind_run_ok hr, Attempt.bind_run_ok hr]
          exact ih

end Choice

/-- Whether an item with this type on its left and a union on its right tries the members of the union. -/
def Ty.choosesMember : Ty → Bool
  | .var _ | .union _ | .qualified _ _ | .bottom | .forallType _ _ => false
  | _ => true

/-- A union on the right is a choice among its members. -/
theorem constrainWorkItem_union {can : Ty → Ty → Span → Solve Bool} {fuel : ℕ} {left : Ty} {members : List Ty}
    {span : Span} (seen : Finset (ℕ × ℕ)) (work : List WorkItem) (hleft : left.choosesMember = true)
    (hsame : Ty.same left (.union members) = false) :
    constrainWorkItem fuel can ⟨left, .union members, span⟩ seen work = (do
      if ← members.anyM fun member => can left member span then return (seen, work)
      typeError [left, .union members] span) := by
  unfold constrainWorkItem
  simp only [hsame, Bool.false_eq_true, if_false]
  cases left <;> first | rfl | simp [Ty.choosesMember] at hleft

/-- **Failed choices are atomic.**  A choice that fails and a probe of a numeric literal leave the state they started
in; an item below a union runs as if any of its failing members had never been there. -/
theorem failed_choices_leave_no_trace (lookup : MemberLookup) (fuel : ℕ) (s : Solver) :
    (∀ left right span s', canConstrainIds lookup fuel left right span s.checker = (.ok false, s') → s' = s.checker) ∧
    (∀ id candidate span result s',
      numericLiteralCandidateFits lookup fuel id candidate span s.checker = (result, s') → result ≠ .error .fuel →
        s' = s.checker) ∧
    (∀ left members span seen work (keep : Ty → Bool), left.choosesMember = true →
      Ty.same left (.union members) = false →
      (∀ m ∈ members, keep m = false → (canConstrainIds lookup fuel left m span s.checker).1 = .ok false) →
      constrainWorkItem fuel (canConstrainIds lookup fuel) ⟨left, .union members, span⟩ seen work s.checker =
        (do
          if ← (members.filter keep).anyM fun member => canConstrainIds lookup fuel left member span then
            return (seen, work)
          typeError [left, .union members] span : Solve Queue) s.checker) := by
  refine ⟨fun _ _ _ _ h => canConstrainIds_false lookup fuel h,
    fun _ _ _ _ _ h hfuel => numericLiteralCandidateFits_state lookup fuel h hfuel, ?_⟩
  intro left members span seen work keep hleft hsame hfail
  rw [constrainWorkItem_union seen work hleft hsame, Attempt.bind_run, Attempt.bind_run,
    anyM_filter lookup fuel hfail]

/-- The solver before any constraint. -/
def Solver.empty : Solver := ⟨Checker.empty, ⟨fun v hv => absurd hv (Finset.notMem_empty v), nofun⟩⟩

/-- The solver with one variable. -/
def Solver.one : Solver := Solver.empty.after fresh framed_fresh

def pair (a b : Ty) : Ty := .record [("a", a), ("b", b)]

/-- `{a: x, b: int}` below a union whose first member bounds `x` before it fails: the bound leaves no trace, and the
second member is taken. -/
theorem failed_choices_leave_no_trace_pair :
    (constrainIds .none 3 (pair (.var 0) intType) (pair intType .unit) ⟨0, 0⟩ Solver.one.checker).2.boundInsertions ≠ [] ∧
    constrainWorkItem 3 (canConstrainIds .none 3)
        ⟨pair (.var 0) intType, .union [pair intType .unit, pair intType intType], ⟨0, 0⟩⟩ ∅ [] Solver.one.checker =
      (do
        if ← [pair intType intType].anyM fun member =>
            canConstrainIds .none 3 (pair (.var 0) intType) member ⟨0, 0⟩ then return (∅, [])
        typeError [pair (.var 0) intType, .union [pair intType .unit, pair intType intType]] ⟨0, 0⟩ : Solve Queue)
      Solver.one.checker :=
  ⟨by decide, (failed_choices_leave_no_trace .none 3 Solver.one).2.2 (pair (.var 0) intType)
    [pair intType .unit, pair intType intType] ⟨0, 0⟩ ∅ [] (· ≠ pair intType .unit) rfl (by decide) (by decide)⟩

/-! ### The states of the solver -/

section Reachable

variable (lookup : MemberLookup)

/-- The steps a client of the solver takes. -/
inductive Checker.Step : Checker → Checker → Prop where
  | atLevel (level : ℕ) (s : Checker) : Step s { s with level := level }
  | fresh (s : Checker) : Step s (fresh s).2
  | emptyArrayElement (s : Checker) : Step s (freshEmptyArrayElement s).2
  | numericLiteral (fact : NumericLiteralFact) (s : Checker) : Step s (freshNumericLiteral fact s).2
  | instantiate (fuel level : ℕ) (body : Ty) (s : Checker) : Step s (instantiate fuel level body s).2
  | skolemize (binders : List ℕ) (body : Ty) (s : Checker) : Step s (skolemize binders body s).2
  | constrain (fuel : ℕ) (left right : Ty) (span : Span) (s : Checker) :
    Step s (constrain lookup fuel left right span s).2
  | resolve (fuel first : ℕ) (allowDefault : Bool) (s : Checker) :
    Step s (resolveNumericLiterals lookup fuel first allowDefault s).2

/-- Every run of `m` keeps the marks and the literals in scope. -/
abbrev KeepsScope {α : Type} (m : Solve α) : Prop := Attempt.Moves (fun s s' => s.Scoped → s'.Scoped) m

theorem Framed.keepsScope {α : Type} {m : Solve α} (h : Framed m) : KeepsScope m := fun s => (h s).inScope

theorem keepsScope_bind {α β : Type} {m : Solve α} {f : α → Solve β} (hm : KeepsScope m) (hf : ∀ a, KeepsScope (f a)) :
    KeepsScope (m >>= f) :=
  @Attempt.moves_bind _ _ _ _ (fun s s' : Checker => s.Scoped → s'.Scoped) (fun _ _ _ h h' => h' ∘ h) _ _ hm hf

theorem keepsScope_removeNumericLiteral (id : ℕ) : KeepsScope (removeNumericLiteral id) := fun _ hs =>
  ⟨hs.marks, fun p hp => hs.literals p (List.mem_filter.1 hp).1⟩

theorem keepsScope_clearJournal : KeepsScope (Attempt.modify fun s => { s with boundInsertions := [] }) :=
  fun _ hs => ⟨hs.marks, hs.literals⟩

theorem framed_numericLiteralCandidateFits (fuel id : ℕ) (candidate : NumericLiteralCandidate) (span : Span) :
    Framed (numericLiteralCandidateFits lookup fuel id candidate span) := by
  intro s
  have hs := framed_constrainNumericLiteralCandidate lookup fuel id candidate span s
  revert hs
  unfold numericLiteralCandidateFits
  rcases constrainNumericLiteralCandidate lookup fuel id candidate span s with ⟨e | u, s'⟩ <;> intro hs
  · cases e with
    | fuel => exact hs
    | diagnostic d => exact hs.since_restore
  · exact hs.since_restore

theorem framed_chooseCandidate (fuel id : ℕ) (span : Span) (allowDefault : Bool)
    (candidates : List NumericLiteralCandidate) (selected : Option NumericLiteralCandidate)
    (error : Option Diagnostic) :
    Framed (chooseCandidate lookup fuel id span allowDefault candidates selected error) := by
  induction candidates generalizing selected error with
  | nil => cases selected <;> exact framed_pure _
  | cons candidate rest ih =>
    intro s
    have hs := framed_numericLiteralCandidateFits lookup fuel id candidate span s
    revert hs
    unfold chooseCandidate
    rcases numericLiteralCandidateFits lookup fuel id candidate span s with ⟨e | u, s'⟩ <;> intro hs
    · cases e with
      | fuel => exact hs
      | diagnostic d => exact hs.trans (ih _ _ _)
    · simp only
      split
      · exact hs
      · split
        · exact hs
        · exact hs.trans (ih _ _ _)

theorem keepsScope_resolveEach (fuel : ℕ) (allowDefault : Bool) (literals : List (ℕ × NumericLiteralFact)) :
    KeepsScope (resolveEach lookup fuel allowDefault literals) := by
  induction literals with
  | nil => exact (framed_pure _).keepsScope
  | cons p rest ih =>
    obtain ⟨id, literal⟩ := p
    refine keepsScope_bind framed_get.keepsScope fun s => Attempt.moves_ite ?_ ?_
    · exact keepsScope_bind (keepsScope_removeNumericLiteral id) fun _ => ih
    · refine keepsScope_bind (framed_chooseCandidate lookup fuel id _ _ _ _ _).keepsScope fun choice => ?_
      cases choice with
      | ambiguous => exact ih
      | failed error => cases error <;> exact (framed_stop _).keepsScope
      | selected candidate =>
        exact keepsScope_bind (framed_constrainNumericLiteralCandidate _ _ _ _ _).keepsScope fun _ =>
          keepsScope_bind keepsScope_clearJournal fun _ =>
            keepsScope_bind (keepsScope_removeNumericLiteral id) fun _ => ih

/-- One step keeps the marks and the literals in scope. -/
theorem Checker.Step.inScope {s s' : Checker} (h : Step lookup s s') (hs : s.Scoped) : s'.Scoped := by
  cases h with
  | atLevel level => exact ⟨hs.marks, hs.literals⟩
  | fresh => exact (since_allocate s s.level).inScope hs
  | emptyArrayElement =>
    exact ((since_allocate s s.level).markEmpty le_rfl (by simp [allocate])).inScope hs
  | numericLiteral fact =>
    refine ⟨((since_allocate s s.level).inScope hs).marks, fun p hp => ?_⟩
    rcases List.mem_append.1 hp with hp | hp
    · exact ((since_allocate s s.level).inScope hs).literals p hp
    · obtain rfl := List.mem_singleton.1 hp
      exact List.length_append ▸ Nat.lt_succ_self _
  | instantiate fuel level body => exact (framed_instantiate fuel level body s).inScope hs
  | skolemize binders body => exact (framed_skolemize binders body s).inScope hs
  | constrain fuel left right span =>
    have h := (framed_constrainIds lookup fuel left right span s).inScope hs
    exact ⟨h.marks, h.literals⟩
  | resolve fuel first allowDefault =>
    exact keepsScope_bind framed_get.keepsScope (fun _ => keepsScope_resolveEach lookup fuel allowDefault _) s hs

/-- **Every state a client reaches is a state of the solver.** -/
theorem Checker.inScope_of_steps {s : Checker} (h : Relation.ReflTransGen (Step lookup) Checker.empty s) :
    s.Scoped := by
  induction h with
  | refl => exact Solver.empty.inScope
  | tail _ step ih => exact step.inScope lookup ih

/-! ### Numeric literals -/

/-- The variable of a literal can be bounded by a candidate. -/
def candidateFits (fuel id : ℕ) (span : Span) (s : Checker) (candidate : NumericLiteralCandidate) : Bool :=
  (constrainNumericLiteralCandidate lookup fuel id candidate span s).1.isOk

/-- What the candidates that fit come to. -/
def settleCandidates (allowDefault : Bool) (error : Option Diagnostic) : List NumericLiteralCandidate → CandidateChoice
  | [] => .failed error
  | [candidate] => .selected candidate
  | candidate :: _ :: _ => if allowDefault then .selected candidate else .ambiguous

theorem candidateFits_of_run {fuel id : ℕ} {span : Span} {s s' : Checker} {candidate : NumericLiteralCandidate}
    {result : Except Stop Unit} (h : numericLiteralCandidateFits lookup fuel id candidate span s = (result, s')) :
    candidateFits lookup fuel id span s candidate = result.isOk := by
  unfold numericLiteralCandidateFits at h
  unfold candidateFits
  rcases hr : constrainNumericLiteralCandidate lookup fuel id candidate span s with ⟨e | u, s₁⟩
  · rw [hr] at h
    cases e <;> (obtain ⟨rfl, -⟩ := Prod.mk.inj h; rfl)
  · rw [hr] at h
    obtain ⟨rfl, -⟩ := Prod.mk.inj h
    rfl

/-- The candidate that was selected before stands in front of those that are still to be tried. -/
theorem chooseCandidate_settles {fuel id : ℕ} {span : Span} {allowDefault : Bool} {s : Solver}
    (candidates : List NumericLiteralCandidate) {selected : Option NumericLiteralCandidate} {error : Option Diagnostic}
    (hselected : selected = none ∨ allowDefault = false) {result : Except Stop CandidateChoice} {s' : Checker}
    (h : chooseCandidate lookup fuel id span allowDefault candidates selected error s.checker = (result, s')) :
    result = .error .fuel ∨ ∃ error, result = .ok (settleCandidates allowDefault error
      (selected.toList ++ candidates.filter (candidateFits lookup fuel id span s.checker))) := by
  induction candidates generalizing selected error with
  | nil => cases selected <;> exact .inr ⟨error, (Prod.mk.inj h).1.symm⟩
  | cons candidate rest ih =>
    unfold chooseCandidate at h
    rcases hr : numericLiteralCandidateFits lookup fuel id candidate span s.checker with ⟨e | u, s₁⟩
    · have hfits := candidateFits_of_run lookup hr
      rw [hr] at h
      cases e with
      | fuel => exact .inl (Prod.mk.inj h).1.symm
      | diagnostic d =>
        obtain rfl := numericLiteralCandidateFits_state lookup fuel hr (by simp)
        rw [List.filter_cons_of_neg (by simp [hfits, Except.isOk, Except.toBool])]
        exact ih hselected h
    · have hfits := candidateFits_of_run lookup hr
      rw [hr] at h
      obtain rfl := numericLiteralCandidateFits_state lookup fuel hr (by simp)
      rw [List.filter_cons_of_pos hfits]
      cases selected with
      | some first =>
        obtain rfl : allowDefault = false := by simpa using hselected
        exact .inr ⟨error, (Prod.mk.inj h).1.symm⟩
      | none =>
        cases allowDefault with
        | true =>
          refine .inr ⟨error, (Prod.mk.inj h).1.symm.trans ?_⟩
          cases rest.filter (candidateFits lookup fuel id span s.checker) <;> rfl
        | false => exact ih (.inr rfl) h

/-- A literal that cannot be settled stops the loop in the state in which none of its candidates fits. -/
theorem resolveEach_refuses {fuel : ℕ} {allowDefault : Bool} {literals : List (ℕ × NumericLiteralFact)} {s s' : Checker}
    {d : Diagnostic} (hs : s.Scoped)
    (h : resolveEach lookup fuel allowDefault literals s = (.error (.diagnostic d), s')) :
    ∃ p ∈ literals, ∀ candidate ∈ numericLiteralCandidates p.2.kind,
      candidateFits lookup fuel p.1 p.2.span s' candidate = false := by
  induction literals generalizing s with
  | nil => simp [resolveEach, Attempt.pure_run] at h
  | cons p rest ih =>
    obtain ⟨id, literal⟩ := p
    have hrest : ∀ {s}, s.Scoped → resolveEach lookup fuel allowDefault rest s = (.error (.diagnostic d), s') →
        ∃ p ∈ (id, literal) :: rest, ∀ candidate ∈ numericLiteralCandidates p.2.kind,
          candidateFits lookup fuel p.1 p.2.span s' candidate = false := by
      intro s hs h
      obtain ⟨p, hp, hnone⟩ := ih hs h
      exact ⟨p, List.mem_cons_of_mem _ hp, hnone⟩
    rw [resolveEach, Attempt.bind_run_ok (Attempt.get_run s)] at h
    split at h
    · exact hrest (keepsScope_removeNumericLiteral id s hs) h
    · rcases hr : chooseCandidate lookup fuel id literal.span allowDefault (numericLiteralCandidates literal.kind) none
        none s with ⟨result, s₁⟩
      rcases chooseCandidate_settles (s := ⟨s, hs⟩) lookup _ (.inl rfl) hr with rfl | ⟨error, rfl⟩
      · rw [Attempt.bind_run_error hr] at h
        simp at h
      · rw [Attempt.bind_run_ok hr] at h
        obtain rfl := (chooseCandidate_state (s := ⟨s, hs⟩) lookup fuel _ hr).symm
        generalize hfitting : (none : Option NumericLiteralCandidate).toList ++ (numericLiteralCandidates
          literal.kind).filter (candidateFits lookup fuel id literal.span s) = fitting at h
        -- a candidate that fits is accepted again, from the state that its probe left
        have hselected : ∀ candidate ∈ fitting, (do
            constrainNumericLiteralCandidate lookup fuel id candidate literal.span
            Attempt.modify fun s => { s with boundInsertions := [] }
            removeNumericLiteral id
            resolveEach lookup fuel allowDefault rest : Solve Unit) s = (.error (.diagnostic d), s') →
            ∃ s, s.Scoped ∧ resolveEach lookup fuel allowDefault rest s = (.error (.diagnostic d), s') := by
          intro candidate hmem h
          rw [← hfitting, Option.toList_none, List.nil_append, List.mem_filter] at hmem
          have hframed := framed_constrainNumericLiteralCandidate lookup fuel id candidate literal.span s
          have hfits := hmem.2
          unfold candidateFits at hfits
          rcases hrun : constrainNumericLiteralCandidate lookup fuel id candidate literal.span s with ⟨e | u, s₁⟩
          · simp [hrun, Except.isOk, Except.toBool] at hfits
          · rw [hrun] at hframed
            rw [Attempt.bind_run_ok hrun] at h
            exact ⟨_, keepsScope_removeNumericLiteral id _ (keepsScope_clearJournal _ (hframed.inScope hs)), h⟩
        rcases fitting with _ | ⟨candidate, _ | ⟨other, more⟩⟩
        · cases error with
          | none => simp [settleCandidates, Attempt.stop_run] at h
          | some d' =>
            obtain ⟨-, rfl⟩ := Prod.mk.inj h
            refine ⟨_, List.mem_cons_self, fun candidate hcandidate => ?_⟩
            simpa using List.filter_eq_nil_iff.1 hfitting candidate hcandidate
        · obtain ⟨s₂, hs₂, h₂⟩ := hselected candidate (by simp) h
          exact hrest hs₂ h₂
        · cases allowDefault with
          | true =>
            obtain ⟨s₂, hs₂, h₂⟩ := hselected candidate (by simp) h
            exact hrest hs₂ h₂
          | false => exact hrest hs h

/-- **A literal takes the candidate that fits**: in every state that a client reaches, the choice leaves the state as it
was; it selects the one candidate that the literal's variable can be bounded by, or the first of them as the default. -/
theorem literal_choice_exact {fuel id : ℕ} {span : Span} {allowDefault : Bool} {s s' : Checker}
    {candidates : List NumericLiteralCandidate} {choice : CandidateChoice}
    (hs : Relation.ReflTransGen (Checker.Step lookup) Checker.empty s)
    (h : chooseCandidate lookup fuel id span allowDefault candidates none none s = (.ok choice, s')) :
    s' = s ∧ ∃ error, choice =
      settleCandidates allowDefault error (candidates.filter (candidateFits lookup fuel id span s)) := by
  have hscoped := Checker.inScope_of_steps lookup hs
  refine ⟨chooseCandidate_state (s := ⟨s, hscoped⟩) lookup fuel _ h, ?_⟩
  rcases chooseCandidate_settles (s := ⟨s, hscoped⟩) lookup _ (.inl rfl) h with he | ⟨error, he⟩
  · cases he
  · exact ⟨error, Except.ok.inj he⟩

/-- The solver with the literal `5`. -/
def five : Checker := (freshNumericLiteral ⟨.integer 5, "main", 0, ⟨0, 0⟩⟩ Checker.empty).2

theorem literal_choice_exact_five :
    (chooseCandidate .none 9 0 ⟨0, 0⟩ true (numericLiteralCandidates (.integer 5)) none none five).2 = five :=
  (literal_choice_exact .none (.single (.numericLiteral _ _)) (Prod.ext
    (show _ = Except.ok (.selected ⟨.range .int (some (.int 5)) (some (.int 5)), intType, intType⟩) by decide) rfl)).1

end Reachable

end Blot.Typecheck
