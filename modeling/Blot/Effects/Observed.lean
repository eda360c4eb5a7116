import Blot.Effects.Denotation

/-!
# What a driven computation shows

A host that answers requests sees the same of a computation and of its tree.  The cells of a continuation are written
when it is captured and when it is called, so that it is never called a second time.

* `computations_denote` — driving a computation shows what its tree shows, and a continuation that was called is refused
  from then on.
-/

namespace Blot.Effects

open Blot.Support.Lockstep
open Blot.Eval (Value Perform Runtime)

variable {X K σ : Type} {code : Code X K σ}

/-! ### Driving -/

section Driving

variable {tree tree' : Tree X K} {w w' : TreeWorld X K σ} {responses : List (Value X)} {seen : List (Perform X)}
  {o : Observation X σ}

theorem comes_rewrites (h : Rewrites code tree w tree' w') :
    Comes (Tree.next code) ⟨tree, w, responses, seen⟩ ⟨tree', w', responses, seen⟩ := by
  refine Relation.ReflTransGen.lift (fun spot : Tree X K × TreeWorld X K σ => (⟨spot.1, spot.2, responses, seen⟩ :
    Driven X K σ)) ?_ _ _ h
  intro spot spot' hstep
  show Tree.next code _ = _
  simp only [Tree.next, show spot.1.step code spot.2 = .inl (spot'.1, spot'.2) from hstep]

theorem goes_advances (h : Advances code tree w tree' w') :
    Goes (Tree.next code) ⟨tree, w, responses, seen⟩ ⟨tree', w', responses, seen⟩ := by
  obtain ⟨tree₁, w₁, hstep, hrest⟩ := h
  have hfirst : Step (Tree.next code) ⟨tree, w, responses, seen⟩ ⟨tree₁, w₁, responses, seen⟩ := by
    show Tree.next code _ = _
    simp only [Tree.next, hstep]
  exact Relation.TransGen.head' hfirst (comes_rewrites hrest)

theorem settles_of_run {n : ℕ} (h : Blot.Support.Lockstep.run (Tree.next code) n ⟨tree, w, responses, seen⟩ = some o) :
    Settles code n tree w := by
  induction n generalizing tree w with
  | zero => cases h
  | succ n ih =>
    rcases hstep : tree.step code w with ⟨tree', w'⟩ | ⟨head, w'⟩
    · have hnext : Step (Tree.next code) ⟨tree, w, responses, seen⟩ ⟨tree', w', responses, seen⟩ := by
        show Tree.next code _ = _
        simp only [Tree.next, hstep]
      obtain ⟨head, hrun⟩ := ih ((run_step hnext n).symm.trans h)
      exact ⟨head, (run_step (step_rewrite hstep) n).trans hrun⟩
    · refine ⟨(head, w'), ?_⟩
      simp only [Blot.Support.Lockstep.run, Tree.rewrite, hstep]

theorem step_response (request : Perform X) (resume : Value X → Tree X K) (v : Value X) :
    Step (Tree.next code) ⟨.ask request resume, w, v :: responses, seen⟩
      ⟨resume v, w, responses, seen ++ [request]⟩ := rfl

end Driving

section Observe

variable {c : Computation X K} {w : World σ (Resumption X K)} {responses : List (Value X)} {seen : List (Perform X)}
  {o : Observation X σ}

theorem ends_of_observe {fuel turns : ℕ} (h : observe code fuel turns c w responses seen = some o) :
    Ends (Tree.next code) ⟨c.tree, w.read, responses, seen⟩ o := by
  induction turns generalizing c w responses seen with
  | zero => cases h
  | succ turns ih =>
    cases c with
    | done result =>
      obtain rfl := Option.some.inj h
      exact ends_now rfl
    | step pending =>
      obtain ⟨⟨c', w'⟩, hadvance, hrest⟩ := Option.bind_eq_some_iff.1 h
      exact (ends_goes (goes_advances (advances_step (sound_enter code fuel) hadvance))).2 (ih hrest)
    | perform request resume =>
      cases responses with
      | nil =>
        obtain rfl := Option.some.inj h
        exact ends_now rfl
      | cons v responses =>
        obtain ⟨⟨c', w'⟩, hadvance, hrest⟩ := Option.bind_eq_some_iff.1 h
        refine (ends_step (step_response request _ v)).2 ?_
        exact (ends_goes (goes_advances (advances_resume (sound_enter code fuel) hadvance))).2 (ih hrest)

theorem observe_of_run {n : ℕ}
    (h : Blot.Support.Lockstep.run (Tree.next code) n ⟨c.tree, w.read, responses, seen⟩ = some o) :
    ∃ k, ∀ fuel ≥ k, ∀ turns ≥ k, observe code fuel turns c w responses seen = some o := by
  -- on the length of the run: an advanced step makes it shorter
  induction n using Nat.strongRecOn generalizing c w responses seen with
  | ind n ih =>
    -- `advance` gives a computation that is driven on
    have hgo : ∀ {f : ℕ → Option (Reached X K σ)} {tree : Tree X K} {m : ℕ} {responses seen}, m ≤ n →
        Blot.Support.Lockstep.run (Tree.next code) m ⟨tree, w.read, responses, seen⟩ = some o →
        (∃ reached, Gives f reached) →
        (∀ fuel c' w', f fuel = some (c', w') → Advances code tree w.read c'.tree w'.read) →
        ∃ k, ∀ fuel ≥ k, ∀ turns ≥ k,
          (f fuel).bind (fun p => observe code fuel turns p.1 p.2 responses seen) = some o := by
      rintro f tree m responses seen hm hrun ⟨⟨c', w'⟩, hgives⟩ hadvances
      obtain ⟨fuel, hfuel⟩ := hgives.exists_eq
      obtain ⟨i, hi, hrun'⟩ := run_goes (goes_advances (hadvances fuel c' w' hfuel)) hrun
      obtain ⟨k, hk⟩ := ih i (by omega) hrun'
      obtain ⟨j, hj⟩ := hgives
      refine ⟨max j k, fun fuel hfuel turns hturns => ?_⟩
      rw [hj fuel (le_trans (le_max_left j k) hfuel), Option.bind_some]
      exact hk fuel (le_trans (le_max_right j k) hfuel) turns (le_trans (le_max_right j k) hturns)
    cases c with
    | done result =>
      have hnow : Ends (Tree.next code) ⟨(Computation.done result).tree, w.read, responses, seen⟩
          (seen, .finished result w.rest) := ends_now rfl
      refine ⟨1, fun fuel _ turns hturns => ?_⟩
      obtain ⟨turns, rfl⟩ := Nat.exists_eq_add_of_le' hturns
      exact congrArg some (ends_unique hnow ⟨n, h⟩)
    | step pending =>
      obtain ⟨k, hk⟩ := hgo le_rfl h (gives_step (total code n) (settles_of_run h))
        fun fuel c' w' hadvance => advances_step (sound_enter code fuel) hadvance
      refine ⟨k + 1, fun fuel hfuel turns hturns => ?_⟩
      obtain ⟨turns, rfl⟩ := Nat.exists_eq_add_of_le' (Nat.one_le_of_lt hturns)
      exact hk fuel (by omega) turns (by omega)
    | perform request resume =>
      cases responses with
      | nil =>
        have hnow : Ends (Tree.next code) ⟨(Computation.perform request resume).tree, w.read, [], seen⟩
            (seen ++ [request], .suspended w.rest) := ends_now rfl
        refine ⟨1, fun fuel _ turns hturns => ?_⟩
        obtain ⟨turns, rfl⟩ := Nat.exists_eq_add_of_le' hturns
        exact congrArg some (ends_unique hnow ⟨n, h⟩)
      | cons v responses =>
        obtain ⟨m, hm, hrun⟩ := run_goes (.single (step_response request _ v)) h
        obtain ⟨k, hk⟩ := hgo hm.le hrun (gives_resume (total code m) (settles_of_run hrun))
          fun fuel c' w' hadvance => advances_resume (sound_enter code fuel) hadvance
        refine ⟨k + 1, fun fuel hfuel turns hturns => ?_⟩
        obtain ⟨turns, rfl⟩ := Nat.exists_eq_add_of_le' (Nat.one_le_of_lt hturns)
        exact hk fuel (by omega) turns (by omega)

/-- **What is built and driven shows what its tree shows.** -/
theorem run_iff_ends (built : Built X K) :
    (∃ fuel, run code fuel built w responses = some o) ↔
      Ends (Tree.next code) ⟨built.tree, w.read, responses, []⟩ o := by
  constructor
  · rintro ⟨fuel, h⟩
    obtain ⟨⟨c, w'⟩, hbuild, hobserve⟩ := Option.bind_eq_some_iff.1 h
    exact ends_comes (comes_rewrites (sound_enter code fuel _ _ _ _ hbuild)) (ends_of_observe hobserve)
  · rintro ⟨n, h⟩
    obtain ⟨⟨c, w'⟩, hgives⟩ := total code (n + 1) n (Nat.lt_succ_self n) built w (settles_of_run h)
    obtain ⟨fuel, hfuel⟩ := hgives.exists_eq
    have hcomes : Comes (Tree.next code) ⟨built.tree, w.read, responses, []⟩ ⟨c.tree, w'.read, responses, []⟩ :=
      comes_rewrites (sound_enter code fuel _ _ _ _ hfuel)
    obtain ⟨m, hrun⟩ : Ends (Tree.next code) ⟨c.tree, w'.read, responses, []⟩ o := by
      rcases Relation.reflTransGen_iff_eq_or_transGen.1 hcomes with heq | hgoes
      · rw [heq]
        exact ⟨n, h⟩
      · exact (ends_goes hgoes).1 ⟨n, h⟩
    obtain ⟨k, hk⟩ := observe_of_run hrun
    obtain ⟨j, hj⟩ := hgives
    have hbuilt : enter code (max j k) built w = some (c, w') := hj _ (le_max_left j k)
    refine ⟨max j k, ?_⟩
    show (enter code (max j k) built w).bind (fun p => observe code (max j k) (max j k) p.1 p.2 responses []) = some o
    rw [hbuilt, Option.bind_some]
    exact hk _ (le_max_right j k) _ (le_max_right j k)

end Observe

/-! ### Continuations are one-shot -/

/-- The continuation was called. -/
def World.Spent {C : Type} (w : World σ C) (continuation : ℕ) : Prop :=
  ∃ cell, w.cells[continuation]? = some cell ∧ cell.used = true

def World.Keeps {C : Type} (w w' : World σ C) : Prop := ∀ continuation, w.Spent continuation → w'.Spent continuation

section Keeps

variable {C : Type} {w w' w'' : World σ C}

theorem World.Keeps.refl (w : World σ C) : w.Keeps w := fun _ h => h

theorem World.Keeps.trans (h : w.Keeps w') (h' : w'.Keeps w'') : w.Keeps w'' :=
  fun continuation hspent => h' continuation (h continuation hspent)

theorem keeps_rest (rest : σ) : w.Keeps { w with rest := rest } := fun _ h => h

theorem keeps_allocate (resume : C) : w.Keeps (w.allocate resume).2 := by
  rintro continuation ⟨cell, hcell, hused⟩
  refine ⟨cell, ?_, hused⟩
  show (w.cells ++ [⟨false, some resume⟩])[continuation]? = some cell
  rw [List.getElem?_append_left (List.getElem?_eq_some_iff.1 hcell).1, hcell]

theorem keeps_take (continuation : ℕ) : w.Keeps (w.take continuation).2 := by
  rintro i ⟨cell, hcell, hused⟩
  unfold World.take
  cases htaken : w.cells[continuation]? with
  | none => exact ⟨cell, hcell, hused⟩
  | some taken =>
    cases hfirst : taken.used with
    | true =>
      simp only [hfirst, if_true]
      exact ⟨cell, hcell, hused⟩
    | false =>
      have hne : continuation ≠ i := by
        rintro rfl
        obtain rfl := Option.some.inj (htaken.symm.trans hcell)
        rw [hused] at hfirst
        cases hfirst
      refine ⟨cell, ?_, hused⟩
      simp only [hfirst, Bool.false_eq_true, if_false]
      rw [List.getElem?_set_ne hne, hcell]

/-- A continuation that is called was called. -/
theorem spent_take {continuation : ℕ} (hcell : continuation < w.cells.length) :
    (w.take continuation).2.Spent continuation := by
  have htaken : w.cells[continuation]? = some w.cells[continuation] := List.getElem?_eq_getElem hcell
  cases hused : w.cells[continuation].used with
  | true =>
    simp only [World.take, htaken, hused, if_true]
    exact ⟨_, htaken, hused⟩
  | false =>
    simp only [World.take, htaken, hused, Bool.false_eq_true, if_false]
    exact ⟨⟨true, none⟩, List.getElem?_set_self hcell, rfl⟩

theorem take_of_spent {continuation : ℕ} (h : w.Spent continuation) : w.take continuation = (none, w) := by
  obtain ⟨cell, hcell, hused⟩ := h
  simp only [World.take, hcell, hused, if_true]

end Keeps

section Calls

variable {enter : Built X K → World σ (Resumption X K) → Option (Reached X K σ)} {w w' : World σ (Resumption X K)}
  {c c' : Computation X K}

/-- Calls keep what was called. -/
def Keeping (enter : Built X K → World σ (Resumption X K) → Option (Reached X K σ)) : Prop :=
  ∀ built w c w', enter built w = some (c, w') → w.Keeps w'

theorem keeps_enterWith (hkeeping : Keeping enter) {run : σ → Built X K × σ}
    (h : enterWith enter run w = some (c, w')) : w.Keeps w' :=
  (keeps_rest (run w.rest).2).trans (hkeeping _ _ _ _ h)

theorem keeps_drive (hkeeping : Keeping enter) {handler : Handler X}
    (h : c.drive code enter handler w = some (c', w')) : w.Keeps w' := by
  rcases c with (e | v) | pending | ⟨request, resume⟩
  · obtain ⟨rfl, rfl⟩ := Prod.mk.inj (Option.some.inj h)
    exact .refl w
  · simp only [Computation.drive] at h
    cases hreturns : handler.returns code v with
    | none =>
      rw [hreturns] at h
      obtain ⟨rfl, rfl⟩ := Prod.mk.inj (Option.some.inj h)
      exact .refl w
    | some call =>
      rw [hreturns] at h
      exact hkeeping _ _ _ _ h
  · obtain ⟨rfl, rfl⟩ := Prod.mk.inj (Option.some.inj h)
    exact .refl w
  · simp only [Computation.drive] at h
    cases hclause : handler.clause request with
    | none =>
      rw [hclause] at h
      obtain ⟨rfl, rfl⟩ := Prod.mk.inj (Option.some.inj h)
      exact .refl w
    | some function =>
      rw [hclause] at h
      exact (keeps_allocate _).trans (hkeeping _ _ _ _ h)

theorem keeps_callback (hkeeping : Keeping enter) {callback : Callback X K}
    (h : callback.call code enter w = some (c, w')) : w.Keeps w' := by
  induction callback generalizing w c w' with
  | code next | value next v | result next r => exact keeps_enterWith hkeeping h
  | drive next continuations handler ih =>
    obtain ⟨⟨c₁, w₁⟩, hnext, hdrive⟩ := Option.bind_eq_some_iff.1 h
    exact (ih hnext).trans (keeps_drive hkeeping hdrive)

theorem keeps_resumption (hkeeping : Keeping enter) {resumption : Resumption X K} {v : Value X}
    (h : resumption.call code enter v w = some (c, w')) : w.Keeps w' := by
  induction resumption generalizing w c w' with
  | code next => exact keeps_enterWith hkeeping h
  | drive next continuations handler ih =>
    obtain ⟨⟨c₁, w₁⟩, hnext, hdrive⟩ := Option.bind_eq_some_iff.1 h
    exact (ih hnext).trans (keeps_drive hkeeping hdrive)

theorem keeps_step (hkeeping : Keeping enter) {pending : ComputationStep X K}
    (h : pending.advance code enter w = some (c, w')) : w.Keeps w' := by
  obtain ⟨⟨c₁, w₁⟩, hnext, hattach⟩ := Option.bind_eq_some_iff.1 h
  obtain ⟨rfl, rfl⟩ := Prod.mk.inj (Option.some.inj hattach)
  exact keeps_callback hkeeping hnext

theorem keeps_resume (hkeeping : Keeping enter) {resume : ComputationResume X K} {v : Value X}
    (h : resume.advance code enter v w = some (c, w')) : w.Keeps w' := by
  obtain ⟨⟨c₁, w₁⟩, hnext, hattach⟩ := Option.bind_eq_some_iff.1 h
  obtain ⟨rfl, rfl⟩ := Prod.mk.inj (Option.some.inj hattach)
  exact keeps_resumption hkeeping hnext

/-- The call of a continuation keeps what its cells say once it is taken. -/
theorem keeps_continuation (hkeeping : Keeping enter) {call : Application X} {continuation : ℕ}
    (hcall : call.function = .continuation continuation) (h : call.apply code enter w = some (c, w')) :
    (w.take continuation).2.Keeps w' := by
  rw [apply_continuation hcall] at h
  rcases htake : w.take continuation with ⟨_ | resume, w₁⟩
  · rw [htake] at h
    obtain ⟨rfl, rfl⟩ := Prod.mk.inj (Option.some.inj h)
    exact .refl w₁
  · rw [htake] at h
    exact keeps_resumption hkeeping h

theorem keeps_apply (hkeeping : Keeping enter) {call : Application X}
    (h : call.apply code enter w = some (c, w')) : w.Keeps w' := by
  rcases apply_cases code call with ⟨continuation, hcall⟩ | ⟨happly, -⟩
  · exact (keeps_take continuation).trans (keeps_continuation hkeeping hcall h)
  · rw [happly] at h
    exact keeps_enterWith hkeeping h

theorem keeps_build (hkeeping : Keeping enter) {built : Built X K} (h : built.build code enter w = some (c, w')) :
    w.Keeps w' := by
  induction built generalizing w c w' with
  | value v | error e | step next | perform request resume =>
    obtain ⟨rfl, rfl⟩ := Prod.mk.inj (Option.some.inj h)
    exact .refl w
  | apply call => exact keeps_apply hkeeping h
  | andThen computation next ih | mapResult computation next ih | «at» computation next ih
    | attach computation next ih =>
    obtain ⟨⟨c₁, w₁⟩, hbuild, hpush⟩ := Option.bind_eq_some_iff.1 h
    obtain ⟨rfl, rfl⟩ := Prod.mk.inj (Option.some.inj hpush)
    exact ih hbuild
  | advance computation ih =>
    obtain ⟨⟨c₁, w₁⟩, hbuild, hadvance⟩ := Option.bind_eq_some_iff.1 h
    refine (ih hbuild).trans ?_
    cases c₁ with
    | step pending => exact keeps_step hkeeping hadvance
    | done result | perform request resume =>
      obtain ⟨rfl, rfl⟩ := Prod.mk.inj (Option.some.inj hadvance)
      exact .refl w₁
  | drive computation handler ih =>
    obtain ⟨⟨c₁, w₁⟩, hbuild, hdrive⟩ := Option.bind_eq_some_iff.1 h
    exact (ih hbuild).trans (keeps_drive hkeeping hdrive)

end Calls

theorem keeping_enter (code : Code X K σ) (fuel : ℕ) : Keeping (enter code fuel) := by
  induction fuel with
  | zero => exact fun _ _ _ _ h => by cases h
  | succ fuel ih => exact fun _ _ _ _ h => keeps_build ih h

/-- What happens to a world: something is built, a step or a request is advanced, or a computation is driven. -/
inductive Happens (code : Code X K σ) : World σ (Resumption X K) → World σ (Resumption X K) → Prop where
  | built {fuel : ℕ} {built : Built X K} {w w' : World σ (Resumption X K)} {c : Computation X K}
    (h : enter code fuel built w = some (c, w')) : Happens code w w'
  | advanced {fuel : ℕ} {pending : ComputationStep X K} {w w' : World σ (Resumption X K)} {c : Computation X K}
    (h : pending.advance code (enter code fuel) w = some (c, w')) : Happens code w w'
  | resumed {fuel : ℕ} {resume : ComputationResume X K} {v : Value X} {w w' : World σ (Resumption X K)}
    {c : Computation X K} (h : resume.advance code (enter code fuel) v w = some (c, w')) : Happens code w w'
  | driven {fuel : ℕ} {computation : Computation X K} {handler : Handler X} {w w' : World σ (Resumption X K)}
    {c : Computation X K} (h : computation.drive code (enter code fuel) handler w = some (c, w')) : Happens code w w'

def Later (code : Code X K σ) : World σ (Resumption X K) → World σ (Resumption X K) → Prop :=
  Relation.ReflTransGen (Happens code)

theorem Happens.keeps {w w' : World σ (Resumption X K)} (h : Happens code w w') : w.Keeps w' := by
  cases h with
  | built h => exact keeping_enter code _ _ _ _ _ h
  | advanced h => exact keeps_step (keeping_enter code _) h
  | resumed h => exact keeps_resume (keeping_enter code _) h
  | driven h => exact keeps_drive (keeping_enter code _) h

theorem Later.keeps {w w' : World σ (Resumption X K)} (h : Later code w w') : w.Keeps w' := by
  induction h with
  | refl => exact .refl w
  | tail _ h ih => exact ih.trans h.keeps

/-- **A continuation that was called is refused from then on.** -/
theorem refused_again {call again : Application X} {continuation fuel : ℕ} {w w₁ w₂ : World σ (Resumption X K)}
    {c : Computation X K} (hcell : continuation < w.cells.length) (hcall : call.function = .continuation continuation)
    (h : enter code fuel (.apply call) w = some (c, w₁)) (hlater : Later code w₁ w₂)
    (hagain : again.function = .continuation continuation) (fuel' : ℕ) :
    enter code (fuel' + 1) (.apply again) w₂ = some (.done (.error (resumedTwice again.span)), w₂) := by
  cases fuel with
  | zero => cases h
  | succ fuel =>
    have hspent : w₁.Spent continuation :=
      keeps_continuation (keeping_enter code fuel) hcall h continuation (spent_take hcell)
    show again.apply code (enter code fuel') w₂ = _
    rw [apply_continuation hagain, take_of_spent (hlater.keeps continuation hspent)]

/-- **Computations denote effect trees, and handlers are deep and one-shot.** -/
theorem computations_denote (code : Code X K σ) :
    (∀ built w responses o, (∃ fuel, run code fuel built w responses = some o) ↔
      Ends (Tree.next code) ⟨built.tree, w.read, responses, []⟩ o) ∧
    ∀ (call again : Application X) continuation w w₁ w₂ fuel c, continuation < w.cells.length →
      call.function = .continuation continuation → enter code fuel (.apply call) w = some (c, w₁) →
      Later code w₁ w₂ → again.function = .continuation continuation →
      ∀ fuel', enter code (fuel' + 1) (.apply again) w₂ = some (.done (.error (resumedTwice again.span)), w₂) :=
  ⟨fun built _ _ _ => run_iff_ends built,
    fun _ _ _ _ _ _ _ _ hcell hcall h hlater hagain => refused_again hcell hcall h hlater hagain⟩

/-- Closures that resume the continuation of their number, and a clause that resumes its continuation, then again. -/
def resumes : Code Unit ℕ Unit where
  callback _ s := (.value .unit, s)
  onValue next v s :=
    match next with
    | 0 => (.value v, s)
    | continuation + 1 => (.apply ⟨.continuation continuation, v, ⟨0, 0⟩, onlyRuntime, ()⟩, s)
  onResult _ _ s := (.value .unit, s)
  apply call s :=
    match call.argument with
    | .shape [(_, argument), (_, .continuation continuation)] =>
      (.andThen (.apply ⟨.continuation continuation, argument, ⟨0, 0⟩, onlyRuntime, ()⟩) (continuation + 1), s)
    | argument => (.value argument, s)
  compiler _ _ := ()
where
  onlyRuntime : Runtime Unit := ⟨.comptime, 0, "", 0, none, (), (), (), none, (), none⟩

/-- A request of the effect `1` under a handler with a clause for it. -/
def handledRequest : Built Unit ℕ :=
  .drive (.perform ⟨1, "Ask", "ask", .int 7, none, .unit, (), ⟨0, 0⟩, false, (), resumes.onlyRuntime⟩ 0)
    ⟨1, [("ask", .text "clause")], ⟨0, 0⟩, resumes.onlyRuntime, ()⟩

/-- The call of a continuation, from a place in the source. -/
def resuming (continuation : ℕ) (span : Span) : Application Unit :=
  ⟨.continuation continuation, .int 7, span, resumes.onlyRuntime, ()⟩

/-- A clause that resumes twice fails; so does the second call of the first of two continuations, after the other one
was called in between. -/
theorem computations_denote_resumedTwice :
    Ends (Tree.next resumes) ⟨handledRequest.tree, ⟨(), []⟩, [], []⟩
      ([], .finished (.error (resumedTwice ⟨0, 0⟩)) ()) ∧
    ∃ c c' w w', enter resumes 2 (.apply (resuming 0 ⟨0, 4⟩)) ⟨(), List.replicate 2 ⟨false, some (.code 0)⟩⟩ =
        some (c, w) ∧ enter resumes 2 (.apply (resuming 1 ⟨4, 8⟩)) w = some (c', w') ∧
      enter resumes 1 (.apply (resuming 0 ⟨8, 12⟩)) w' = some (.done (.error (resumedTwice ⟨8, 12⟩)), w') := by
  obtain ⟨hruns, hrefused⟩ := computations_denote resumes
  refine ⟨(hruns handledRequest ⟨(), []⟩ [] _).1 ⟨6, rfl⟩, ?_⟩
  have hfirst : enter resumes 2 (.apply (resuming 0 ⟨0, 4⟩)) ⟨(), List.replicate 2 ⟨false, some (.code 0)⟩⟩ =
      some (.done (.ok (.int 7)), ⟨(), [⟨true, none⟩, ⟨false, some (.code 0)⟩]⟩) := rfl
  have hother : enter resumes 2 (.apply (resuming 1 ⟨4, 8⟩)) ⟨(), [⟨true, none⟩, ⟨false, some (.code 0)⟩]⟩ =
      some (.done (.ok (.int 7)), ⟨(), [⟨true, none⟩, ⟨true, none⟩]⟩) := rfl
  exact ⟨_, _, _, _, hfirst, hother, hrefused _ _ 0 _ _ _ 2 _ (by decide) rfl hfirst (.single (.built hother)) rfl 0⟩

end Blot.Effects
