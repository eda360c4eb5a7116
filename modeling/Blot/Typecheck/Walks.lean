import Blot.Typecheck.Constrain

/-!
# The walks of a bound

`addBound` inserts one bound into the lists of one direction and changes nothing else: `Checker.Adds` says so.
-/

namespace Blot.Typecheck

open Blot.Support Checker

theorem containsConstraint_iff {bounds : List Ty} {t : Ty} :
    containsConstraint bounds t = true ↔ ∃ u ∈ bounds, Ty.same u t = true := by
  unfold containsConstraint
  rw [List.any_eq_true]

theorem Ty.asVar_eq_some {t : Ty} {v : ℕ} : t.asVar = some v ↔ t = .var v := by
  cases t <;> simp [Ty.asVar]

theorem mem_neighbours {bounds : List Ty} {v : ℕ} : v ∈ neighbours bounds ↔ .var v ∈ bounds := by
  unfold neighbours
  rw [List.mem_reverse, List.mem_filterMap]
  constructor
  · rintro ⟨t, ht, htv⟩
    exact Ty.asVar_eq_some.1 htv ▸ ht
  · exact fun h => ⟨.var v, h, rfl⟩

theorem mem_structural {bounds : List Ty} {t : Ty} : t ∈ structural bounds ↔ t ∈ bounds ∧ t.asVar = none := by
  unfold structural
  rw [List.mem_filter, Option.isNone_iff_eq_none]

theorem opposite_ne (d : BoundDirection) : d.opposite ≠ d := by cases d <;> simp [BoundDirection.opposite]

/-! ### What a walk changes -/

/-- `s'` has more bounds in direction `d` than `s`, all of them satisfying `P`, and is otherwise as `s`. -/
structure Checker.Adds (d : BoundDirection) (P : Ty → Prop) (s s' : Checker) : Prop where
  length : s'.arena.length = s.arena.length
  levels : ∀ v, s'.levelOfVar v = s.levelOfVar v
  opposite : ∀ v, s'.bounds v d.opposite = s.bounds v d.opposite
  added : ∀ v, ∃ added, s'.bounds v d = s.bounds v d ++ added ∧ ∀ t ∈ added, P t
  level : s'.level = s.level
  marks : s'.emptyArrayElements = s.emptyArrayElements
  entries : s'.memberConstraints.entries = s.memberConstraints.entries
  asleep : (∀ v, s.memberConstraints.watched v = ∅) → s'.memberConstraints = s.memberConstraints

namespace Checker

variable {d : BoundDirection} {P Q : Ty → Prop} {s s' s'' : Checker}

theorem Adds.refl (d : BoundDirection) (P : Ty → Prop) (s : Checker) : Adds d P s s :=
  ⟨rfl, fun _ => rfl, fun _ => rfl, fun _ => ⟨[], by simp, by simp⟩, rfl, rfl, rfl, fun _ => rfl⟩

theorem Adds.trans (h₁ : Adds d P s s') (h₂ : Adds d P s' s'') : Adds d P s s'' where
  length := h₂.length.trans h₁.length
  levels v := (h₂.levels v).trans (h₁.levels v)
  opposite v := (h₂.opposite v).trans (h₁.opposite v)
  added v := by
    obtain ⟨xs, hx, hxs⟩ := h₁.added v
    obtain ⟨ys, hy, hys⟩ := h₂.added v
    exact ⟨xs ++ ys, by rw [hy, hx, List.append_assoc], List.forall_mem_append.2 ⟨hxs, hys⟩⟩
  level := h₂.level.trans h₁.level
  marks := h₂.marks.trans h₁.marks
  entries := h₂.entries.trans h₁.entries
  asleep h := by
    have h' := h₁.asleep h
    rw [h₂.asleep (by rw [h']; exact h), h']

theorem Adds.mono (h : Adds d P s s') (hPQ : ∀ t, P t → Q t) : Adds d Q s s' :=
  { h with
    added := fun v => by
      obtain ⟨xs, hx, hxs⟩ := h.added v
      exact ⟨xs, hx, fun t ht => hPQ t (hxs t ht)⟩ }

theorem changed_asleep {m : MemberConstraints} (h : ∀ v, m.watched v = ∅) (id : ℕ) : m.changed id = m := by
  unfold MemberConstraints.changed
  rw [h id, Finset.union_empty]

theorem adds_insertBound (s : Checker) (id : ℕ) (d : BoundDirection) {t : Ty} (ht : P t) :
    Adds d P s (s.insertBound id d t) where
  length := length_insertBound s id d t
  levels := levelOfVar_insertBound s id d t
  opposite v := by rw [bounds_insertBound, if_neg fun h => opposite_ne d h.1.2]
  added v := by
    rw [bounds_insertBound]
    split
    · exact ⟨[t], rfl, by simpa using ht⟩
    · exact ⟨[], by simp, by simp⟩
  level := rfl
  marks := rfl
  entries := rfl
  asleep h := changed_asleep h id

theorem Adds.mem (h : Adds d P s s') {v : ℕ} {t : Ty} (ht : t ∈ s'.bounds v d) : t ∈ s.bounds v d ∨ P t := by
  obtain ⟨xs, hx, hxs⟩ := h.added v
  rw [hx] at ht
  exact (List.mem_append.1 ht).imp id (hxs t)

theorem Adds.subset (h : Adds d P s s') {v : ℕ} {e : BoundDirection} {t : Ty} (ht : t ∈ s.bounds v e) :
    t ∈ s'.bounds v e := by
  by_cases hd : e = d
  · obtain ⟨xs, hx, -⟩ := h.added v
    subst hd
    rw [hx]
    exact List.mem_append_left _ ht
  · have he : e = d.opposite := by cases e <;> cases d <;> simp_all [BoundDirection.opposite]
    subst he
    rw [h.opposite]
    exact ht

/-- The bounds of the other direction stay, and so does every bound of a kind that is not added. -/
theorem Adds.mem_iff (h : Adds d P s s') {v : ℕ} {e : BoundDirection} {t : Ty} (ht : ¬ P t) :
    t ∈ s'.bounds v e ↔ t ∈ s.bounds v e := by
  refine ⟨fun hm => ?_, h.subset⟩
  by_cases hd : e = d
  · subst hd
    exact (h.mem hm).resolve_right ht
  · have he : e = d.opposite := by cases e <;> cases d <;> simp_all [BoundDirection.opposite]
    subst he
    rwa [h.opposite] at hm

end Checker

theorem adds_addBound (d : BoundDirection) (bound : Ty) (span : Span) (fuel : ℕ) (pending : List ℕ)
    (visited : Finset ℕ) (work : List WorkItem) :
    Attempt.Moves (Checker.Adds d (· = bound)) (addBound d bound span fuel pending visited work) := by
  induction fuel generalizing pending visited work with
  | zero => exact Attempt.moves_stop (Adds.refl d _) _
  | succ fuel ih =>
    cases pending with
    | nil => exact Attempt.moves_pure (Adds.refl d _) _
    | cons id pending =>
      have hbind : ∀ {α β : Type} {m : Solve α} {f : α → Solve β}, Attempt.Moves (Checker.Adds d (· = bound)) m →
          (∀ a, Attempt.Moves (Checker.Adds d (· = bound)) (f a)) →
          Attempt.Moves (Checker.Adds d (· = bound)) (m >>= f) := fun hm hf =>
        @Attempt.moves_bind _ _ _ _ (Checker.Adds d (· = bound)) (fun _ _ _ => Adds.trans) _ _ hm hf
      refine Attempt.moves_ite (ih _ _ _) (hbind (Attempt.moves_get (Adds.refl d _)) fun s =>
        Attempt.moves_ite (ih _ _ _) ?_)
      exact hbind (fun s => adds_insertBound s id d rfl) fun _ => ih _ _ _

theorem adds_addEach (d : BoundDirection) (span : Span) (fuel id : ℕ) (bounds : List Ty) (work : List WorkItem) :
    Attempt.Moves (Checker.Adds d (· ∈ bounds))
      (addEach (fun bound => addBound d bound span fuel [id] ∅) bounds work) := by
  induction bounds generalizing work with
  | nil => exact Attempt.moves_pure (Adds.refl d _) _
  | cons bound rest ih =>
    refine @Attempt.moves_bind _ _ _ _ (Checker.Adds d (· ∈ bound :: rest)) (fun _ _ _ => Adds.trans) _ _ ?_
      fun work' =>
      ?_
    · exact fun s => (adds_addBound d bound span fuel [id] ∅ work s).mono fun t ht => ht ▸ List.mem_cons_self
    · exact fun s => (ih work' s).mono fun t ht => List.mem_cons_of_mem _ ht

/-! ### Linking two variables -/

/-- The edge `left ≤ right`, journalled at both ends. -/
def Checker.link (s : Checker) (left right : ℕ) : Checker :=
  (s.insertBound left .upper (.var right)).insertBound right .lower (.var left)

theorem containsConstraint_var {bounds : List Ty} {v : ℕ} :
    containsConstraint bounds (.var v) = true ↔ .var v ∈ bounds := by
  rw [containsConstraint_iff]
  constructor
  · rintro ⟨u, hu, hsame⟩
    exact Ty.same_var.1 hsame ▸ hu
  · exact fun h => ⟨_, h, Ty.same_refl _⟩

section Link

variable (s : Checker) {l r : ℕ}

theorem length_link : (s.link l r).arena.length = s.arena.length := by
  rw [Checker.link, length_insertBound, length_insertBound]

/-- A link adds the two ends of its edge and nothing else. -/
theorem mem_bounds_link {v : ℕ} {d : BoundDirection} {t : Ty} (h : t ∈ (s.link l r).bounds v d) :
    t ∈ s.bounds v d ∨ (v = l ∧ d = .upper ∧ t = .var r) ∨ (v = r ∧ d = .lower ∧ t = .var l) := by
  rcases mem_bounds_insertBound h with h | hr
  · exact (mem_bounds_insertBound h).imp id Or.inl
  · exact Or.inr (Or.inr hr)

theorem subset_bounds_link {v : ℕ} {d : BoundDirection} {t : Ty} (h : t ∈ s.bounds v d) :
    t ∈ (s.link l r).bounds v d := subset_bounds_insertBound (subset_bounds_insertBound h)

theorem mem_bounds_link_structural {v : ℕ} {d : BoundDirection} {t : Ty} (ht : t.asVar = none) :
    t ∈ (s.link l r).bounds v d ↔ t ∈ s.bounds v d := by
  refine ⟨fun h => ?_, subset_bounds_link s⟩
  rcases mem_bounds_link s h with h | ⟨-, -, rfl⟩ | ⟨-, -, rfl⟩
  · exact h
  · simp [Ty.asVar] at ht
  · simp [Ty.asVar] at ht

end Link

/-- What an item over two variables can do. -/
inductive VariablesStep (fuel : ℕ) (span : Span) (seen : Finset (ℕ × ℕ)) (work : List WorkItem) (s : Checker)
    (l r : ℕ) : Queue → Checker → Prop where
  | skipped (h : l = r ∨ (l, r) ∈ seen) : VariablesStep fuel span seen work s l r (seen, work) s
  | linked (h : Ty.var r ∈ s.bounds l .upper) : VariablesStep fuel span seen work s l r (insert (l, r) seen, work) s
  | link {work₁ work₂ : List WorkItem} {s₁ s₂ : Checker} (hne : l ≠ r) (hnew : Ty.var r ∉ s.bounds l .upper)
    (hlower : addEach (fun bound => addBound .lower bound span fuel [r] ∅)
      (structural ((s.link l r).bounds l .lower)) work (s.link l r) = (.ok work₁, s₁))
    (hupper : addEach (fun bound => addBound .upper bound span fuel [l] ∅)
      (structural ((s.link l r).bounds r .upper)) work₁ s₁ = (.ok work₂, s₂)) :
    VariablesStep fuel span seen work s l r (insert (l, r) seen, work₂) s₂

/-- **Inversion of an item over two variables.** -/
theorem constrainVariables_step {fuel l r : ℕ} {span : Span} {seen : Finset (ℕ × ℕ)} {work : List WorkItem}
    {s s' : Checker} {q : Queue} (h : constrainVariables fuel l r span seen work s = (.ok q, s')) :
    VariablesStep fuel span seen work s l r q s' := by
  unfold constrainVariables at h
  split at h
  · rename_i hskip
    obtain ⟨rfl, rfl⟩ := Attempt.pure_eq_ok.1 h
    exact .skipped hskip
  · rename_i hskip
    replace h := Attempt.get_bind_eq_ok.1 h
    simp only at h
    split at h
    · rename_i hold
      obtain ⟨rfl, rfl⟩ := Attempt.pure_eq_ok.1 h
      exact .linked (containsConstraint_var.1 hold)
    · rename_i hnew
      have hrun : (do
          let work ← addEach (fun bound => addBound .lower bound span fuel [r] ∅)
            (structural ((s.link l r).bounds l .lower)) work
          let work ← addEach (fun bound => addBound .upper bound span fuel [l] ∅)
            (structural ((s.link l r).bounds r .upper)) work
          return (insert (l, r) seen, work) : Solve Queue) (s.link l r) = (.ok q, s') := h
      obtain ⟨work₁, s₁, hlower, hrun⟩ := Attempt.bind_eq_ok.1 hrun
      obtain ⟨work₂, s₂, hupper, hrun⟩ := Attempt.bind_eq_ok.1 hrun
      obtain ⟨rfl, rfl⟩ := Attempt.pure_eq_ok.1 hrun
      exact .link (fun e => hskip (Or.inl e)) (fun hm => hnew (containsConstraint_var.2 hm)) hlower hupper

end Blot.Typecheck
