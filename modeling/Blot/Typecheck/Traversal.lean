import Mathlib.Algebra.Order.BigOperators.Group.List
import Mathlib.Algebra.Order.Group.Nat
import Blot.Typecheck.Derivations

/-!
# Traversals of types that always finish

`mapChildren` threads a memo through the children of a type.  Where the traversal of every child finishes, keeps an
invariant of memo and state and lets them develop along a relation, so does the traversal of the type.
-/

namespace Blot.Typecheck

open Blot.Support Checker

variable {κ : Type}

/-- A relation along which the memo and the state of a traversal develop. -/
structure Progressing (Adv : κ × Checker → κ × Checker → Prop) : Prop where
  refl : ∀ p, Adv p p
  trans : ∀ {p p' p''}, Adv p p' → Adv p' p'' → Adv p p''

/-- The computation finishes from this point, keeping `I`, at a later point where its result is as `Q` says. -/
def Finishes {A : Type} (Adv : κ × Checker → κ × Checker → Prop) (I : κ × Checker → Prop)
    (m : κ → Solve (A × κ)) (p : κ × Checker) (Q : κ × Checker → A → Prop) : Prop :=
  ∃ a p', m p.1 p.2 = (.ok (a, p'.1), p'.2) ∧ I p' ∧ Adv p p' ∧ Q p' a

section Finishes

variable {Adv : κ × Checker → κ × Checker → Prop} {I : κ × Checker → Prop} {f : Ty → κ → Solve (Ty × κ)}
  {R : κ × Checker → Ty → Ty → Prop} {p : κ × Checker}

theorem mapParts_finishes (hA : Progressing Adv) {g : Bool → Ty → κ → Solve (Ty × κ)}
    {R : κ × Checker → Bool → Ty → Ty → Prop}
    (stable : ∀ {b p p' a a'}, Adv p p' → R p b a a' → R p' b a a') {ps : List (Bool × Ty)}
    (hg : ∀ b c, (b, c) ∈ ps → ∀ p, I p → Finishes Adv I (g b c) p fun p' => R p' b c) (hI : I p) :
    Finishes Adv I (mapParts g ps) p fun p' => List.Forall₂ (fun q c => R p' q.1 q.2 c) ps := by
  induction ps generalizing p with
  | nil => exact ⟨[], p, rfl, hI, hA.refl p, .nil⟩
  | cons q ps ih =>
    obtain ⟨u, p₁, hrun, hI₁, hadv, hR⟩ := hg q.1 q.2 List.mem_cons_self p hI
    obtain ⟨us, p₂, hruns, hI₂, hadv', hRs⟩ := ih (fun b c hc => hg b c (List.mem_cons_of_mem _ hc)) hI₁
    refine ⟨u :: us, p₂, ?_, hI₂, hA.trans hadv hadv', .cons (stable hadv' hR) hRs⟩
    rw [mapParts]
    refine (Attempt.bind_run_ok hrun).trans ?_
    exact (Attempt.bind_run_ok hruns).trans rfl

theorem mapTypes_finishes (hA : Progressing Adv) (stable : ∀ {p p' a b}, Adv p p' → R p a b → R p' a b) {ts : List Ty}
    (hf : ∀ t ∈ ts, ∀ p, I p → Finishes Adv I (f t) p fun p' => R p' t) (hI : I p) :
    Finishes Adv I (mapTypes f ts) p fun p' => List.Forall₂ (R p') ts := by
  have hparts : ∀ b c, (b, c) ∈ ts.map (false, ·) → ∀ p, I p → Finishes Adv I (f c) p fun p' => R p' c :=
    fun b c hc => hf c (by simp_all)
  obtain ⟨us, p', hrun, hI', hadv, hRs⟩ := mapParts_finishes (g := fun _ => f) (R := fun p _ => R p) hA stable hparts hI
  exact ⟨us, p', (mapTypes_eq (f := fun _ => f) ts p.1).symm ▸ hrun, hI', hadv, by simpa using hRs⟩

/-- **A type is rebuilt** when its children are. -/
theorem mapChildren_finishes (hA : Progressing Adv) {g : Bool → Ty → κ → Solve (Ty × κ)}
    {R : κ × Checker → Bool → Ty → Ty → Prop}
    (stable : ∀ {b p p' a a'}, Adv p p' → R p b a a' → R p' b a a') {t : Ty}
    (hg : ∀ b c, (b, c) ∈ t.parts → ∀ p, I p → Finishes Adv I (g b c) p fun p' => R p' b c) (hI : I p) :
    Finishes Adv I (mapChildren g t) p fun p' => Mapped (R p') t := by
  obtain ⟨cs, p', hrun, hI', hadv, hRs⟩ := mapParts_finishes (R := R) hA stable hg hI
  refine ⟨t.withChildren cs, p', ?_, hI', hadv, .of_parts hRs⟩
  rw [mapChildren_eq]
  exact Attempt.bind_run_ok hrun

end Finishes


/-! ### Traversals with more fuel -/

section Refines

variable {f g : Ty → κ → Solve (Ty × κ)}

theorem refines_mapParts {f g : Bool → Ty → κ → Solve (Ty × κ)} (h : ∀ b t k, Attempt.Refines (f b t k) (g b t k))
    (ps : List (Bool × Ty)) (k : κ) : Attempt.Refines (mapParts f ps k) (mapParts g ps k) := by
  induction ps generalizing k with
  | nil => exact Attempt.refines_refl _
  | cons p ps ih =>
    exact Attempt.refines_bind (h p.1 p.2 k) fun _ => Attempt.refines_bind (ih _) fun _ => Attempt.refines_refl _

theorem refines_mapTypes (h : ∀ t k, Attempt.Refines (f t k) (g t k)) (ts : List Ty) (k : κ) :
    Attempt.Refines (mapTypes f ts k) (mapTypes g ts k) := by
  rw [mapTypes_eq (f := fun _ => f), mapTypes_eq (f := fun _ => g)]
  exact refines_mapParts (fun _ => h) _ k

theorem refines_mapChildren {f g : Bool → Ty → κ → Solve (Ty × κ)} (h : ∀ b t k, Attempt.Refines (f b t k) (g b t k))
    (t : Ty) (k : κ) : Attempt.Refines (mapChildren f t k) (mapChildren g t k) := by
  rw [mapChildren_eq, mapChildren_eq]
  exact Attempt.refines_bind (refines_mapParts h _ k) fun _ => Attempt.refines_refl _

end Refines

theorem Checker.exists_size (s : Checker) : ∃ size, ∀ x d, ∀ b ∈ s.bounds x d, sizeOf b ≤ size := by
  refine ⟨((s.arena.flatMap fun v => v.lower ++ v.upper).map sizeOf).sum, fun x d b hb => ?_⟩
  have hx : s.variableOf x ∈ s.arena := by
    unfold variableOf
    rw [List.getD_eq_getElem _ _ (lt_of_mem_bounds hb)]
    exact List.getElem_mem _
  have hmem : b ∈ s.arena.flatMap fun v => v.lower ++ v.upper := by
    refine List.mem_flatMap.2 ⟨_, hx, ?_⟩
    cases d with
    | lower => exact List.mem_append_left _ hb
    | upper => exact List.mem_append_right _ hb
  exact List.single_le_sum (fun _ _ => Nat.zero_le _) _ (List.mem_map_of_mem hmem)

end Blot.Typecheck
