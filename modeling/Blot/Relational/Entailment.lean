import Blot.Relational.Proof

/-!
# Entailment (`relational_proof.rs`, `relational_inference.rs`)

Whether constraints entail others is read off the shortest paths between their nodes, and whether they can be satisfied
off a search for a negative cycle.
-/

namespace Blot.Relational

open Support

/-- The nodes of some constraints and `Zero`, once each. -/
def countedNodes (constraints : Constraints) : List Node :=
  ((constraints.flatMap fun c => [c.left, c.right]) ++ [Node.zero]).dedup

def shortestPathsFrom (source : Node) (constraints : Constraints) (nodeCount : ℕ) : Difference.Distances Node :=
  Difference.shortestPathsFrom source constraints nodeCount

/-- `entails`; the paths from one node are kept in the source and searched again here -/
def entails (required constraints : Constraints) : Bool :=
  required.all fun r =>
    (shortestPathsFrom r.right constraints (countedNodes constraints).length r.left).any (· ≤ r.bound)

/-- `inconsistent` of `relational_inference.rs` -/
def inconsistent (constraints : Constraints) : Bool := Difference.inconsistent constraints

def Entails (constraints required : Constraints) : Prop := ∀ ν, Satisfies ν constraints → Satisfies ν required

section Entailment

variable {constraints required : Constraints} {ν : Valuation}

theorem mem_countedNodes {c : Constraint} (h : c ∈ constraints) :
    c.left ∈ countedNodes constraints ∧ c.right ∈ countedNodes constraints := by
  constructor <;> exact List.mem_dedup.2 (List.mem_append_left _ (List.mem_flatMap.2 ⟨c, h, by simp⟩))

theorem countedNodes_ne_nil : countedNodes constraints ≠ [] :=
  List.ne_nil_of_mem (List.mem_dedup.2 (List.mem_append_right _ List.mem_cons_self))

/-- The valuation of the identities that a valuation of the nodes is, with `Zero` at zero. -/
def fromZero (ν : Node → ℤ) : Valuation := fun identity => ν (.ident identity) - ν .zero

theorem eval_fromZero (ν : Node → ℤ) (node : Node) : node.eval (fromZero ν) = ν node - ν .zero := by
  cases node with
  | zero => exact (sub_self _).symm
  | ident identity => rfl

theorem satisfies_fromZero {ν : Node → ℤ} :
    Satisfies (fromZero ν) constraints ↔ ∀ c ∈ constraints, Difference.Holds ν c := by
  refine forall_congr' fun c => imp_congr_right fun _ => ?_
  unfold Difference.Holds
  rw [eval_fromZero, eval_fromZero]
  constructor <;> intro h <;> omega

/-- A path bounds the difference of its ends. -/
theorem le_of_shortestPathsFrom {source node : Node} {count : ℕ} {distance : ℤ} (h : Satisfies ν constraints)
    (hd : shortestPathsFrom source constraints count node = some distance) :
    node.eval ν - source.eval ν ≤ distance := Difference.le_of_shortestPathsFrom h hd

theorem entails_sound (h : entails required constraints = true) : Entails constraints required := by
  intro ν hν r hr
  have hr := List.all_eq_true.1 h r hr
  obtain ⟨distance, hd, hle⟩ := (Option.any_eq_true _ _).1 hr
  exact (le_of_shortestPathsFrom hν hd).trans (of_decide_eq_true hle)

theorem entails_complete (hν : Satisfies ν constraints) (h : Entails constraints required) :
    entails required constraints = true := by
  refine List.all_eq_true.2 fun r hr => ?_
  by_contra hfalse
  -- otherwise some valuation goes beyond the bound
  have hbound : ∀ x, shortestPathsFrom r.right constraints (countedNodes constraints).length r.left = some x →
      r.bound < x := by
    intro x hx
    by_contra hle
    exact hfalse ((Option.any_eq_true _ _).2 ⟨x, hx, decide_eq_true (not_lt.1 hle)⟩)
  have hsettled := Difference.shortestPathsFrom_settled r.right hν countedNodes_ne_nil
    fun c hc => mem_countedNodes hc
  obtain ⟨ν', hν', hlt⟩ := Difference.exists_farther hν hsettled hbound
  have hholds := h _ (satisfies_fromZero.2 hν') r hr
  unfold Difference.Holds at hholds
  rw [eval_fromZero, eval_fromZero] at hholds
  omega

/-- **For constraints that can be satisfied**, what is found is what is entailed. -/
theorem entails_iff (hν : Satisfies ν constraints) :
    entails required constraints = true ↔ Entails constraints required :=
  ⟨entails_sound, entails_complete hν⟩

theorem inconsistent_iff : inconsistent constraints = true ↔ ¬ ∃ ν, Satisfies ν constraints := by
  refine Difference.inconsistent_iff.trans (not_congr ⟨?_, ?_⟩)
  · rintro ⟨ν, hν⟩
    exact ⟨fromZero ν, satisfies_fromZero.2 hν⟩
  · rintro ⟨ν, hν⟩
    exact ⟨_, hν⟩

end Entailment

/-- **Shortest paths decide difference constraints**: what is found is entailed, what is entailed by constraints that
can be satisfied is found, and a negative cycle is found exactly when no valuation satisfies the constraints. -/
theorem entails_decides (constraints required : Constraints) :
    (entails required constraints = true → ∀ ν, Satisfies ν constraints → Satisfies ν required) ∧
      ((∃ ν, Satisfies ν constraints) → (∀ ν, Satisfies ν constraints → Satisfies ν required) →
        entails required constraints = true) ∧
      (inconsistent constraints = true ↔ ¬ ∃ ν, Satisfies ν constraints) :=
  ⟨entails_sound, fun ⟨_, hν⟩ h => entails_complete hν h, inconsistent_iff⟩

end Blot.Relational
