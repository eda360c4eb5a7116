import Mathlib.Tactic.Ring
import Blot.Support.Difference

/-!
# Terms and constraints (`relational_proof.rs`)

Affine terms over the identities of symbolic values, and the difference constraints between them.
-/

namespace Blot.Relational

open Support

abbrev Identity := ℕ

/-- `Term`: a literal, or an identity and an offset -/
inductive Term where
  | literal (value : ℤ)
  | ident (identity : Identity) (offset : ℤ)
  deriving DecidableEq

inductive Node where
  | zero
  | ident (identity : Identity)
  deriving DecidableEq

abbrev Constraint := Difference Node

/-- `Constraints`: the edges, in the order they were pushed -/
abbrev Constraints := List Constraint

/-- What the identities stand for. -/
abbrev Valuation := Identity → ℤ

def Node.eval (ν : Valuation) : Node → ℤ
  | .zero => 0
  | .ident identity => ν identity

def Term.eval (ν : Valuation) : Term → ℤ
  | .literal value => value
  | .ident identity offset => ν identity + offset

def Satisfies (ν : Valuation) (constraints : Constraints) : Prop := ∀ c ∈ constraints, Difference.Holds (Node.eval ν) c

def termNode : Term → Node × ℤ
  | .literal value => (.zero, value)
  | .ident identity offset => (.ident identity, offset)

def constraintsDifference (left right : Term) (delta : ℤ) : Constraints :=
  let (leftNode, leftOffset) := termNode left
  let (rightNode, rightOffset) := termNode right
  [⟨leftNode, rightNode, rightOffset - leftOffset + delta⟩]

def constraintsLessThan (left right : Term) : Constraints := constraintsDifference left right (-1)

def constraintsAtLeast (left right : Term) : Constraints := constraintsDifference right left 0

def constraintsEqual (left right : Term) : Constraints :=
  constraintsDifference left right 0 ++ constraintsDifference right left 0

/-! ### What they say -/

section Meaning

variable {ν : Valuation}

theorem eval_termNode (term : Term) : term.eval ν = (termNode term).1.eval ν + (termNode term).2 := by
  cases term with
  | literal value => exact (zero_add _).symm
  | ident identity offset => rfl

theorem satisfies_append {constraints more : Constraints} :
    Satisfies ν (constraints ++ more) ↔ Satisfies ν constraints ∧ Satisfies ν more := List.forall_mem_append

theorem satisfies_difference {left right : Term} {delta : ℤ} :
    Satisfies ν (constraintsDifference left right delta) ↔ left.eval ν - right.eval ν ≤ delta := by
  unfold Satisfies constraintsDifference Difference.Holds
  rw [List.forall_mem_singleton, eval_termNode left, eval_termNode right]
  constructor <;> intro h <;> dsimp only at h ⊢ <;> omega

theorem satisfies_equal {left right : Term} :
    Satisfies ν (constraintsEqual left right) ↔ left.eval ν = right.eval ν := by
  unfold constraintsEqual
  rw [satisfies_append, satisfies_difference, satisfies_difference]
  omega

end Meaning

end Blot.Relational
