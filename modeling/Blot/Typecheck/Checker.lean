import Blot.Ast
import Mathlib.Data.Finset.Union
import Mathlib.Data.Finset.Max
import Mathlib.Data.List.GetD
import Blot.Support.Attempt
import Blot.Typecheck.Ty

/-!
# The state of the constraint solver (`typecheck.rs`, `member_constraints.rs`)

`Checker` holds what constraint solving reads and writes: the variable arena with its bound lists, the undo journal,
the attached-member obligations, the numeric-literal facts, the empty-array markers and the two identity supplies.
The caches of the source (`settled_variables`, `residual_*`, `member_reachability`, the `rewritten` memo of
`freshen_constraint`) hold nothing that is not recomputed from these, and its telemetry counters decide nothing;
both are left out.
-/

namespace Blot.Typecheck

open Blot.Support

/-- `Diagnostic`, with the types its text is rendered from in place of the text. -/
structure Diagnostic where
  code : String
  about : List Ty
  span : Span
  deriving DecidableEq

/-- Why a computation of the model stops: the solver's diagnostic, or the model ran out of fuel. -/
inductive Stop where
  | diagnostic (d : Diagnostic)
  | fuel
  deriving DecidableEq

/-- `Variable`: the level it was created at and its bounds, in order of insertion. -/
structure Variable where
  level : ℕ
  lower : List Ty
  upper : List Ty
  deriving DecidableEq, Inhabited

inductive BoundDirection where
  | lower | upper
  deriving DecidableEq

def BoundDirection.opposite : BoundDirection → BoundDirection
  | .lower => .upper
  | .upper => .lower

/-- `BoundInsertion`: one entry of the undo journal. -/
structure BoundInsertion where
  variableId : ℕ
  direction : BoundDirection
  deriving DecidableEq

structure PendingMember where
  requirement : MemberRequirement Ty
  discharged : Bool
  deriving DecidableEq

/-- `MemberConstraints`: the obligations, their identities, the variables that can wake them, and the woken ones. -/
structure MemberConstraints where
  entries : List PendingMember
  identities : List (MemberRequirement Ty)
  watched : ℕ → Finset ℕ
  queued : Finset ℕ

inductive NumericLiteralKind where
  | integer (value : ℤ)
  | float
  deriving DecidableEq

structure NumericLiteralFact where
  kind : NumericLiteralKind
  path : String
  expression : ℕ
  span : Span
  deriving DecidableEq

structure WorkItem where
  left : Ty
  right : Ty
  span : Span
  deriving DecidableEq

/-- The solver's part of `Checker`.  The journal is kept newest first. -/
structure Checker where
  arena : List Variable
  level : ℕ
  boundInsertions : List BoundInsertion
  memberConstraints : MemberConstraints
  numericLiterals : List (ℕ × NumericLiteralFact)
  emptyArrayElements : Finset ℕ
  nextSkolem : ℕ

abbrev Solve := Attempt Checker Stop

def Variable.bounds (v : Variable) : BoundDirection → List Ty
  | .lower => v.lower
  | .upper => v.upper

def Variable.push (v : Variable) (direction : BoundDirection) (bound : Ty) : Variable :=
  match direction with
  | .lower => { v with lower := v.lower ++ [bound] }
  | .upper => { v with upper := v.upper ++ [bound] }

def Variable.pop (v : Variable) (direction : BoundDirection) : Variable :=
  match direction with
  | .lower => { v with lower := v.lower.dropLast }
  | .upper => { v with upper := v.upper.dropLast }

def MemberConstraints.changed (m : MemberConstraints) (variableId : ℕ) : MemberConstraints :=
  { m with queued := m.queued ∪ m.watched variableId }

namespace Checker

/-- The checker before any constraint: `next_skolem` starts at `0x8000_0000`. -/
def empty : Checker where
  arena := []
  level := 0
  boundInsertions := []
  memberConstraints := ⟨[], [], fun _ => ∅, ∅⟩
  numericLiterals := []
  emptyArrayElements := ∅
  nextSkolem := 0x80000000

/-- The variable of an identity.  The source indexes its arena; every identity it holds is in range. -/
def variableOf (s : Checker) (id : ℕ) : Variable := s.arena.getD id default

def levelOfVar (s : Checker) (id : ℕ) : ℕ := (s.variableOf id).level

/-- `level_of` over the current arena -/
def levelOf (s : Checker) (t : Ty) : ℕ := t.levelOf s.levelOfVar

def bounds (s : Checker) (id : ℕ) (direction : BoundDirection) : List Ty := (s.variableOf id).bounds direction

def containsConstraint (bounds : List Ty) (bound : Ty) : Bool := bounds.any fun candidate => Ty.same candidate bound

def pushBound (s : Checker) (id : ℕ) (direction : BoundDirection) (bound : Ty) : Checker :=
  { s with arena := s.arena.modify id (·.push direction bound) }

def recordBoundInsertion (s : Checker) (id : ℕ) (direction : BoundDirection) : Checker :=
  { s with
    memberConstraints := s.memberConstraints.changed id
    boundInsertions := ⟨id, direction⟩ :: s.boundInsertions }

def insertBound (s : Checker) (id : ℕ) (direction : BoundDirection) (bound : Ty) : Checker :=
  (s.pushBound id direction bound).recordBoundInsertion id direction

/-- Undoes the newest journal entries until `count` are left. -/
def undo (count : ℕ) : List BoundInsertion → List Variable → List BoundInsertion × List Variable
  | [], arena => ([], arena)
  | insertion :: rest, arena =>
    if (insertion :: rest).length > count then
      undo count rest (arena.modify insertion.variableId (·.pop insertion.direction))
    else (insertion :: rest, arena)

def rollbackBounds (s : Checker) (insertionCount variableCount nextSkolem : ℕ) : Checker :=
  let (insertions, arena) := undo insertionCount s.boundInsertions s.arena
  { s with
    boundInsertions := insertions
    arena := arena.take variableCount
    emptyArrayElements := s.emptyArrayElements.filter (· < variableCount)
    numericLiterals := s.numericLiterals.filter (·.1 < variableCount)
    nextSkolem := nextSkolem }

/-- `fresh`, at the level given -/
def allocate (s : Checker) (level : ℕ) : Checker := { s with arena := s.arena ++ [⟨level, [], []⟩] }

def markEmpty (s : Checker) (id : ℕ) : Checker := { s with emptyArrayElements := insert id s.emptyArrayElements }

def BoundsInScope (s : Checker) : Prop := ∀ v d, ∀ t ∈ s.bounds v d, t.InScope s.arena.length

/-! ### What the steps of a state do to its bounds -/

section Bounds

variable (s : Checker)

theorem bounds_eq_of_arena {s s' : Checker} (h : s'.arena = s.arena) (v : ℕ) (d : BoundDirection) :
    s'.bounds v d = s.bounds v d := by
  unfold bounds variableOf; rw [h]

theorem levelOfVar_eq_of_arena {s s' : Checker} (h : s'.arena = s.arena) (v : ℕ) :
    s'.levelOfVar v = s.levelOfVar v := by
  unfold levelOfVar variableOf; rw [h]

@[simp] theorem level_push (v : Variable) (d : BoundDirection) (t : Ty) : (v.push d t).level = v.level := by
  cases d <;> rfl

theorem bounds_push (v : Variable) (d e : BoundDirection) (t : Ty) :
    (v.push d t).bounds e = if e = d then v.bounds e ++ [t] else v.bounds e := by
  cases d <;> cases e <;> rfl

@[simp] theorem length_pushBound (id : ℕ) (d : BoundDirection) (t : Ty) :
    (s.pushBound id d t).arena.length = s.arena.length := List.length_modify ..

theorem variableOf_pushBound (id : ℕ) (d : BoundDirection) (t : Ty) (v : ℕ) :
    (s.pushBound id d t).variableOf v =
      if v = id ∧ id < s.arena.length then (s.variableOf v).push d t else s.variableOf v := by
  unfold variableOf pushBound
  rw [List.getD_eq_getElem?_getD, List.getD_eq_getElem?_getD, List.getElem?_modify]
  by_cases h : v = id
  · obtain rfl := h
    by_cases hv : v < s.arena.length
    · simp [hv]
    · simp [hv]
  · have h' : ¬ id = v := fun e => h e.symm
    simp [h, h']

theorem levelOfVar_pushBound (id : ℕ) (d : BoundDirection) (t : Ty) (v : ℕ) :
    (s.pushBound id d t).levelOfVar v = s.levelOfVar v := by
  unfold levelOfVar
  rw [variableOf_pushBound]
  split <;> simp

theorem bounds_pushBound (id : ℕ) (d : BoundDirection) (t : Ty) (v : ℕ) (e : BoundDirection) :
    (s.pushBound id d t).bounds v e =
      if (v = id ∧ e = d) ∧ id < s.arena.length then s.bounds v e ++ [t] else s.bounds v e := by
  unfold bounds
  rw [variableOf_pushBound]
  by_cases h : v = id ∧ id < s.arena.length
  · rw [if_pos h, bounds_push]
    simp [h.1, h.2]
  · rw [if_neg h, if_neg fun h' => h ⟨h'.1.1, h'.2⟩]

theorem levelOfVar_insertBound (id : ℕ) (d : BoundDirection) (t : Ty) (v : ℕ) :
    (s.insertBound id d t).levelOfVar v = s.levelOfVar v := levelOfVar_pushBound s id d t v

theorem bounds_insertBound (id : ℕ) (d : BoundDirection) (t : Ty) (v : ℕ) (e : BoundDirection) :
    (s.insertBound id d t).bounds v e =
      if (v = id ∧ e = d) ∧ id < s.arena.length then s.bounds v e ++ [t] else s.bounds v e :=
  bounds_pushBound s id d t v e

theorem mem_bounds_insertBound {s : Checker} {id v : ℕ} {d e : BoundDirection} {t u : Ty}
    (h : u ∈ (s.insertBound id d t).bounds v e) : u ∈ s.bounds v e ∨ (v = id ∧ e = d ∧ u = t) := by
  rw [bounds_insertBound] at h
  split at h
  · rename_i hv
    exact (List.mem_append.1 h).imp (fun h => h) fun hu => ⟨hv.1.1, hv.1.2, List.mem_singleton.1 hu⟩
  · exact Or.inl h

theorem mem_bounds_insertBound_self {s : Checker} {id : ℕ} (hid : id < s.arena.length) (d : BoundDirection) (t : Ty) :
    t ∈ (s.insertBound id d t).bounds id d := by
  rw [bounds_insertBound, if_pos ⟨⟨rfl, rfl⟩, hid⟩]
  exact List.mem_append_right _ List.mem_cons_self

theorem subset_bounds_insertBound {s : Checker} {id v : ℕ} {d e : BoundDirection} {u t : Ty} (h : t ∈ s.bounds v e) :
    t ∈ (s.insertBound id d u).bounds v e := by
  rw [bounds_insertBound]
  split
  · exact List.mem_append_left _ h
  · exact h

@[simp] theorem length_insertBound (id : ℕ) (d : BoundDirection) (t : Ty) :
    (s.insertBound id d t).arena.length = s.arena.length := length_pushBound s id d t

@[simp] theorem length_allocate (level : ℕ) : (s.allocate level).arena.length = s.arena.length + 1 := by
  simp [allocate]

theorem variableOf_allocate_lt (level : ℕ) {v : ℕ} (h : v < s.arena.length) :
    (s.allocate level).variableOf v = s.variableOf v := List.getD_append _ _ _ _ h

theorem variableOf_allocate_self (level : ℕ) :
    (s.allocate level).variableOf s.arena.length = ⟨level, [], []⟩ := by
  simp [variableOf, allocate]

theorem variableOf_of_le {v : ℕ} (h : s.arena.length ≤ v) : s.variableOf v = default :=
  List.getD_eq_default _ _ h

/-- A new variable has no bounds, and no other bounds change. -/
theorem bounds_allocate (level v : ℕ) (d : BoundDirection) : (s.allocate level).bounds v d = s.bounds v d := by
  unfold bounds
  rcases lt_trichotomy v s.arena.length with h | rfl | h
  · rw [variableOf_allocate_lt s level h]
  · rw [variableOf_allocate_self, variableOf_of_le s le_rfl]
    cases d <;> rfl
  · rw [variableOf_of_le s h.le, variableOf_of_le (s.allocate level) (by simpa using Nat.succ_le_of_lt h)]

theorem bounds_of_le {v : ℕ} (h : s.arena.length ≤ v) (d : BoundDirection) : s.bounds v d = [] := by
  unfold bounds
  rw [variableOf_of_le s h]
  cases d <;> rfl

theorem lt_of_mem_bounds {s : Checker} {v : ℕ} {d : BoundDirection} {t : Ty} (h : t ∈ s.bounds v d) :
    v < s.arena.length := by
  by_contra hv
  rw [bounds_of_le s (by omega)] at h
  exact absurd h List.not_mem_nil

end Bounds

end Checker

open Checker

/-- `fresh`: a variable at the current level. -/
def fresh : Solve ℕ := fun s => (.ok s.arena.length, s.allocate s.level)

def freshEmptyArrayElement : Solve ℕ := do
  let id ← fresh
  Attempt.modify (·.markEmpty id)
  return id

/-- `fresh_numeric_literal`; the table of expression types is not part of the solver. -/
def freshNumericLiteral (fact : NumericLiteralFact) : Solve ℕ := do
  let id ← fresh
  Attempt.modify fun s => { s with numericLiterals := s.numericLiterals ++ [(id, fact)] }
  return id

/-- `int_type`, `float_type`, `float32_type` -/
def intType : Ty := .range .int (some (.int (-2 ^ 63))) (some (.int (2 ^ 63 - 1)))
def floatType : Ty := .range .float none none
def float32Type : Ty := .range .float32 none none

end Blot.Typecheck
