import Mathlib.Algebra.Order.Ring.Int
import Mathlib.Tactic.Linarith

/-!
# Integers (`integer.rs`)

An integer is stored in a machine word where it fits one, and as a big integer elsewhere; the integers of Lean stand for
the big ones.  What panics is `none`.

* `Integer` — carries that it is stored where it belongs;
* `Program.run_exact` — computations on machine words agree with those on big integers.
-/

namespace Blot.Integers

/-- The range of `i64`. -/
def FitsI64 (n : ℤ) : Prop := -2 ^ 63 ≤ n ∧ n < 2 ^ 63

instance : DecidablePred FitsI64 := fun _ => inferInstanceAs (Decidable (_ ∧ _))

inductive Representation where
  | small (value : ℤ)
  | large (value : ℤ)
  deriving DecidableEq

def Representation.Canonical : Representation → Prop
  | .small value => FitsI64 value
  | .large value => ¬ FitsI64 value

structure Integer where
  representation : Representation
  canonical : representation.Canonical
  deriving DecidableEq

namespace Integer

def big (n : Integer) : ℤ :=
  match n.representation with
  | .small value => value
  | .large value => value

def fromBig (value : ℤ) : Integer := if h : FitsI64 value then ⟨.small value, h⟩ else ⟨.large value, h⟩

/-- `From` of a machine integer -/
def fromMachine (value : ℤ) : Integer := if h : FitsI64 value then ⟨.small value, h⟩ else fromBig value

def neg : Integer → Integer
  | ⟨.small value, _⟩ => if h : FitsI64 (-value) then ⟨.small (-value), h⟩ else fromBig (-value)
  | ⟨.large value, _⟩ => fromBig (-value)

/-- `shl`; the shift in `i128` drops what leaves it -/
def shl : Integer → ℕ → Integer
  | ⟨.small value, _⟩, shift =>
    if value = 0 then fromMachine 0
    else if shift < 64 then fromMachine (Int.bmod (value * 2 ^ shift) (2 ^ 128))
    else fromBig (value * 2 ^ shift)
  | ⟨.large value, _⟩, shift => fromBig (value * 2 ^ shift)

/-- `shr`, which rounds down -/
def shr : Integer → ℕ → Integer
  | ⟨.small value, _⟩, shift => fromMachine (value / 2 ^ min shift 63)
  | ⟨.large value, _⟩, shift => fromBig (value / 2 ^ shift)

end Integer

open Integer

/-! ### The operations -/

/-- A member of `binary_operation`: the checked operation on machine words and the one on big integers. -/
structure Operation where
  checked : ℤ → ℤ → Option ℤ
  exact : ℤ → ℤ → Option ℤ
  agrees : ∀ {l r v}, FitsI64 l → FitsI64 r → checked l r = some v → exact l r = some v ∧ FitsI64 v

/-- What `binary_operation` makes of it. -/
def Operation.run (op : Operation) : Integer → Integer → Option Integer
  | ⟨.small l, hl⟩, ⟨.small r, hr⟩ =>
    match h : op.checked l r with
    | some value => some ⟨.small value, (op.agrees hl hr h).2⟩
    | none => (op.exact l r).map fromBig
  | left, right => (op.exact left.big right.big).map fromBig

/-- A result that overflows is none. -/
def checkedI64 (n : ℤ) : Option ℤ := if FitsI64 n then some n else none

theorem checkedI64_eq_some {n v : ℤ} : checkedI64 n = some v ↔ n = v ∧ FitsI64 v := by
  unfold checkedI64
  split <;> simp <;> grind

/-- An operation that is defined everywhere. -/
def total (f : ℤ → ℤ → ℤ) : Operation where
  checked l r := checkedI64 (f l r)
  exact l r := some (f l r)
  agrees _ _ h := by
    obtain ⟨rfl, hv⟩ := checkedI64_eq_some.1 h
    exact ⟨rfl, hv⟩

def add : Operation := total (· + ·)

def sub : Operation := total (· - ·)

def mul : Operation := total (· * ·)

def div : Operation where
  checked l r := if r = 0 then none else checkedI64 (l.tdiv r)
  exact l r := if r = 0 then none else some (l.tdiv r)
  agrees _ _ h := by
    split at h
    · cases h
    · obtain ⟨rfl, hv⟩ := checkedI64_eq_some.1 h
      exact ⟨by simp_all, hv⟩

theorem fitsI64_tmod {l : ℤ} (r : ℤ) (hl : FitsI64 l) : FitsI64 (l.tmod r) := by
  have hle : (l.tmod r).natAbs ≤ l.natAbs := Int.natAbs_tmod l r ▸ Nat.mod_le _ _
  unfold FitsI64 at *
  rcases le_total 0 l with h | h
  · have := Int.tmod_nonneg r h
    omega
  · have := Int.tmod_nonneg r (Int.neg_nonneg.2 h)
    rw [Int.neg_tmod] at this
    omega

def rem : Operation where
  checked l r := if r = 0 ∨ l = -2 ^ 63 ∧ r = -1 then none else some (l.tmod r)
  exact l r := if r = 0 then none else some (l.tmod r)
  agrees hl _ h := by
    split at h
    · cases h
    · next hr =>
      cases h
      exact ⟨if_neg fun h => hr (.inl h), fitsI64_tmod _ hl⟩

/-- The traits that `binary_operation` implements. -/
inductive BinaryOperation where
  | add | sub | mul | div | rem

/-- The operation of a trait. -/
def BinaryOperation.operation : BinaryOperation → Operation
  | .add => Integers.add
  | .sub => Integers.sub
  | .mul => Integers.mul
  | .div => Integers.div
  | .rem => Integers.rem

/-! ### The plain path -/

theorem big_fromBig (value : ℤ) : (fromBig value).big = value := by
  unfold fromBig
  split <;> rfl

theorem fromMachine_eq (value : ℤ) : fromMachine value = fromBig value := by
  unfold fromMachine
  split
  · next h => rw [fromBig, dif_pos h]
  · rfl

theorem Operation.run_eq (op : Operation) (left right : Integer) :
    op.run left right = (op.exact left.big right.big).map fromBig := by
  obtain ⟨l | l, hl⟩ := left
  · obtain ⟨r | r, hr⟩ := right
    · unfold Operation.run
      dsimp only
      split
      · next v h =>
        obtain ⟨hexact, hv⟩ := op.agrees hl hr h
        change _ = (op.exact l r).map fromBig
        rw [hexact, Option.map_some, fromBig, dif_pos hv]
      · rfl
    · rfl
  · rfl

theorem neg_eq (n : Integer) : n.neg = fromBig (-n.big) := by
  obtain ⟨value | value, h⟩ := n
  · exact fromMachine_eq (-value)
  · rfl

theorem shl_eq (n : Integer) (shift : ℕ) : n.shl shift = fromBig (n.big * 2 ^ shift) := by
  obtain ⟨value | value, h⟩ := n
  · change (if _ then _ else _) = fromBig (value * 2 ^ shift)
    split
    · next hzero => rw [hzero, zero_mul, fromMachine_eq]
    · split
      · next hshift =>
        have hpow : (2 : ℤ) ^ shift ≤ 2 ^ 63 := pow_le_pow_right₀ (by norm_num) (by omega)
        have hpos : (0 : ℤ) < 2 ^ shift := pow_pos (by norm_num) _
        have hfits : FitsI64 value := h
        unfold FitsI64 at hfits
        rw [fromMachine_eq, Int.bmod_eq_of_le] <;> push_cast <;> nlinarith
      · rfl
  · rfl

/-- Shifting a machine word by more than 63 places gives what 63 places give. -/
theorem div_pow_min {value : ℤ} (h : FitsI64 value) (shift : ℕ) : value / 2 ^ min shift 63 = value / 2 ^ shift := by
  have hdiv : ∀ k ≥ 63, value / 2 ^ k = if value < 0 then -1 else 0 := by
    intro k hk
    have hpow : (2 : ℤ) ^ 63 ≤ 2 ^ k := pow_le_pow_right₀ (by norm_num) hk
    unfold FitsI64 at h
    split
    · refine ((Int.ediv_emod_unique (r := value + 2 ^ k) ?_).2 ⟨?_, ?_, ?_⟩).1 <;> omega
    · exact Int.ediv_eq_zero_of_lt (by omega) (by omega)
  rcases le_total shift 63 with hle | hle
  · rw [min_eq_left hle]
  · rw [min_eq_right hle, hdiv 63 le_rfl, hdiv shift hle]

theorem shr_eq (n : Integer) (shift : ℕ) : n.shr shift = fromBig (n.big / 2 ^ shift) := by
  obtain ⟨value | value, h⟩ := n
  · exact (fromMachine_eq _).trans (congrArg fromBig (div_pow_min h shift))
  · rfl

/-! ### Computations -/

/-- A computation with integers. -/
inductive Program where
  | literal (value : ℤ)
  | binary (op : BinaryOperation) (left right : Program)
  | neg (operand : Program)
  | shl (operand : Program) (shift : ℕ)
  | shr (operand : Program) (shift : ℕ)

namespace Program

/-- The computation as it runs. -/
def run : Program → Option Integer
  | .literal value => some (fromBig value)
  | .binary op left right => do op.operation.run (← left.run) (← right.run)
  | .neg operand => operand.run.map Integer.neg
  | .shl operand shift => operand.run.map (·.shl shift)
  | .shr operand shift => operand.run.map (·.shr shift)

/-- The computation on big integers alone. -/
def exact : Program → Option ℤ
  | .literal value => some value
  | .binary op left right => do op.operation.exact (← left.exact) (← right.exact)
  | .neg operand => operand.exact.map (- ·)
  | .shl operand shift => operand.exact.map (· * 2 ^ shift)
  | .shr operand shift => operand.exact.map (· / 2 ^ shift)

/-- **Machine words make no difference**: a computation panics as it does on big integers, or comes to the canonical form
of the same integer. -/
theorem run_exact (p : Program) : p.run = p.exact.map fromBig := by
  induction p with
  | literal value => rfl
  | binary op left right ihl ihr =>
    rw [run, exact, ihl, ihr]
    cases left.exact <;> cases right.exact <;> simp [Operation.run_eq, big_fromBig]
  | neg operand ih =>
    rw [run, exact, ih]
    cases operand.exact <;> simp [neg_eq, big_fromBig]
  | shl operand shift ih =>
    rw [run, exact, ih]
    cases operand.exact <;> simp [shl_eq, big_fromBig]
  | shr operand shift ih =>
    rw [run, exact, ih]
    cases operand.exact <;> simp [shr_eq, big_fromBig]

end Program

end Blot.Integers
