import Blot.Support.Ascending

/-!
# Least values by key

A `BTreeMap` from keys to integers in which a key keeps the least value that it is given.  What a key is given bounds a
function of the keys exactly when what it keeps does.
-/

namespace Blot.Support

variable {K : Type} [LinearOrder K]

structure Minima (K : Type) [LinearOrder K] where
  entries : List (K × ℤ)
  ascending : (entries.map Prod.fst).Pairwise (· < ·)

namespace Minima

def lowerIn (key : K) (value : ℤ) : List (K × ℤ) → List (K × ℤ)
  | [] => [(key, value)]
  | (other, current) :: rest =>
    if key < other then (key, value) :: (other, current) :: rest
    else if key = other then (other, if value < current then value else current) :: rest
    else (other, current) :: lowerIn key value rest

theorem keys_lowerIn {key : K} {value : ℤ} {l : List (K × ℤ)} :
    (lowerIn key value l).map Prod.fst = Ascending.place key (l.map Prod.fst) := by
  induction l with
  | nil => rfl
  | cons p l ih =>
    rw [List.map_cons, lowerIn, Ascending.place, ← ih]
    split
    · rfl
    · split
      · rfl
      · rfl

theorem lowerIn_ascending {key : K} {value : ℤ} {l : List (K × ℤ)} (h : (l.map Prod.fst).Pairwise (· < ·)) :
    ((lowerIn key value l).map Prod.fst).Pairwise (· < ·) := by
  rw [keys_lowerIn]
  exact Ascending.place_ascending h

theorem forall_lowerIn {f : K → ℤ} {key : K} {value : ℤ} {l : List (K × ℤ)} :
    (∀ p ∈ lowerIn key value l, f p.1 ≤ p.2) ↔ f key ≤ value ∧ ∀ p ∈ l, f p.1 ≤ p.2 := by
  induction l with
  | nil => simp [lowerIn]
  | cons p l ih =>
    unfold lowerIn
    split
    · rw [List.forall_mem_cons]
    · split
      · next h =>
        subst h
        rw [List.forall_mem_cons, List.forall_mem_cons, ← and_assoc]
        refine and_congr_left fun _ => ?_
        dsimp only
        split <;> omega
      · rw [List.forall_mem_cons, ih, List.forall_mem_cons]
        exact and_left_comm

theorem ascending_nil : (([] : List (K × ℤ)).map Prod.fst).Pairwise (· < ·) := .nil

def empty : Minima K := ⟨[], ascending_nil⟩

/-- `entry(key).and_modify(least).or_insert(value)` -/
def lower (m : Minima K) (key : K) (value : ℤ) : Minima K :=
    ⟨lowerIn key value m.entries, lowerIn_ascending m.ascending⟩

/-- A function of the keys stays below what is kept. -/
def Bounds (m : Minima K) (f : K → ℤ) : Prop := ∀ p ∈ m.entries, f p.1 ≤ p.2

variable {m : Minima K} {f : K → ℤ} {key k : K} {value : ℤ}

@[simp] theorem bounds_empty : (empty : Minima K).Bounds f := fun _ hp => absurd hp List.not_mem_nil

@[simp] theorem bounds_lower : (m.lower key value).Bounds f ↔ f key ≤ value ∧ m.Bounds f := forall_lowerIn

theorem mem_keys_lower : k ∈ (m.lower key value).entries.map Prod.fst ↔ k = key ∨ k ∈ m.entries.map Prod.fst := by
  rw [lower, keys_lowerIn, Ascending.mem_place]

end Minima

end Blot.Support
