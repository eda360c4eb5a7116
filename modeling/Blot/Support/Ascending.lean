import Mathlib.Data.Finset.Card

/-!
# Ordered sets

A `BTreeSet` is its elements in ascending order.  The order is a field, so that two sets with the same elements are
equal and the elements can be read off in order.
-/

namespace Blot.Support

variable {α : Type} [LinearOrder α]

/-- A finite set, as the list of its elements in ascending order. -/
structure Ascending (α : Type) [LinearOrder α] where
  elements : List α
  ascending : elements.Pairwise (· < ·)

namespace Ascending

instance : Membership α (Ascending α) := ⟨fun s a => a ∈ s.elements⟩

instance (a : α) (s : Ascending α) : Decidable (a ∈ s) := inferInstanceAs (Decidable (a ∈ s.elements))

theorem mem_def {a : α} {s : Ascending α} : a ∈ s ↔ a ∈ s.elements := Iff.rfl

instance : DecidableEq (Ascending α) := fun s t =>
  decidable_of_iff (s.elements = t.elements) ⟨fun h => by cases s; cases t; cases h; rfl, fun h => h ▸ rfl⟩

def place (a : α) : List α → List α
  | [] => [a]
  | b :: l => if a < b then a :: b :: l else if a = b then b :: l else b :: place a l

theorem mem_place {a b : α} {l : List α} : b ∈ place a l ↔ b = a ∨ b ∈ l := by
  induction l with
  | nil => simp [place]
  | cons c l ih =>
    unfold place
    split
    · simp
    · split
      · next h =>
        subst h
        simp
      · rw [List.mem_cons, ih, List.mem_cons]
        exact or_left_comm

theorem place_ascending {a : α} {l : List α} (h : l.Pairwise (· < ·)) : (place a l).Pairwise (· < ·) := by
  induction l with
  | nil => simp [place]
  | cons c l ih =>
    obtain ⟨hc, hl⟩ := List.pairwise_cons.1 h
    unfold place
    split
    · next hac => exact List.pairwise_cons.2 ⟨fun b hb => (List.mem_cons.1 hb).elim (fun e => e ▸ hac)
        fun hb => hac.trans (hc b hb), h⟩
    · next hac =>
      split
      · exact h
      · next hne =>
        refine List.pairwise_cons.2 ⟨fun b hb => ?_, ih hl⟩
        rcases mem_place.1 hb with rfl | hb
        · exact lt_of_le_of_ne (not_lt.1 hac) (Ne.symm hne)
        · exact hc b hb

def empty : Ascending α := ⟨[], .nil⟩

def insert (a : α) (s : Ascending α) : Ascending α := ⟨place a s.elements, place_ascending s.ascending⟩

def extend (s : Ascending α) (l : List α) : Ascending α := l.foldl (fun s a => s.insert a) s

def remove (a : α) (s : Ascending α) : Ascending α := ⟨s.elements.filter (· ≠ a), s.ascending.filter _⟩

def difference (s t : Ascending α) : Ascending α := ⟨s.elements.filter (· ∉ t), s.ascending.filter _⟩

def ofList (l : List α) : Ascending α := empty.extend l

@[simp] theorem not_mem_empty (a : α) : a ∉ (empty : Ascending α) := by simp [mem_def, empty]

@[simp] theorem mem_insert {a b : α} {s : Ascending α} : b ∈ s.insert a ↔ b = a ∨ b ∈ s := mem_place

@[simp] theorem mem_extend {b : α} {s : Ascending α} {l : List α} : b ∈ s.extend l ↔ b ∈ s ∨ b ∈ l := by
  unfold extend
  induction l generalizing s with
  | nil => simp
  | cons a l ih =>
    rw [List.foldl_cons, ih, mem_insert, List.mem_cons, or_assoc]
    exact or_left_comm

@[simp] theorem mem_remove {a b : α} {s : Ascending α} : b ∈ s.remove a ↔ b ∈ s ∧ b ≠ a := by
  simp [mem_def, remove]

@[simp] theorem mem_difference {b : α} {s t : Ascending α} : b ∈ s.difference t ↔ b ∈ s ∧ b ∉ t := by
  simp [mem_def, difference]

@[simp] theorem mem_ofList {b : α} {l : List α} : b ∈ ofList l ↔ b ∈ l := by simp [ofList]

theorem nodup (s : Ascending α) : s.elements.Nodup := s.ascending.imp ne_of_lt

/-- **Sets with the same elements are equal.** -/
theorem ext {s t : Ascending α} (h : ∀ a, a ∈ s ↔ a ∈ t) : s = t := by
  have he : s.elements = t.elements :=
    (List.perm_of_nodup_nodup_toFinset_eq s.nodup t.nodup (by
      ext a
      rw [List.mem_toFinset, List.mem_toFinset]
      exact h a)).eq_of_pairwise
      (fun a b _ _ hab hba => absurd hba hab.not_gt) s.ascending t.ascending
  cases s
  cases t
  cases he
  rfl

end Ascending

end Blot.Support
