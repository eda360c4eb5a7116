import Mathlib.Algebra.Order.Ring.Nat
import Blot.Support.Ascending
import Mathlib.Algebra.Order.BigOperators.Group.List

/-!
# Rounds until nothing changes

A set for each of finitely many places, and a transfer that says what a place needs, given what the places have.  A
round visits the places in a fixed order, each in the state that the visits before it have left; rounds go on until one
changes nothing.

* `foldl_visit` — a round makes the whole larger, or changes nothing;
* `settle_finishes` — where the transfer is monotone and gives elements of a finite list only, the rounds come to an
  end, in a state that the transfer leaves as it is and that has every property the transfer keeps.
-/

namespace Blot.Support.Rounds

variable {A : Type} [LinearOrder A]

abbrev Sets (A : Type) [LinearOrder A] := List (Ascending A)

def held (sets : Sets A) (i : ℕ) : Ascending A := sets.getD i .empty

def visit (transfer : Sets A → ℕ → Ascending A) (state : Sets A × Bool) (i : ℕ) : Sets A × Bool :=
  if held state.1 i = transfer state.1 i then state else (state.1.set i (transfer state.1 i), true)

def settle (transfer : Sets A → ℕ → Ascending A) (order : List ℕ) : ℕ → Sets A → Option (Sets A)
  | 0, _ => none
  | n + 1, sets =>
    let state := order.foldl (visit transfer) (sets, false)
    if state.2 then settle transfer order n state.1 else some state.1

/-- Each place has at most what it has in `sets'`. -/
def Below (sets sets' : Sets A) : Prop := ∀ i a, a ∈ held sets i → a ∈ held sets' i

/-- Each place has only what `P` allows. -/
def Within (P : ℕ → A → Prop) (sets : Sets A) : Prop := ∀ i a, a ∈ held sets i → P i a

def Monotone (transfer : Sets A → ℕ → Ascending A) : Prop :=
  ∀ sets sets', Below sets sets' → ∀ i a, a ∈ transfer sets i → a ∈ transfer sets' i

/-- A transfer that keeps to `P`. -/
def Keeps (P : ℕ → A → Prop) (transfer : Sets A → ℕ → Ascending A) : Prop :=
  ∀ sets, Within P sets → ∀ i a, a ∈ transfer sets i → P i a

def Rising (transfer : Sets A → ℕ → Ascending A) (sets : Sets A) : Prop :=
  ∀ i a, a ∈ held sets i → a ∈ transfer sets i

section Visits

variable {transfer : Sets A → ℕ → Ascending A} {sets : Sets A} {i j : ℕ}

theorem held_set_self {s : Ascending A} (hi : i < sets.length) : held (sets.set i s) i = s := by
  simp [held, List.getD_eq_getElem?_getD, hi]

theorem held_set_of_ne {s : Ascending A} (h : j ≠ i) : held (sets.set i s) j = held sets j := by
  simp [held, List.getD_eq_getElem?_getD, List.getElem?_set_ne (Ne.symm h)]

theorem visit_length (state : Sets A × Bool) : (visit transfer state i).1.length = state.1.length := by
  unfold visit
  split
  · rfl
  · simp

/-- **A visit keeps the state rising**, and takes nothing away. -/
theorem visit_rising (hmono : Monotone transfer) {state : Sets A × Bool} (hi : i < state.1.length)
    (h : Rising transfer state.1) :
    Rising transfer (visit transfer state i).1 ∧ Below state.1 (visit transfer state i).1 := by
  unfold visit
  split
  · exact ⟨h, fun _ _ ha => ha⟩
  · have hbelow : Below state.1 (state.1.set i (transfer state.1 i)) := by
      intro j a ha
      by_cases hj : j = i
      · subst hj
        rw [held_set_self hi]
        exact h j a ha
      · rwa [held_set_of_ne hj]
    refine ⟨fun j a ha => hmono _ _ hbelow j a ?_, hbelow⟩
    by_cases hj : j = i
    · subst hj
      rwa [held_set_self hi] at ha
    · rw [held_set_of_ne hj] at ha
      exact h j a ha

theorem visit_within {P : ℕ → A → Prop} (hkeeps : Keeps P transfer) {state : Sets A × Bool}
    (hi : i < state.1.length) (h : Within P state.1) : Within P (visit transfer state i).1 := by
  unfold visit
  split
  · exact h
  · intro j a ha
    by_cases hj : j = i
    · subst hj
      rw [held_set_self hi] at ha
      exact hkeeps _ h j a ha
    · rw [held_set_of_ne hj] at ha
      exact h j a ha

/-- How much there is in all places. -/
def size (sets : Sets A) : ℕ := (sets.map (·.elements.length)).sum

theorem length_lt_of_ssubset {s t : Ascending A} (hsub : ∀ a, a ∈ s → a ∈ t) (hne : s ≠ t) :
    s.elements.length < t.elements.length := by
  refine Nat.lt_of_le_of_ne (s.nodup.subperm hsub).length_le fun hlength => hne ?_
  have hperm := (s.nodup.subperm hsub).perm_of_length_le (Nat.le_of_eq hlength.symm)
  exact Ascending.ext fun a => hperm.mem_iff

/-- **A visit that changes something makes the whole larger.** -/
theorem visit_size {state : Sets A × Bool} (hi : i < state.1.length) (h : Rising transfer state.1) :
    (visit transfer state i = state ∧ held state.1 i = transfer state.1 i) ∨
      ((visit transfer state i).2 = true ∧ size state.1 < size (visit transfer state i).1) := by
  unfold visit
  split
  · next he => exact Or.inl ⟨rfl, he⟩
  · next hne =>
    refine Or.inr ⟨rfl, ?_⟩
    have hat : held state.1 i = state.1[i] := by simp [held, List.getD_eq_getElem?_getD, hi]
    have hlt := length_lt_of_ssubset (h i) hne
    rw [hat] at hlt
    -- the sizes before and after differ at this place only
    have hset (k : ℕ) : ((state.1.map (·.elements.length)).set i k).sum =
        ((state.1.map (·.elements.length)).take i).sum + k + ((state.1.map (·.elements.length)).drop (i + 1)).sum := by
      rw [List.sum_set, if_pos (by simpa using hi)]
    have hself : (state.1.map (·.elements.length)).set i state.1[i].elements.length =
        state.1.map (·.elements.length) := by
      rw [← List.map_set, List.set_getElem_self]
    have hbefore := hset state.1[i].elements.length
    have hafter := hset (transfer state.1 i).elements.length
    rw [hself] at hbefore
    rw [size, size, List.map_set]
    omega

end Visits

section Rounds

variable {transfer : Sets A → ℕ → Ascending A} {order : List ℕ}

/-- **What a round does**: it keeps the state rising and what the transfer keeps, and either makes the whole larger or
changes nothing, and then each place of the order has what the transfer gives it. -/
theorem foldl_visit (hmono : Monotone transfer) {P : ℕ → A → Prop} (hkeeps : Keeps P transfer)
    {state : Sets A × Bool} (horder : ∀ i ∈ order, i < state.1.length) (hrising : Rising transfer state.1)
    (hwithin : Within P state.1) :
    Rising transfer (order.foldl (visit transfer) state).1 ∧ Within P (order.foldl (visit transfer) state).1 ∧
      (order.foldl (visit transfer) state).1.length = state.1.length ∧
      ((order.foldl (visit transfer) state = state ∧ ∀ i ∈ order, held state.1 i = transfer state.1 i) ∨
        ((order.foldl (visit transfer) state).2 = true ∧
          size state.1 < size (order.foldl (visit transfer) state).1)) := by
  induction order generalizing state with
  | nil => exact ⟨hrising, hwithin, rfl, Or.inl ⟨rfl, by simp⟩⟩
  | cons i order ih =>
    have hi := horder i (by simp)
    have hlength : (visit transfer state i).1.length = state.1.length := visit_length state
    obtain ⟨hrising', _⟩ := visit_rising hmono hi hrising
    obtain ⟨hr, hw, hl, hcases⟩ := ih (fun j hj => hlength ▸ horder j (by simp [hj])) hrising'
      (visit_within hkeeps hi hwithin)
    refine ⟨hr, hw, hl.trans hlength, ?_⟩
    rw [List.foldl_cons]
    rcases visit_size hi hrising with ⟨hsame, hheld⟩ | ⟨hchanged, hlt⟩
    · rw [hsame] at hcases ⊢
      rcases hcases with ⟨hend, hall⟩ | hlarger
      · exact Or.inl ⟨hend, List.forall_mem_cons.2 ⟨hheld, hall⟩⟩
      · exact Or.inr hlarger
    · rcases hcases with ⟨hend, _⟩ | ⟨hchanged', hlt'⟩
      · rw [hend]
        exact Or.inr ⟨hchanged, hlt⟩
      · exact Or.inr ⟨hchanged', hlt.trans hlt'⟩

theorem size_le {whole : List A} {sets : Sets A} (h : Within (fun _ a => a ∈ whole) sets) :
    size sets ≤ sets.length * whole.length := by
  have hle : ∀ n ∈ sets.map (·.elements.length), n ≤ whole.length := by
    intro n hn
    obtain ⟨s, hs, rfl⟩ := List.mem_map.1 hn
    obtain ⟨i, hi, rfl⟩ := List.mem_iff_getElem.1 hs
    refine (sets[i].nodup.subperm fun a ha => h i a ?_).length_le
    simpa [held, List.getD_eq_getElem?_getD, hi, Ascending.mem_def] using ha
  simpa [size] using List.sum_le_card_nsmul _ _ hle

/-- **The rounds come to an end**, in a state that the transfer leaves as it is and in which every property holds that
the transfer keeps.  Each round but the last makes the whole larger. -/
theorem settle_finishes (hmono : Monotone transfer) {whole : List A}
    (hwhole : Keeps (fun _ a => a ∈ whole) transfer) {n : ℕ} {sets : Sets A} (horder : ∀ i ∈ order, i < sets.length)
    (hrising : Rising transfer sets) (hwithin : Within (fun _ a => a ∈ whole) sets)
    (hn : sets.length * whole.length - size sets < n) :
    ∃ result, settle transfer order n sets = some result ∧ result.length = sets.length ∧
      (∀ i ∈ order, held result i = transfer result i) ∧
      ∀ P : ℕ → A → Prop, Keeps P transfer → Within P sets → Within P result := by
  induction n generalizing sets with
  | zero => omega
  | succ n ih =>
    have hround {P : ℕ → A → Prop} (hP : Keeps P transfer) (hin : Within P sets) :=
      foldl_visit hmono hP (show ∀ i ∈ order, i < (sets, false).1.length from horder) hrising hin
    obtain ⟨hr, hw, hl, hcases⟩ := hround hwhole hwithin
    rcases hcases with ⟨hend, hall⟩ | ⟨hchanged, hlt⟩
    · exact ⟨sets, by simp [settle, hend], rfl, hall, fun _ _ hin => hin⟩
    · have hbound := size_le hw
      simp only at hl hlt
      rw [hl] at hbound
      obtain ⟨result, hresult, hlength, hfixed, hleast⟩ := ih (fun i hi => hl ▸ horder i hi) hr hw (by
        rw [hl]
        omega)
      refine ⟨result, ?_, hlength.trans hl, hfixed, fun P hP hin => hleast P hP (hround hP hin).2.1⟩
      rw [settle, if_pos hchanged, hresult]

theorem settle_mono {n m : ℕ} (hle : n ≤ m) {sets result : Sets A} (h : settle transfer order n sets = some result) :
    settle transfer order m sets = some result := by
  induction n generalizing m sets with
  | zero => cases h
  | succ n ih =>
    obtain ⟨m, rfl⟩ := Nat.exists_eq_add_one_of_ne_zero (n := m) (by omega)
    rw [settle] at h ⊢
    split at h
    · next hchanged => rw [if_pos hchanged, ih (by omega) h]
    · next hsame => rw [if_neg hsame, h]

end Rounds

end Blot.Support.Rounds
