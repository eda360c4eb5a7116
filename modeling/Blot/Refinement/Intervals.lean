import Mathlib.Data.List.Sort

/-!
# Sets of integers (`predicate_refinement.rs`)

A set of integers is a list of intervals with open ends. Normalised lists are sorted, disjoint and inhabited.

* `covered_normalize` — the set that a normalised list is; `Normal` — what normalised lists keep;
* `normalize_eq_iff` — a set has one normal form.
-/

namespace Blot.Refinement

structure Interval where
  low : Option ℤ
  high : Option ℤ
  deriving DecidableEq

def Interval.inhabited (interval : Interval) : Bool :=
  match interval.low, interval.high with
  | some low, some high => low ≤ high
  | _, _ => true

def LowLe (left right : Interval) : Prop :=
  match left.low, right.low with
  | none, _ => True
  | some _, none => False
  | some left, some right => left ≤ right

instance : DecidableRel LowLe := fun left right => by
  unfold LowLe
  split <;> infer_instance

def touches (previous next : Interval) : Bool :=
  match previous.high, next.low with
  | some high, some low => low ≤ high + 1
  | _, _ => true

def laterHigh (previous next : Interval) : Option ℤ :=
  match previous.high, next.high with
  | some left, some right => some (max left right)
  | _, _ => none

def mergeInto (previous : Interval) : List Interval → List Interval
  | [] => [previous]
  | next :: rest =>
    if touches previous next then mergeInto ⟨previous.low, laterHigh previous next⟩ rest
    else previous :: mergeInto next rest

def merged : List Interval → List Interval
  | [] => []
  | first :: rest => mergeInto first rest

def normalize (intervals : List Interval) : List Interval :=
  merged ((intervals.filter Interval.inhabited).insertionSort LowLe)

/-! ### The sets -/

def Interval.Contains (interval : Interval) (n : ℤ) : Prop :=
  (∀ low, interval.low = some low → low ≤ n) ∧ ∀ high, interval.high = some high → n ≤ high

def Covered (intervals : List Interval) (n : ℤ) : Prop := ∃ interval ∈ intervals, interval.Contains n

def Before (left right : Interval) : Prop := ∃ high low, left.high = some high ∧ right.low = some low ∧ high < low

/-- Sorted, disjoint and inhabited. -/
structure Normal (intervals : List Interval) : Prop where
  inhabited : ∀ interval ∈ intervals, interval.inhabited = true
  disjoint : intervals.Pairwise Before

section Basics

variable {n : ℤ} {interval one other previous next : Interval} {left right intervals : List Interval}

@[simp] theorem covered_nil : ¬ Covered [] n := fun ⟨_, h, _⟩ => absurd h List.not_mem_nil

@[simp] theorem covered_cons : Covered (interval :: intervals) n ↔ interval.Contains n ∨ Covered intervals n :=
  List.exists_mem_cons_iff _ _ _

theorem Interval.Contains.inhabited (h : interval.Contains n) : interval.inhabited = true := by
  unfold Interval.inhabited
  split
  · next low high hlow hhigh => exact decide_eq_true ((h.1 low hlow).trans (h.2 high hhigh))
  · rfl

theorem Normal.tail (h : Normal (interval :: intervals)) : Normal intervals :=
  ⟨fun i hi => h.inhabited i (List.mem_cons_of_mem _ hi), (List.pairwise_cons.1 h.disjoint).2⟩

theorem Normal.before (h : Normal (interval :: intervals)) : ∀ i ∈ intervals, Before interval i :=
  (List.pairwise_cons.1 h.disjoint).1

theorem normal_nil : Normal [] := ⟨fun _ h => absurd h List.not_mem_nil, .nil⟩

end Basics

/-! ### Normalising -/

section Normalize

variable {n : ℤ} {interval previous next : Interval} {intervals rest : List Interval}

instance : Std.Total LowLe where
  total a b := by
    unfold LowLe
    cases a.low <;> cases b.low <;> simp only [true_or, or_true, or_self]
    exact le_total _ _

instance : IsTrans Interval LowLe where
  trans a b c := by
    unfold LowLe
    cases a.low <;> cases b.low <;> cases c.low <;> simp
    exact le_trans

/-- What touches is merged into one interval. -/
theorem contains_merge (hlow : LowLe previous next) (htouches : touches previous next = true) :
    (⟨previous.low, laterHigh previous next⟩ : Interval).Contains n ↔ previous.Contains n ∨ next.Contains n := by
  obtain ⟨low, high⟩ := previous
  obtain ⟨low', high'⟩ := next
  unfold Interval.Contains
  unfold LowLe at hlow
  unfold touches at htouches
  unfold laterHigh
  cases low <;> cases high <;> cases low' <;> cases high' <;> simp at * <;> omega

theorem covered_mergeInto (h : (previous :: rest).Pairwise LowLe) :
    Covered (mergeInto previous rest) n ↔ previous.Contains n ∨ Covered rest n := by
  induction rest generalizing previous with
  | nil => rw [mergeInto, covered_cons]
  | cons next rest ih =>
    obtain ⟨hfirst, hrest⟩ := List.pairwise_cons.1 h
    rw [mergeInto, covered_cons]
    split
    · next htouches =>
      have hsorted : (⟨previous.low, laterHigh previous next⟩ :: rest : List Interval).Pairwise LowLe :=
        List.pairwise_cons.2 ⟨fun i hi => hfirst i (List.mem_cons_of_mem _ hi), (List.pairwise_cons.1 hrest).2⟩
      rw [ih hsorted, contains_merge (hfirst next List.mem_cons_self) htouches, or_assoc]
    · rw [covered_cons, ih hrest]

theorem low_mergeInto (h : interval ∈ mergeInto previous rest) : ∃ i ∈ previous :: rest, interval.low = i.low := by
  induction rest generalizing previous with
  | nil =>
    obtain rfl := List.mem_singleton.1 h
    exact ⟨_, List.mem_cons_self, rfl⟩
  | cons next rest ih =>
    rw [mergeInto] at h
    split at h
    · obtain ⟨i, hi, hlow⟩ := ih h
      rcases List.mem_cons.1 hi with rfl | hi
      · exact ⟨previous, List.mem_cons_self, hlow⟩
      · exact ⟨i, List.mem_cons_of_mem _ (List.mem_cons_of_mem _ hi), hlow⟩
    · rcases List.mem_cons.1 h with rfl | h
      · exact ⟨_, List.mem_cons_self, rfl⟩
      · obtain ⟨i, hi, hlow⟩ := ih h
        exact ⟨i, List.mem_cons_of_mem _ hi, hlow⟩

theorem inhabited_merge (hprevious : previous.inhabited = true) :
    (⟨previous.low, laterHigh previous next⟩ : Interval).inhabited = true := by
  obtain ⟨low, high⟩ := previous
  obtain ⟨low', high'⟩ := next
  unfold Interval.inhabited at *
  unfold laterHigh
  cases low <;> cases high <;> cases high' <;> simp at *
  omega

theorem before_of_not_touches {i : Interval} (h : touches previous next = false) (hle : LowLe next i) :
    Before previous i := by
  obtain ⟨low, high⟩ := previous
  obtain ⟨low', high'⟩ := next
  obtain ⟨low'', high''⟩ := i
  unfold touches at h
  unfold LowLe at hle
  cases high <;> cases low' <;> cases low'' <;> simp at *
  exact ⟨_, _, rfl, rfl, by omega⟩

theorem normal_mergeInto (h : (previous :: rest).Pairwise LowLe)
    (hinhabited : ∀ i ∈ previous :: rest, i.inhabited = true) : Normal (mergeInto previous rest) := by
  induction rest generalizing previous with
  | nil => exact ⟨hinhabited, List.pairwise_singleton _ _⟩
  | cons next rest ih =>
    obtain ⟨hfirst, hrest⟩ := List.pairwise_cons.1 h
    obtain ⟨hprevious, hnext⟩ := List.forall_mem_cons.1 hinhabited
    rw [mergeInto]
    split
    · refine ih (List.pairwise_cons.2 ⟨fun i hi => hfirst i (List.mem_cons_of_mem _ hi),
        (List.pairwise_cons.1 hrest).2⟩) ?_
      exact List.forall_mem_cons.2 ⟨inhabited_merge hprevious, (List.forall_mem_cons.1 hnext).2⟩
    · next htouches =>
      have hlater := ih hrest hnext
      refine ⟨List.forall_mem_cons.2 ⟨hprevious, hlater.inhabited⟩,
        List.pairwise_cons.2 ⟨fun i hi => ?_, hlater.disjoint⟩⟩
      obtain ⟨j, hj, hlow⟩ := low_mergeInto hi
      refine before_of_not_touches (Bool.eq_false_iff.2 htouches) ?_
      have hle : LowLe next j := by
        rcases List.mem_cons.1 hj with rfl | hj
        · exact (total_of LowLe j j).elim id id
        · exact (List.pairwise_cons.1 hrest).1 j hj
      unfold LowLe at hle ⊢
      rwa [hlow]

theorem pairwise_sorted (intervals : List Interval) : (intervals.insertionSort LowLe).Pairwise LowLe :=
  List.pairwise_insertionSort _ _

/-- **Normalising keeps the set.** -/
theorem covered_normalize : Covered (normalize intervals) n ↔ Covered intervals n := by
  have hsorted := pairwise_sorted (intervals.filter Interval.inhabited)
  have hmem : Covered ((intervals.filter Interval.inhabited).insertionSort LowLe) n ↔ Covered intervals n := by
    constructor
    · rintro ⟨i, hi, hn⟩
      exact ⟨i, (List.mem_filter.1 ((List.mem_insertionSort LowLe).1 hi)).1, hn⟩
    · rintro ⟨i, hi, hn⟩
      exact ⟨i, (List.mem_insertionSort LowLe).2 (List.mem_filter.2 ⟨hi, hn.inhabited⟩), hn⟩
  rw [← hmem]
  unfold normalize
  cases hlist : (intervals.filter Interval.inhabited).insertionSort LowLe with
  | nil => rfl
  | cons first rest =>
    rw [hlist] at hsorted
    rw [merged, covered_mergeInto hsorted, covered_cons]

theorem normal_normalize (intervals : List Interval) : Normal (normalize intervals) := by
  have hsorted := pairwise_sorted (intervals.filter Interval.inhabited)
  have hinhabited : ∀ i ∈ (intervals.filter Interval.inhabited).insertionSort LowLe, i.inhabited = true :=
    fun i hi => (List.mem_filter.1 ((List.mem_insertionSort LowLe).1 hi)).2
  unfold normalize
  cases hlist : (intervals.filter Interval.inhabited).insertionSort LowLe with
  | nil => exact normal_nil
  | cons first rest =>
    rw [hlist] at hsorted hinhabited
    exact normal_mergeInto hsorted hinhabited

end Normalize

/-! ### Normal forms -/

section Canonical

variable {n : ℤ} {i j previous : Interval} {left right rest : List Interval}

/-- An integer lies between two intervals. -/
def Apart (i j : Interval) : Prop := ∃ high low, i.high = some high ∧ j.low = some low ∧ high + 1 < low

theorem apart_mergeInto (h : (previous :: rest).Pairwise LowLe) : (mergeInto previous rest).Pairwise Apart := by
  induction rest generalizing previous with
  | nil => exact List.pairwise_singleton _ _
  | cons next rest ih =>
    obtain ⟨hfirst, hrest⟩ := List.pairwise_cons.1 h
    rw [mergeInto]
    split
    · exact ih (List.pairwise_cons.2 ⟨fun i hi => hfirst i (List.mem_cons_of_mem _ hi), (List.pairwise_cons.1 hrest).2⟩)
    · next htouches =>
      refine List.pairwise_cons.2 ⟨fun i hi => ?_, ih hrest⟩
      obtain ⟨j, hj, hlow⟩ := low_mergeInto hi
      have hle : LowLe next j := by
        rcases List.mem_cons.1 hj with rfl | hj
        · exact (total_of LowLe j j).elim id id
        · exact (List.pairwise_cons.1 hrest).1 j hj
      unfold touches at htouches
      unfold LowLe at hle
      cases hhigh : previous.high <;> cases hnext : next.low <;> cases hlower : j.low <;> simp_all [Apart]
      omega

theorem apart_normalize (intervals : List Interval) : (normalize intervals).Pairwise Apart := by
  have hsorted := pairwise_sorted (intervals.filter Interval.inhabited)
  unfold normalize
  cases hlist : (intervals.filter Interval.inhabited).insertionSort LowLe with
  | nil => exact .nil
  | cons first rest => exact apart_mergeInto (hlist ▸ hsorted)

/-- The first interval holds the least integer. -/
theorem low_le (h : Normal (i :: rest)) (hn : Covered (i :: rest) n) {low : ℤ} (hlow : i.low = some low) : low ≤ n := by
  rcases covered_cons.1 hn with hn | ⟨j, hj, hn⟩
  · exact hn.1 low hlow
  · obtain ⟨high, low', hhigh, hlow', hlt⟩ := h.before j hj
    have := hn.1 low' hlow'
    have hinhabited := h.inhabited i List.mem_cons_self
    simp only [Interval.inhabited, hlow, hhigh, decide_eq_true_eq] at hinhabited
    omega

theorem not_covered_next (h : (i :: rest).Pairwise Apart) {high : ℤ} (hhigh : i.high = some high) (hn : high < n)
    (hle : n ≤ high + 1) : ¬ Covered (i :: rest) n := by
  intro hcovered
  rcases covered_cons.1 hcovered with hi | ⟨j, hj, hi⟩
  · have := hi.2 high hhigh
    omega
  · obtain ⟨high', low, hhigh', hlow, hlt⟩ := (List.pairwise_cons.1 h).1 j hj
    have := hi.1 low hlow
    simp_all
    omega

theorem contains_low (h : i.inhabited = true) {low : ℤ} (hlow : i.low = some low) : i.Contains low := by
  refine ⟨fun _ he => by simp_all, fun high hhigh => ?_⟩
  simpa [Interval.inhabited, hlow, hhigh] using h

theorem exists_contains_le (hlow : i.low = none) (bound : ℤ) : ∃ n ≤ bound, i.Contains n := by
  refine ⟨min (i.high.getD bound) bound, min_le_right _ _, by simp [hlow], ?_⟩
  intro high hhigh
  simp [hhigh]

theorem low_le_low (hleft : Normal (i :: left)) (hright : Normal (j :: right))
    (h : ∀ n, Covered (j :: right) n → Covered (i :: left) n) {low : ℤ} (hlow : i.low = some low) :
    ∃ low', j.low = some low' ∧ low ≤ low' := by
  have hfirst : ∀ n, j.Contains n → low ≤ n := fun n hn => low_le hleft (h n (covered_cons.2 (.inl hn))) hlow
  cases hlow' : j.low with
  | some low' => exact ⟨low', rfl, hfirst low' (contains_low (hright.inhabited j List.mem_cons_self) hlow')⟩
  | none =>
    obtain ⟨n, hle, hn⟩ := exists_contains_le hlow' (low - 1)
    have := hfirst n hn
    omega

theorem high_le_high (hleft : Normal (i :: left)) (hapart : (i :: left).Pairwise Apart) (hlow : i.low = j.low)
    (h : ∀ n, Covered (j :: right) n → Covered (i :: left) n) {high : ℤ} (hhigh : i.high = some high) :
    ∃ high', j.high = some high' ∧ high' ≤ high := by
  by_contra hnot
  refine not_covered_next hapart hhigh (by omega) le_rfl (h _ (covered_cons.2 (.inl ⟨fun low hlow' => ?_,
    fun high' hhigh' => not_lt.1 fun hlt => hnot ⟨high', hhigh', by omega⟩⟩)))
  have := (contains_low (hleft.inhabited i List.mem_cons_self) (hlow.trans hlow')).2 high hhigh
  omega

theorem not_covered_tail (h : Normal (i :: left)) (hn : i.Contains n) : ¬ Covered left n := by
  rintro ⟨j, hj, hn'⟩
  obtain ⟨high, low, hhigh, hlow, hlt⟩ := h.before j hj
  have := hn.2 high hhigh
  have := hn'.1 low hlow
  omega

theorem exists_covered (h : Normal (i :: left)) : ∃ n, Covered (i :: left) n := by
  cases hlow : i.low with
  | some low => exact ⟨low, covered_cons.2 (.inl (contains_low (h.inhabited i List.mem_cons_self) hlow))⟩
  | none =>
    obtain ⟨n, -, hn⟩ := exists_contains_le hlow 0
    exact ⟨n, covered_cons.2 (.inl hn)⟩

theorem end_eq {r : ℤ → ℤ → Prop} (hr : ∀ x y, r x y → r y x → x = y) {a b : Option ℤ}
    (h : ∀ {x}, a = some x → ∃ y, b = some y ∧ r x y) (h' : ∀ {y}, b = some y → ∃ x, a = some x ∧ r y x) : a = b := by
  cases a <;> cases b <;> simp_all
  exact hr _ _ h h'

theorem eq_of_covered (hleft : Normal left) (hapart : left.Pairwise Apart) (hright : Normal right)
    (hapart' : right.Pairwise Apart) (h : ∀ n, Covered left n ↔ Covered right n) : left = right := by
  induction left generalizing right with
  | nil =>
    cases right with
    | nil => rfl
    | cons j right =>
      obtain ⟨n, hn⟩ := exists_covered hright
      exact absurd ((h n).2 hn) covered_nil
  | cons i left ih =>
    cases right with
    | nil =>
      obtain ⟨n, hn⟩ := exists_covered hleft
      exact absurd ((h n).1 hn) covered_nil
    | cons j right =>
      have hlow : i.low = j.low := end_eq (fun _ _ => le_antisymm) (low_le_low hleft hright fun n => (h n).2)
        (low_le_low hright hleft fun n => (h n).1)
      have hhigh : i.high = j.high := end_eq (fun _ _ => ge_antisymm) (high_le_high hleft hapart hlow fun n => (h n).2)
        (high_le_high hright hapart' hlow.symm fun n => (h n).1)
      obtain rfl : i = j := by
        cases i
        simp_all
      refine congrArg _ (ih hleft.tail hapart.tail hright.tail hapart'.tail fun n => ?_)
      have hn := h n
      rw [covered_cons, covered_cons] at hn
      by_cases hi : i.Contains n
      · simp [not_covered_tail hleft hi, not_covered_tail hright hi]
      · simpa [hi] using hn

/-- **Normal forms are canonical**: two lists of intervals have one normal form exactly when they are one set. -/
theorem normalize_eq_iff : normalize left = normalize right ↔ ∀ n, Covered left n ↔ Covered right n := by
  constructor
  · intro h n
    rw [← covered_normalize, h, covered_normalize]
  · intro h
    exact eq_of_covered (normal_normalize _) (apart_normalize _) (normal_normalize _) (apart_normalize _) fun n => by
      rw [covered_normalize, covered_normalize, h]

end Canonical

end Blot.Refinement
