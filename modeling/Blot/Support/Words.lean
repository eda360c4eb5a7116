import Mathlib.Order.RelClasses

/-!
# Periods of words and critical positions

A word of length `n` is the first `n` letters of a sequence `x`.

* `Period`, `Repeats` — a period of the word, and a repetition across a position;
* `Loses`, `Greatest` — a suffix that another one exceeds, and the suffix that no other exceeds;
* `Scan` — the invariant of a search for the greatest suffix and its shortest period, and the steps of the search;
* `Repeats.period` — the later of the greatest suffixes for an order and for its reverse starts at a critical position:
  a repetition across it is a period of the word;
* `Plan` — how far a search for the word may shift, and what it may remember.
-/

namespace Blot.Support.Words

variable {α : Type} {below : α → α → Prop} {x text : ℕ → α} {n i j k c t p r s d m : ℕ}

/-! ### Periods -/

/-- Letters `p` places apart are the same. -/
def Period (x : ℕ → α) (n p : ℕ) : Prop := ∀ j, j + p < n → x j = x (j + p)

/-- Letters `r` places apart on the two sides of the position `k` are the same. -/
def Repeats (x : ℕ → α) (n k r : ℕ) : Prop := ∀ j, j < k → k ≤ j + r → j + r < n → x j = x (j + r)

/-- A period of the word from the position `k` on. -/
def PeriodFrom (x : ℕ → α) (n k p : ℕ) : Prop := ∀ j, k ≤ j → j + p < n → x j = x (j + p)

theorem Period.from (h : Period x n p) : PeriodFrom x n k p := fun j _ => h j

theorem Period.repeats (h : Period x n p) : Repeats x n k p := fun j _ _ => h j

theorem PeriodFrom.mul (h : PeriodFrom x n k p) (q : ℕ) (hj : k ≤ j) (hlt : j + p * q < n) : x j = x (j + p * q) := by
  induction q with
  | zero => rfl
  | succ q ih =>
    rw [Nat.mul_succ] at hlt
    rw [ih (by omega), Nat.mul_succ, ← Nat.add_assoc]
    exact h _ (by omega) (by omega)

/-! ### Suffixes -/

/-- The suffix at `s` differs from the suffix at `i`, and where it first does its letter comes before. -/
def Loses (below : α → α → Prop) (x : ℕ → α) (n s i : ℕ) : Prop :=
  ∃ d, s + d < n ∧ i + d < n ∧ (∀ e < d, x (s + e) = x (i + e)) ∧ below (x (s + d)) (x (i + d))

/-- The suffix at `i` starts with the suffix at `s`. -/
def Begins (x : ℕ → α) (n s i : ℕ) : Prop := ∀ e, s + e < n → x (s + e) = x (i + e)

/-- No suffix exceeds the one at `i`. -/
structure Greatest (below : α → α → Prop) (x : ℕ → α) (n i : ℕ) : Prop where
  before : ∀ s < i, Loses below x n s i
  after : ∀ s, i < s → s < n → Loses below x n s i ∨ Begins x n s i

section Order

variable [IsStrictOrder α below]

theorem Loses.asymm (h : Loses below x n s i) : ¬ Loses below x n i s := by
  rintro ⟨d', -, -, hagree', hlt'⟩
  obtain ⟨d, -, -, hagree, hlt⟩ := h
  rcases Nat.lt_trichotomy d d' with hd | rfl | hd
  · rw [hagree' d hd] at hlt
    exact irrefl_of below _ hlt
  · exact irrefl_of below _ (trans_of below hlt hlt')
  · rw [hagree d' hd] at hlt'
    exact irrefl_of below _ hlt'

theorem Greatest.not_loses (h : Greatest below x n i) (hne : s ≠ i) : ¬ Loses below x n i s := by
  intro hloses
  rcases Nat.lt_or_gt_of_ne hne with hlt | hgt
  · exact (h.before s hlt).asymm hloses
  · obtain ⟨d, -, hd, hagree, hlt⟩ := hloses
    rcases h.after s hgt (by omega) with hlost | hbegins
    · exact hlost.asymm ⟨d, by omega, hd, hagree, hlt⟩
    · rw [hbegins d hd] at hlt
      exact irrefl_of below _ hlt

/-! ### Critical positions -/

/-- A repetition across the greatest suffix reaches over the start of the word. -/
theorem Repeats.reaches (h : Greatest below x n k) (hr : 0 < r) (hrep : Repeats x n k r) : k < r := by
  by_contra hle
  obtain ⟨d, -, hd, hagree, hlt⟩ := h.before (k - r) (by omega)
  have hsame : ∀ e < r, k + e < n → x (k - r + e) = x (k + e) := by
    intro e he hn
    have hstep := hrep (k - r + e) (by omega) (by omega) (by omega)
    rwa [show k - r + e + r = k + e by omega] at hstep
  by_cases hdr : d < r
  · rw [hsame d hdr hd] at hlt
    exact irrefl_of below _ hlt
  · -- The suffix after the repetition would exceed the greatest one.
    refine h.not_loses (s := k + r) (by omega) ⟨d - r, by omega, by omega, fun e he => ?_, ?_⟩
    · have hstep := hagree (r + e) (by omega)
      rw [show k - r + (r + e) = k + e by omega] at hstep
      rw [hstep, Nat.add_assoc]
    · rw [show k + (d - r) = k - r + d by omega, show k + r + (d - r) = k + d by omega]
      exact hlt

/-- **Critical factorization**: a repetition across the later of the two greatest suffixes is a period of the word. -/
theorem Repeats.period (h : Greatest below x n k) (h' : Greatest (Function.swap below) x n i) (hle : i ≤ k) (hr : 0 < r)
    (hrep : Repeats x n k r) : Period x n r := by
  have hlt := hrep.reaches h hr
  have hleft : ∀ j, j < k → j + r < n → x j = x (j + r) := fun j hj => hrep j hj (by omega)
  have hbegins : k + r < n → Begins x n (k + r) k := by
    intro hn
    rcases h.after (k + r) (by omega) hn with hloses | hbegins
    · -- Then the suffix `r` places after the greatest one of the reverse order exceeds that one.
      obtain ⟨d, hd, hkd, hagree, hless⟩ := hloses
      refine absurd ⟨k - i + d, by omega, by omega, fun e he => ?_, ?_⟩ (h'.not_loses (s := i + r) (by omega))
      · by_cases hek : i + e < k
        · have hstep := hleft (i + e) hek (by omega)
          rw [hstep, Nat.add_right_comm]
        · have hstep := hagree (i + e - k) (by omega)
          rw [show k + r + (i + e - k) = i + r + e by omega, show k + (i + e - k) = i + e by omega] at hstep
          exact hstep.symm
      · rw [show i + (k - i + d) = k + d by omega, show i + r + (k - i + d) = k + r + d by omega]
        exact hless
    · exact hbegins
  intro j hj
  by_cases hjk : j < k
  · exact hleft j hjk hj
  · have hstep := hbegins (by omega) (j - k) (by omega)
    rw [show k + r + (j - k) = j + r by omega, show k + (j - k) = j by omega] at hstep
    exact hstep.symm

end Order

/-! ### The search for the greatest suffix -/

/-- The state of a search: the suffix at `i` is the greatest so far, `p` is the shortest period of what has been read of
it, and the suffix at `c` agrees with it for `t` letters. -/
structure Scan (below : α → α → Prop) (x : ℕ → α) (n i c t p : ℕ) : Prop where
  lt : i < c
  le : c + t ≤ n
  pos : 0 < p
  small : t < p
  whole : p ∣ c - i
  period : PeriodFrom x (c + t) i p
  primitive : ∀ e, 0 < e → e < p →
    ∃ d, e + d < p ∧ (∀ f < d, x (i + e + f) = x (i + f)) ∧ below (x (i + e + d)) (x (i + d))
  before : ∀ s < i, Loses below x n s i

theorem Scan.start (hn : 0 < n) : Scan below x n 0 1 0 1 where
  lt := Nat.one_pos
  le := hn
  pos := Nat.one_pos
  small := Nat.one_pos
  whole := Nat.one_dvd _
  period j _ hlt := by omega
  primitive e hpos hlt := by omega
  before s hs := absurd hs (Nat.not_lt_zero s)

theorem Scan.le_shift (h : Scan below x n i c t p) : i + p ≤ c := by
  have hle := Nat.le_of_dvd (Nat.sub_pos_of_lt h.lt) h.whole
  have hlt := h.lt
  omega

/-- The candidate agrees with the suffix. -/
theorem Scan.agree (h : Scan below x n i c t p) {e : ℕ} (he : e < t) : x (i + e) = x (c + e) := by
  obtain ⟨q, hq⟩ := h.whole
  have hlt := h.lt
  rw [h.period.mul q (Nat.le_add_right i e) (by omega)]
  congr 1
  omega

/-- What has been read at distance `e` is what is read at the remainder of `e`. -/
theorem Scan.mod (h : Scan below x n i c t p) {e f : ℕ} (hlt : i + e + f < c + t) :
    x (i + e + f) = x (i + e % p + f) := by
  have hdiv := Nat.mod_add_div e p
  rw [h.period.mul (e / p) (show i ≤ i + e % p + f by omega) (by omega)]
  congr 1
  omega

theorem Scan.period_succ (h : Scan below x n i c t p) (heq : x (c + t) = x (i + t)) : PeriodFrom x (c + t + 1) i p := by
  intro j hj hlt
  obtain ⟨q, hq⟩ := h.whole
  have hle := h.le_shift
  by_cases hread : j + p < c + t
  · exact h.period j hj hread
  · rw [show j + p = c + t by omega, heq]
    cases q with
    | zero =>
      have hpos := h.lt
      rw [Nat.mul_zero] at hq
      omega
    | succ q =>
      rw [Nat.mul_succ] at hq
      rw [h.period.mul q (show i ≤ i + t by omega) (by have hpos := h.pos; omega)]
      congr 1
      omega

theorem Scan.next (h : Scan below x n i c t p) (hn : c + t < n) (heq : x (c + t) = x (i + t)) (hp : t + 1 < p) :
    Scan below x n i c (t + 1) p where
  lt := h.lt
  le := hn
  pos := h.pos
  small := hp
  whole := h.whole
  period := h.period_succ heq
  primitive := h.primitive
  before := h.before

/-- The candidate agrees for a whole period: the next candidate comes after it. -/
theorem Scan.wrap (h : Scan below x n i c t p) (hn : c + t < n) (heq : x (c + t) = x (i + t)) (hp : t + 1 = p) :
    Scan below x n i (c + p) 0 p where
  lt := Nat.lt_add_right p h.lt
  le := by omega
  pos := h.pos
  small := h.pos
  whole := by
    have hlt := h.lt
    rw [show c + p - i = c - i + p by omega]
    exact Nat.dvd_add_right h.whole |>.2 (Nat.dvd_refl p)
  period := by
    have hperiod := h.period_succ heq
    rwa [Nat.add_assoc, hp] at hperiod
  primitive := h.primitive
  before := h.before

theorem Scan.greatest (h : Scan below x n i c t p) (hend : c + t = n) : Greatest below x n i where
  before := h.before
  after := by
    intro s hs hn
    obtain ⟨e, rfl⟩ := Nat.exists_eq_add_of_le (Nat.le_of_lt hs)
    by_cases hzero : e % p = 0
    · refine .inr fun f hf => ?_
      rw [h.mod (by omega), hzero, Nat.add_zero]
    · obtain ⟨d, hdp, hagree, hless⟩ := h.primitive (e % p) (Nat.pos_of_ne_zero hzero) (Nat.mod_lt e h.pos)
      by_cases hd : i + e + d < n
      · refine .inl ⟨d, hd, by omega, fun f hf => ?_, ?_⟩
        · rw [h.mod (by omega)]
          exact hagree f hf
        · rw [h.mod (by omega)]
          exact hless
      · refine .inr fun f hf => ?_
        rw [h.mod (by omega)]
        exact hagree f (by omega)

section Order

variable [IsStrictOrder α below]

/-- The candidate's next letter comes before: the candidate is no greatest suffix, nor is any inside it. -/
theorem Scan.lose (h : Scan below x n i c t p) (hn : c + t < n) (hless : below (x (c + t)) (x (i + t))) :
    Scan below x n i (c + t + 1) 0 (c + t + 1 - i) where
  lt := by have hlt := h.lt; omega
  le := hn
  pos := by have hlt := h.lt; omega
  small := by have hlt := h.lt; omega
  whole := Nat.dvd_refl _
  period j hj hlt := by omega
  before := h.before
  primitive := by
    intro e hpos hlt
    obtain ⟨q, hq⟩ := h.whole
    have hic := h.lt
    have hsmall := h.small
    have hdiv := Nat.mod_add_div e p
    have hrem := Nat.mod_lt e h.pos
    -- The letter that the period predicts after the candidate is the one that comes after it.
    have hnext : ∀ d, i + e + d = c + t → e % p + d < p → x (i + t) = x (i + e % p + d) := by
      intro d hd hp
      have hmod : (e % p + d) % p = t % p := by
        rw [Nat.mod_add_mod, show e + d = t + p * q by omega, Nat.add_mul_mod_self_left]
      rw [Nat.mod_eq_of_lt hp, Nat.mod_eq_of_lt hsmall] at hmod
      rw [Nat.add_assoc, hmod]
    by_cases hzero : e % p = 0
    · -- The suffix agrees up to the end of what was read.
      refine ⟨c + t - i - e, by omega, fun f hf => ?_, ?_⟩
      · rw [h.mod (by omega), hzero, Nat.add_zero]
      · have hread := h.mod (e := c + t - i - e) (f := 0) (by omega)
        have hmod : (c + t - i - e) % p = t := by
          have hmul : c + t - i - e + p * (e / p) = t + p * q := by omega
          have hcongr := congrArg (· % p) hmul
          simp only [Nat.add_mul_mod_self_left] at hcongr
          rwa [Nat.mod_eq_of_lt hsmall] at hcongr
        rw [show i + e + (c + t - i - e) = c + t by omega]
        rw [Nat.add_zero, Nat.add_zero, hmod] at hread
        rwa [hread]
    · obtain ⟨d, hdp, hagree, hdless⟩ := h.primitive (e % p) (Nat.pos_of_ne_zero hzero) hrem
      by_cases hin : i + e + d < c + t
      · refine ⟨d, by omega, fun f hf => ?_, ?_⟩
        · rw [h.mod (by omega)]
          exact hagree f hf
        · rw [h.mod hin]
          exact hdless
      · refine ⟨c + t - i - e, by omega, fun f hf => ?_, ?_⟩
        · rw [h.mod (by omega)]
          exact hagree f (by omega)
        · have hpredict := hnext (c + t - i - e) (by omega) (by omega)
          rw [show i + e + (c + t - i - e) = c + t by omega]
          rcases Nat.lt_or_eq_of_le (show c + t - i - e ≤ d by omega) with hd | hd
          · rwa [hpredict, hagree _ hd] at hless
          · rw [hd] at hpredict ⊢
            rw [hpredict] at hless
            exact trans_of below hless hdless

/-- The candidate's next letter comes after: every suffix before the candidate is exceeded by it. -/
theorem Scan.beaten (h : Scan below x n i c t p) (hn : c + t < n) (hmore : below (x (i + t)) (x (c + t))) (hs : s < c)
    (hagree : ∀ e < d, x (s + e) = x (i + e)) (hlt : t < d ∨ below (x (s + d)) (x (i + d))) : Loses below x n s c := by
  by_cases hdt : d < t
  · refine ⟨d, by omega, by omega, fun e he => ?_, ?_⟩
    · rw [hagree e he]
      exact h.agree (by omega)
    · rw [← h.agree hdt]
      exact hlt.resolve_left (by omega)
  · refine ⟨t, by omega, hn, fun e he => ?_, ?_⟩
    · rw [hagree e (by omega)]
      exact h.agree he
    · rcases Nat.lt_or_eq_of_le (Nat.le_of_not_lt hdt) with htd | rfl
      · rwa [hagree t htd]
      · exact trans_of below (hlt.resolve_left (Nat.lt_irrefl t)) hmore

/-- The candidate's next letter comes after: the search goes on from the candidate. -/
theorem Scan.win (h : Scan below x n i c t p) (hn : c + t < n) (hmore : below (x (i + t)) (x (c + t))) :
    Scan below x n c (c + 1) 0 1 where
  lt := Nat.lt_succ_self c
  le := by omega
  pos := Nat.one_pos
  small := Nat.one_pos
  whole := Nat.one_dvd _
  period j hj hlt := by omega
  primitive e hpos hlt := by omega
  before := by
    intro s hs
    by_cases hsi : s < i
    · obtain ⟨d, -, -, hagree, hless⟩ := h.before s hsi
      exact h.beaten hn hmore hs hagree (.inr hless)
    · obtain ⟨e, rfl⟩ := Nat.exists_eq_add_of_le (Nat.le_of_not_lt hsi)
      by_cases hzero : e % p = 0
      · refine h.beaten (d := t + 1) hn hmore hs (fun f hf => ?_) (.inl (Nat.lt_succ_self t))
        rw [h.mod (by omega), hzero, Nat.add_zero]
      · obtain ⟨d, hdp, hagree, hless⟩ := h.primitive (e % p) (Nat.pos_of_ne_zero hzero) (Nat.mod_lt e h.pos)
        have hread : i + e + d < c + t := by
          obtain ⟨q, hq⟩ := h.whole
          have hdiv := Nat.mod_add_div e p
          have hmul : e / p < q := Nat.div_lt_of_lt_mul (by omega)
          have hle := Nat.mul_le_mul_left p hmul
          rw [Nat.mul_succ] at hle
          have hic := h.lt
          omega
        refine h.beaten (d := d) hn hmore hs (fun f hf => ?_) (.inr ?_)
        · rw [h.mod (by omega)]
          exact hagree f hf
        · rw [h.mod hread]
          exact hless

theorem Scan.least (h : Scan below x n i c t p) (hr : 0 < r) (hperiod : PeriodFrom x n i r) : p ≤ r := by
  by_contra hlt
  obtain ⟨d, hd, -, hless⟩ := h.primitive r hr (by omega)
  have hle := h.le_shift
  have hn := h.le
  have hsame := hperiod (i + d) (Nat.le_add_right i d) (by omega)
  rw [show i + r + d = i + d + r by omega, ← hsame] at hless
  exact irrefl_of below _ hless

end Order

/-! ### Shifts -/

/-- The right half of the word from the position `k` on: its shortest period is `p`, and `k` is critical. -/
structure Factor (x : ℕ → α) (n k p : ℕ) : Prop where
  pos : 0 < p
  le : k + p ≤ n
  period : PeriodFrom x n k p
  least : ∀ r, 0 < r → PeriodFrom x n k r → p ≤ r
  critical : ∀ r, 0 < r → Repeats x n k r → k < r ∧ Period x n r

theorem Scan.factor [IsStrictOrder α below] {i' c' t' p' : ℕ} (h : Scan below x n i c t p) (hend : c + t = n)
    (h' : Scan (Function.swap below) x n i' c' t' p') (hend' : c' + t' = n) (hle : i' ≤ i) : Factor x n i p where
  pos := h.pos
  le := Nat.le_trans h.le_shift (by omega)
  period := hend ▸ h.period
  least r hr hperiod := h.least hr hperiod
  critical r hr hrep :=
    ⟨hrep.reaches (h.greatest hend) hr, hrep.period (h.greatest hend) (h'.greatest hend') hle hr⟩

/-- What a search for the word goes by: the critical position `k`, the shift `p` after a match of the right half, and
the length `m` of the prefix that is known to match after it. -/
structure Plan (x : ℕ → α) (n k p m : ℕ) : Prop where
  lt : k < n
  le_shift : k ≤ p
  pos : 0 < p
  shift_le : p ≤ n
  critical : ∀ r, 0 < r → Repeats x n k r → Period x n r
  shift : ∀ r, 0 < r → Repeats x n k r → p ≤ r
  memory : m = 0 ∨ m + p = n ∧ Period x n p

/-- The left half continues the period of the right half. -/
theorem Factor.plan_periodic (h : Factor x n k p) (htest : ∀ j < k, x j = x (j + p)) : Plan x n k p (n - p) := by
  have hperiod : Period x n p := by
    intro j hj
    by_cases hjk : j < k
    · exact htest j hjk
    · exact h.period j (Nat.le_of_not_lt hjk) hj
  have hpos := h.pos
  have hle := h.le
  exact ⟨by omega, Nat.le_of_lt (h.critical p hpos hperiod.repeats).1, hpos, by omega,
    fun r hr hrep => (h.critical r hr hrep).2, fun r hr hrep => h.least r hr (h.critical r hr hrep).2.from,
    .inr ⟨by omega, hperiod⟩⟩

/-- A repetition inside the right half would continue its period into the left half. -/
theorem Factor.test_of_repeats (h : Factor x n k p) (hr : 0 < r) (hrep : Repeats x n k r) (hle : r ≤ n - k) :
    ∀ j < k, x j = x (j + p) := by
  obtain ⟨hkr, hperiod⟩ := h.critical r hr hrep
  have hpr := h.least r hr hperiod.from
  have hpos := h.pos
  have hdiv := Nat.mod_add_div r p
  have hmod := Nat.mod_lt r hpos
  have hzero : r % p = 0 := by
    by_contra hne
    have hrem : Repeats x n k (r % p) := by
      intro j hj hk hn
      rw [hperiod j (by omega), h.period.mul (r / p) hk (by omega)]
      congr 1
      omega
    have hshort := h.least (r % p) (Nat.pos_of_ne_zero hne) (h.critical _ (Nat.pos_of_ne_zero hne) hrem).2.from
    omega
  intro j hj
  rw [hperiod j (by omega)]
  by_cases hjk : j + p < k
  · rw [hperiod (j + p) (by omega), h.period (j + r) (by omega) (by omega)]
    congr 1
    omega
  · obtain ⟨q, hq⟩ : ∃ q, r / p = q + 1 := Nat.exists_eq_succ_of_ne_zero (Nat.ne_of_gt (Nat.div_pos hpr hpos))
    rw [hq, Nat.mul_succ] at hdiv
    rw [h.period.mul q (Nat.le_of_not_lt hjk) (by omega)]
    congr 1
    omega

/-- The left half does not continue the period: the shift is as long as either half. -/
theorem Factor.plan (h : Factor x n k p) (htest : ∃ j < k, x j ≠ x (j + p)) :
    Plan x n k (max k (n - k + 1)) 0 := by
  obtain ⟨j, hj, hne⟩ := htest
  have hle := h.le
  have hpos := h.pos
  refine ⟨by omega, by omega, by omega, by omega, fun r hr hrep => (h.critical r hr hrep).2, fun r hr hrep => ?_,
    .inl rfl⟩
  have hkr := (h.critical r hr hrep).1
  have hlong : ¬ r ≤ n - k := fun hshort => hne (h.test_of_repeats hr hrep hshort j hj)
  omega

/-! ### Occurrences -/

/-- The word stands in the text at `s`. -/
def Occurs (x : ℕ → α) (n : ℕ) (text : ℕ → α) (s : ℕ) : Prop := ∀ j < n, text (s + j) = x j

/-- The right half of the word stands in the text at `s` up to the letter `j`. -/
def MatchesFrom (x : ℕ → α) (text : ℕ → α) (s k j : ℕ) : Prop := ∀ e, k ≤ e → e < j → text (s + e) = x e

/-- An occurrence a little further repeats the right half. -/
theorem MatchesFrom.repeats (h : MatchesFrom x text s k j) (hdj : k + d ≤ j ∨ j = n) (hoccurs : Occurs x n text (s + d)) :
    Repeats x n k d := by
  intro e hek hke hn
  have hthere := hoccurs e (by omega)
  have hhere := h (e + d) hke (by omega)
  rw [← hthere, ← hhere]
  congr 1
  omega

/-- **After a mismatch in the right half** the word stands at none of the places that are skipped. -/
theorem Plan.skip (h : Plan x n k p m) (hmatch : MatchesFrom x text s k j) (hj : j < n) (hmiss : text (s + j) ≠ x j)
    (hd : d ≤ j - k) (hkj : k ≤ j) : ¬ Occurs x n text (s + d) := by
  intro hoccurs
  rcases Nat.eq_zero_or_pos d with rfl | hpos
  · exact hmiss (hoccurs j hj)
  · have hperiod := h.critical d hpos (hmatch.repeats (.inl (by omega)) hoccurs)
    have hthere := hoccurs (j - d) (by omega)
    rw [show s + d + (j - d) = s + j by omega, hperiod (j - d) (by omega), show j - d + d = j by omega] at hthere
    exact hmiss hthere

/-- **After a match of the right half** the word stands at none of the places that the shift skips. -/
theorem Plan.not_occurs (h : Plan x n k p m) (hmatch : MatchesFrom x text s k n) (hpos : 0 < d) (hd : d < p) :
    ¬ Occurs x n text (s + d) := by
  intro hoccurs
  have hle := h.shift d hpos (hmatch.repeats (.inr rfl) hoccurs)
  omega

theorem Plan.remember (h : Plan x n k p m) (hmatch : MatchesFrom x text s k n) : MatchesFrom x text (s + p) 0 m := by
  intro e _ he
  rcases h.memory with rfl | ⟨hm, hperiod⟩
  · exact absurd he (Nat.not_lt_zero e)
  · have hle := h.le_shift
    rw [hperiod e (by omega), ← hmatch (e + p) (by omega) (by omega)]
    congr 1
    omega

end Blot.Support.Words
