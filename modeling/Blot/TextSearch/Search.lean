import Mathlib.Order.Bounds.Defs
import Blot.TextSearch.Suffix

/-!
# The search finds the first occurrence

* `runs_test`, `runs_plan` — the test of the period, and what the search goes by;
* `runs_right`, `runs_left` — the comparisons of the two halves of the query;
* `Searching` — the invariant of the search;
* `search_finds` — the result of a call is the first occurrence, or −1 where there is none.
-/

namespace Blot.TextSearch

open Blot.Support.Wasm Blot.Support.Words

variable {input : Input} {r : Locals} {reads : List ℕ} {rest : Code} {Q : Outcome → State → Prop} {k p m s j : ℕ}

/-! ### What the search goes by -/

/-- **The test of the period**: the index comes to the critical position, or stops before it at a difference. -/
theorem runs_test (hr : r.Of input) (hcritical : r.critical.toNat = k) (hperiod : r.period.toNat = p)
    (hle : k + p ≤ input.query.length)
    (h : ∀ index reads, (index.toNat = k ∧ ∀ e < k, letters input.query e = letters input.query (e + p)) ∨
      (index.toNat < k ∧ ∃ e < k, letters input.query e ≠ letters input.query (e + p)) →
        Runs input.memory input.inside rest ({ r with index }.state reads) Q) :
    Runs input.memory input.inside (.ops [.i32Const 0, .localSet Local.index] <| .block (.loop testRound .done) rest)
      (r.state reads) Q := by
  have hbound := input.holdsQuery.le
  have hshort := input.queryShort
  have hquery := congrArg UInt32.toNat hr.query
  refine runs_ops rfl rfl (runs_block (runs_loop (fun measure s => ∃ index reads, s = { r with index }.state reads ∧
    index.toNat ≤ k ∧ (∀ e < index.toNat, letters input.query e = letters input.query (e + p)) ∧
      measure = k - index.toNat) k ⟨0, reads, rfl, Nat.zero_le k, fun e he => absurd he (Nat.not_lt_zero e), rfl⟩ ?_))
  rintro measure s ⟨index, reads, rfl, hindex, hsame, rfl⟩
  refine runs_ops rfl rfl (runs_brIf rfl (fun hend => ?_) fun hgo => ?_)
  · have hge : r.critical.toNat ≤ index.toNat := hend
    have heq : index.toNat = k := by omega
    exact h index reads (.inl ⟨heq, heq ▸ hsame⟩)
  have hlt : ¬ r.critical.toNat ≤ index.toNat := hgo
  refine runs_ops rfl rfl (runs_queryByte (i := index.toNat) (by omega) ?_ fun left reads hleft => ?_)
  · show (r.query + index).toNat = _
    rw [UInt32.toNat_add]
    omega
  refine runs_ops rfl rfl (runs_queryByte (i := index.toNat + p) (by omega) ?_ fun right reads hright => ?_)
  · show (r.query + r.period + index).toNat = _
    rw [UInt32.toNat_add, UInt32.toNat_add]
    omega
  refine runs_ops rfl rfl (runs_brIf rfl (fun hne => ?_) fun heq => ?_)
  · have hne : ¬ left = right := hne
    rw [← UInt32.toNat_inj, hleft, hright] at hne
    exact h index reads (.inr ⟨by omega, index.toNat, by omega, hne⟩)
  · have heq : left = right := Decidable.not_not.mp heq
    rw [← UInt32.toNat_inj, hleft, hright] at heq
    have hnext := toNat_succ (a := index) (by omega)
    refine runs_ops rfl rfl (runs_br ⟨k - (index + 1).toNat, by omega, index + 1, reads, rfl, by omega, ?_, rfl⟩)
    intro e he
    rcases Nat.lt_or_eq_of_le (show e ≤ index.toNat by omega) with hlt | rfl
    · exact hsame e hlt
    · exact heq

/-- The locals say what the search goes by. -/
structure Ready (input : Input) (r : Locals) (k p m : ℕ) : Prop where
  of : r.Of input
  plan : Plan (letters input.query) input.query.length k p m
  critical : r.critical.toNat = k
  period : r.period.toNat = p
  memoryAfterShift : r.memoryAfterShift.toNat = m

/-- The greater of two words, as `select` finds it. -/
theorem toNat_select_gt (a b : UInt32) : (if truth (a > b) = 0 then b else a).toNat = max a.toNat b.toNat := by
  by_cases h : a > b
  · have hlt : b.toNat < a.toNat := h
    rw [if_neg (mt truth_eq_zero.mp (not_not_intro h))]
    omega
  · have hle : ¬ b.toNat < a.toNat := h
    rw [if_pos (truth_eq_zero.mpr h)]
    omega

theorem runs_choose (hr : r.Of input) (hcritical : r.critical.toNat = k) (hperiod : r.period.toNat = p)
    (hmemory : r.memoryAfterShift = 0) (hfactor : Factor (letters input.query) input.query.length k p)
    (h : ∀ index period memoryAfterShift reads k p m, Ready input { r with index, period, memoryAfterShift } k p m →
      Runs input.memory input.inside rest ({ r with index, period, memoryAfterShift }.state reads) Q) :
    Runs input.memory input.inside (.ops [.i32Const 0, .localSet Local.index] <| .block (.loop testRound .done) <|
      .ops [.localGet Local.index, .localGet Local.critical, .i32Eq] <|
      .ifElse (.ops [.localGet Local.queryLen, .localGet Local.period, .i32Sub, .localSet Local.memoryAfterShift] .done)
        (.ops [.localGet Local.critical, .localGet Local.queryLen, .localGet Local.critical, .i32Sub, .i32Const 1, .i32Add,
          .localGet Local.critical, .localGet Local.queryLen, .localGet Local.critical, .i32Sub, .i32Const 1, .i32Add,
          .i32GtU, .select, .localSet Local.period] .done) rest) (r.state reads) Q := by
  have hle := hfactor.le
  have hpos := hfactor.pos
  have hshort := input.queryShort
  have hlen := hr.queryLen
  refine runs_test hr hcritical hperiod hle fun index reads htest => ?_
  refine runs_ops rfl rfl (runs_ifElse rfl (fun hyes => ?_) fun hno => ?_)
  · have heq : index = r.critical := hyes
    rw [← UInt32.toNat_inj, hcritical] at heq
    have hplan := hfactor.plan_periodic (htest.resolve_right fun h => Nat.ne_of_lt h.1 heq).2
    refine runs_ops rfl rfl (runs_done ?_)
    refine h index r.period (r.queryLen - r.period) reads _ _ _ ⟨⟨hr.text, hr.textLen, hr.query, hr.queryLen⟩, hplan,
      hcritical, hperiod, ?_⟩
    show (r.queryLen - r.period).toNat = _
    rw [UInt32.toNat_sub]
    omega
  · have hne : ¬ index = r.critical := hno
    rw [← UInt32.toNat_inj, hcritical] at hne
    have hplan := hfactor.plan (htest.resolve_left fun h => hne h.1).2
    have hright : (r.queryLen - r.critical + 1).toNat = input.query.length - k + 1 := by
      have hsub : (r.queryLen - r.critical).toNat = input.query.length - k := by
        rw [UInt32.toNat_sub]
        omega
      have hk := htest.resolve_left fun h => hne h.1
      rw [toNat_succ (by omega), hsub]
    refine runs_ops rfl rfl (runs_done ?_)
    refine h index (if truth (r.critical > r.queryLen - r.critical + 1) = 0 then r.queryLen - r.critical + 1
      else r.critical) r.memoryAfterShift reads _ _ _ ⟨⟨hr.text, hr.textLen, hr.query, hr.queryLen⟩, hplan,
      hcritical, ?_, ?_⟩
    · show (if truth (r.critical > r.queryLen - r.critical + 1) = 0 then r.queryLen - r.critical + 1
        else r.critical).toNat = _
      rw [toNat_select_gt, hcritical, hright]
    · exact congrArg UInt32.toNat hmemory

/-- **What the search goes by**, from the scans for the two orders. -/
theorem runs_plan {i c t p i' c' t' p' : ℕ} (hr : r.Of input) (hmemory : r.memoryAfterShift = 0)
    (hscan : Scan (order false) (letters input.query) input.query.length i c t p)
    (hend : c + t = input.query.length)
    (hscan' : Scan (order true) (letters input.query) input.query.length i' c' t' p')
    (hend' : c' + t' = input.query.length)
    (hcritical : r.critical.toNat = i) (hsaved : r.savedPeriod.toNat = p)
    (hsuffix : r.suffix.toNat = (i' + (2 ^ 32 - 1)) % 2 ^ 32) (hperiod : r.period.toNat = p')
    (h : ∀ critical index period memoryAfterShift reads k p m,
      Ready input { r with critical, index, period, memoryAfterShift } k p m →
        Runs input.memory input.inside rest ({ r with critical, index, period, memoryAfterShift }.state reads) Q) :
    Runs input.memory input.inside (planCode rest) (r.state reads) Q := by
  have hle := hscan'.le
  have hlt := hscan'.lt
  have hshort := input.queryShort
  have hnext : (r.suffix + 1).toNat = i' := by
    rw [UInt32.toNat_add, hsuffix]
    show ((i' + (2 ^ 32 - 1)) % 2 ^ 32 + 1) % 2 ^ 32 = i'
    omega
  refine runs_ops rfl rfl (runs_ifElse rfl (fun hyes => ?_) fun hno => ?_)
  · have hgt : r.critical.toNat < (r.suffix + 1).toNat := hyes
    have hfactor := hscan'.factor hend' (show Scan (Function.swap (order true)) _ _ i c t p from hscan) hend (by omega)
    refine runs_ops rfl rfl (runs_done ?_)
    exact runs_choose (r := { r with critical := r.suffix + 1 }) ⟨hr.text, hr.textLen, hr.query, hr.queryLen⟩ hnext
      hperiod hmemory hfactor fun index period memory reads k p m => h _ index period memory reads k p m
  · have hle : ¬ r.critical.toNat < (r.suffix + 1).toNat := hno
    have hfactor := hscan.factor hend (show Scan (Function.swap (order false)) _ _ i' c' t' p' from hscan') hend'
      (by omega)
    refine runs_ops rfl rfl (runs_done ?_)
    exact runs_choose (r := { r with period := r.savedPeriod }) ⟨hr.text, hr.textLen, hr.query, hr.queryLen⟩ hcritical
      hsaved hmemory hfactor fun index period memory reads k p m => h _ index period memory reads k p m

/-! ### Comparisons -/

theorem runs_compare (hr : r.Of input) (hindex : r.index.toNat < input.query.length)
    (hfits : r.start.toNat + input.query.length ≤ input.text.length)
    (h : ∀ left right reads, left.toNat = letters input.query r.index.toNat →
      right.toNat = letters input.text (r.start.toNat + r.index.toNat) →
        Runs input.memory input.inside rest ⟨(r.state []).locals, [right, left], reads⟩ Q) :
    Runs input.memory input.inside (compareCode rest) (r.state reads) Q := by
  have hquery := congrArg UInt32.toNat hr.query
  have htext := congrArg UInt32.toNat hr.text
  have hquerybound := input.holdsQuery.le
  have htextbound := input.holdsText.le
  refine runs_ops rfl rfl (runs_queryByte hindex ?_ fun left reads hleft => ?_)
  · show (r.query + r.index).toNat = _
    rw [UInt32.toNat_add]
    omega
  refine runs_ops rfl rfl (runs_textByte (i := r.start.toNat + r.index.toNat) (by omega) ?_ fun right reads hright => ?_)
  · show (r.text + r.start + r.index).toNat = _
    rw [UInt32.toNat_add, UInt32.toNat_add]
    omega
  exact h left right reads hleft hright

/-- **The right half**: the index comes to the end of the query, or stops before it at a difference. -/
theorem runs_right (hr : r.Of input) (hfits : r.start.toNat + input.query.length ≤ input.text.length)
    (hindex : r.index.toNat ≤ input.query.length) (hk : k ≤ r.index.toNat)
    (hmatch : MatchesFrom (letters input.query) (letters input.text) r.start.toNat k r.index.toNat)
    (h : ∀ index reads, k ≤ index.toNat → index.toNat ≤ input.query.length →
      MatchesFrom (letters input.query) (letters input.text) r.start.toNat k index.toNat →
      (index.toNat < input.query.length →
        letters input.text (r.start.toNat + index.toNat) ≠ letters input.query index.toNat) →
          Runs input.memory input.inside rest ({ r with index }.state reads) Q) :
    Runs input.memory input.inside (.block (.loop rightRound .done) rest) (r.state reads) Q := by
  have hlen := hr.queryLen
  have hshort := input.queryShort
  refine runs_block (runs_loop (fun measure s => ∃ index reads, s = { r with index }.state reads ∧
    k ≤ index.toNat ∧ index.toNat ≤ input.query.length ∧
    MatchesFrom (letters input.query) (letters input.text) r.start.toNat k index.toNat ∧
      measure = input.query.length - index.toNat) _ ⟨r.index, reads, rfl, hk, hindex, hmatch, rfl⟩ ?_)
  rintro measure s ⟨index, reads, rfl, hk, hindex, hmatch, rfl⟩
  refine runs_ops rfl rfl (runs_brIf rfl (fun hend => ?_) fun hgo => ?_)
  · have hge : r.queryLen.toNat ≤ index.toNat := hend
    exact h index reads hk hindex hmatch fun hlt => absurd hlt (by omega)
  have hlt : ¬ r.queryLen.toNat ≤ index.toNat := hgo
  refine runs_compare (r := { r with index }) ⟨hr.text, hr.textLen, hr.query, hr.queryLen⟩
    (show index.toNat < _ by omega) hfits fun left right reads hleft hright => ?_
  refine runs_ops rfl rfl (runs_brIf rfl (fun hne => ?_) fun heq => ?_)
  · have hne : ¬ left = right := hne
    rw [← UInt32.toNat_inj, hleft, hright] at hne
    exact h index reads hk hindex hmatch fun _ heq => hne heq.symm
  · have heq : left = right := Decidable.not_not.mp heq
    rw [← UInt32.toNat_inj, hleft, hright] at heq
    have hnext := toNat_succ (a := index) (by omega)
    refine runs_ops rfl rfl (runs_br ⟨input.query.length - (index + 1).toNat, by omega, index + 1, reads, rfl, by omega,
      by omega, ?_, rfl⟩)
    intro e hke he
    rcases Nat.lt_or_eq_of_le (show e ≤ index.toNat by omega) with hlt | rfl
    · exact hmatch e hke hlt
    · exact heq.symm

/-- **The left half**: the result is the start when the query stands there, or there is a difference. -/
theorem runs_left (hr : r.Of input) (hfits : r.start.toNat + input.query.length ≤ input.text.length)
    (hindex : r.index.toNat ≤ input.query.length)
    (hright : MatchesFrom (letters input.query) (letters input.text) r.start.toNat r.index.toNat input.query.length)
    (hmemory : MatchesFrom (letters input.query) (letters input.text) r.start.toNat 0 r.memory.toNat)
    (hfound : Occurs (letters input.query) input.query.length (letters input.text) r.start.toNat →
      ∀ s, Q (.ret r.start) s)
    (h : ∀ index reads, ¬ Occurs (letters input.query) input.query.length (letters input.text) r.start.toNat →
      Runs input.memory input.inside rest ({ r with index }.state reads) Q) :
    Runs input.memory input.inside (.block (.loop leftRound .done) rest) (r.state reads) Q := by
  have hshort := input.queryShort
  refine runs_block (runs_loop (fun measure s => ∃ index reads, s = { r with index }.state reads ∧
    index.toNat ≤ input.query.length ∧
    MatchesFrom (letters input.query) (letters input.text) r.start.toNat index.toNat input.query.length ∧
      measure = index.toNat) _ ⟨r.index, reads, rfl, hindex, hright, rfl⟩ ?_)
  rintro measure s ⟨index, reads, rfl, hindex, hright, rfl⟩
  refine runs_ops rfl rfl (runs_ifThen rfl (fun hend => ?_) fun hgo => ?_)
  · have hle : index.toNat ≤ r.memory.toNat := hend
    refine runs_ops rfl rfl (runs_ret rfl (hfound (fun e he => ?_) _))
    by_cases hem : e < r.memory.toNat
    · exact hmemory e (Nat.zero_le e) hem
    · exact hright e (by omega) he
  have hlt : ¬ index.toNat ≤ r.memory.toNat := hgo
  have hprevious : (index - 1).toNat = index.toNat - 1 := by
    rw [UInt32.toNat_sub]
    show (2 ^ 32 - 1 + index.toNat) % 2 ^ 32 = _
    omega
  refine runs_ops rfl rfl (runs_compare (r := { r with index := index - 1 })
    ⟨hr.text, hr.textLen, hr.query, hr.queryLen⟩ (show (index - 1).toNat < _ by omega) hfits
    fun left right reads hleft hbyte => ?_)
  refine runs_ops rfl rfl (runs_brIf rfl (fun hne => ?_) fun heq => ?_)
  · have hne : ¬ left = right := hne
    rw [← UInt32.toNat_inj, hleft, hbyte] at hne
    exact h (index - 1) reads fun hoccurs => hne (hoccurs _ (show (index - 1).toNat < _ by omega)).symm
  · have heq : left = right := Decidable.not_not.mp heq
    rw [← UInt32.toNat_inj, hleft, hbyte] at heq
    refine runs_br ⟨(index - 1).toNat, by omega, index - 1, reads, rfl, by omega, ?_, rfl⟩
    intro e hke he
    rcases Nat.lt_or_eq_of_le hke with hlt | rfl
    · exact hright e (by omega) he
    · exact heq.symm

/-! ### The search -/

/-- The query stands in the text at the position. -/
def OccursAt (text query : List UInt8) (position : ℕ) : Prop :=
  position + query.length ≤ text.length ∧ (text.drop position).take query.length = query

theorem occursAt_iff {text query : List UInt8} {position : ℕ} : OccursAt text query position ↔
    position + query.length ≤ text.length ∧ Occurs (letters query) query.length (letters text) position := by
  refine and_congr_right fun hle => ?_
  have hbyte : ∀ j < query.length, (letters text (position + j) = letters query j ↔ text[position + j]? = query[j]?) := by
    intro j hj
    rw [letters, letters, List.getD_eq_getElem?_getD, List.getD_eq_getElem?_getD,
      List.getElem?_eq_getElem hj, List.getElem?_eq_getElem (show position + j < text.length by omega),
      Option.getD_some, Option.getD_some, UInt8.toNat_inj, Option.some_inj]
  constructor
  · intro heq j hj
    rw [hbyte j hj, ← List.getElem?_drop, ← List.getElem?_take_of_lt hj, heq]
  · intro hoccurs
    refine List.ext_getElem? fun j => ?_
    by_cases hj : j < query.length
    · rw [List.getElem?_take_of_lt hj, List.getElem?_drop]
      exact (hbyte j hj).mp (hoccurs j hj)
    · rw [List.getElem?_take_eq_none (by omega), List.getElem?_eq_none (by omega)]

/-- The result is the first occurrence from the start on, or −1 where there is none. -/
def Answers (text query : List UInt8) (start : ℕ) (result : UInt32) : Prop :=
  (∃ position, IsLeast {p | start ≤ p ∧ OccursAt text query p} position ∧ result = UInt32.ofNat position) ∨
    ((∀ p, start ≤ p → ¬ OccursAt text query p) ∧ result = -1)

/-- The body ends with a result that answers. -/
def Ends (text query : List UInt8) (start : ℕ) (o : Outcome) (s : State) : Prop :=
  ∃ result, (o = .ret result ∨ o = .next ∧ s.stack = [result]) ∧ Answers text query start result

/-- The invariant of the search from `first` on: the query stands at no place before the start, and what is remembered
of it matches. -/
structure Searching (input : Input) (first : ℕ) (r : Locals) (k p m : ℕ) : Prop where
  ready : Ready input r k p m
  le : first ≤ r.start.toNat
  inside : r.start.toNat ≤ input.text.length
  passed : ∀ q, first ≤ q → q < r.start.toNat → ¬ OccursAt input.text input.query q
  remembers : r.memory.toNat ≤ input.query.length
  remembered : MatchesFrom (letters input.query) (letters input.text) r.start.toNat 0 r.memory.toNat

/-- Places that are skipped. -/
theorem Searching.skip {first : ℕ} (h : Searching input first r k p m) {d : ℕ}
    (hskip : ∀ e < d, ¬ Occurs (letters input.query) input.query.length (letters input.text) (r.start.toNat + e)) :
    ∀ q, first ≤ q → q < r.start.toNat + d → ¬ OccursAt input.text input.query q := by
  intro q hq hlt hoccurs
  by_cases hpassed : q < r.start.toNat
  · exact h.passed q hq hpassed hoccurs
  · refine hskip (q - r.start.toNat) (by omega) ?_
    rw [Nat.add_sub_cancel' (Nat.le_of_not_lt hpassed)]
    exact (occursAt_iff.mp hoccurs).2

/-- **A round of the search** ends the search, or passes some places. -/
theorem runs_searchRound {first : ℕ} (h : Searching input first r k p m) (hn : input.query.length ≤ input.text.length)
    (hnone : (∀ q, first ≤ q → ¬ OccursAt input.text input.query q) → Q (.br 1) (r.state reads))
    (hfound : Answers input.text input.query first r.start → ∀ s, Q (.ret r.start) s)
    (hagain : ∀ start memory index reads, Searching input first { r with start, memory, index } k p m →
      r.start.toNat < start.toNat → Q (.br 0) ({ r with start, memory, index }.state reads)) :
    Runs input.memory input.inside searchRound (r.state reads) Q := by
  have hr := h.ready.of
  have hlen := hr.queryLen
  have htextLen := hr.textLen
  have hcritical := h.ready.critical
  have hkn := h.ready.plan.lt
  have hremembers := h.remembers
  have hshort := input.textShort
  have hroom : (r.textLen - r.queryLen).toNat = input.text.length - input.query.length := by
    rw [UInt32.toNat_sub]
    omega
  refine runs_ops rfl rfl (runs_brIf rfl (fun hend => ?_) fun hgo => ?_)
  · have hgt : (r.textLen - r.queryLen).toNat < r.start.toNat := hend
    refine hnone fun q hq hoccurs => ?_
    have hle := hoccurs.1
    exact h.passed q hq (by omega) hoccurs
  have hlt : ¬ (r.textLen - r.queryLen).toNat < r.start.toNat := hgo
  have hfits : r.start.toNat + input.query.length ≤ input.text.length := by omega
  have hindex := toNat_select_gt r.critical r.memory
  refine runs_ops rfl rfl (runs_right
    (r := { r with index := if truth (r.critical > r.memory) = 0 then r.memory else r.critical })
    ⟨hr.text, hr.textLen, hr.query, hr.queryLen⟩ hfits (show UInt32.toNat (ite _ _ _) ≤ _ by omega)
    (show k ≤ UInt32.toNat (ite _ _ _) by omega) ?_ fun index reads hk hle hmatch hmiss => ?_)
  · intro e hke he
    have he : e < UInt32.toNat (ite _ _ _) := he
    exact h.remembered e (Nat.zero_le e) (by omega)
  refine runs_ops rfl rfl (runs_ifThen rfl (fun hdiffers => ?_) fun hmatches => ?_)
  · -- A difference in the right half: the start passes the places up to it.
    have hlt : index.toNat < r.queryLen.toNat := hdiffers
    have hsub : (index - r.critical).toNat = index.toNat - k := by
      rw [UInt32.toNat_sub]
      omega
    have hshift : (r.start + (index - r.critical + 1)).toNat = r.start.toNat + (index.toNat - k + 1) := by
      rw [UInt32.toNat_add, toNat_succ (by omega), hsub]
      omega
    refine runs_ops rfl rfl (runs_br (hagain (r.start + (index - r.critical + 1)) 0 index reads ?_ (by omega)))
    refine ⟨⟨⟨hr.text, hr.textLen, hr.query, hr.queryLen⟩, h.ready.plan, hcritical, h.ready.period,
      h.ready.memoryAfterShift⟩, ?_, ?_, ?_, Nat.zero_le _, fun e _ he => absurd he (Nat.not_lt_zero e)⟩
    · show first ≤ (r.start + (index - r.critical + 1)).toNat
      have hfirst := h.le
      omega
    · show (r.start + (index - r.critical + 1)).toNat ≤ _
      omega
    · show ∀ q, first ≤ q → q < (r.start + (index - r.critical + 1)).toNat → _
      rw [hshift]
      refine h.skip fun e he => ?_
      exact h.ready.plan.skip hmatch (by omega) (hmiss (by omega)) (by omega) hk
  have hmatches : ¬ index.toNat < r.queryLen.toNat := hmatches
  have hright : MatchesFrom (letters input.query) (letters input.text) r.start.toNat k input.query.length := by
    rwa [show index.toNat = input.query.length by omega] at hmatch
  refine runs_ops rfl rfl (runs_left (r := { r with index := r.critical })
    ⟨hr.text, hr.textLen, hr.query, hr.queryLen⟩ hfits (show r.critical.toNat ≤ _ by omega)
    (show MatchesFrom _ _ _ r.critical.toNat _ from hcritical.symm ▸ hright) h.remembered (fun hoccurs s => ?_)
    fun index reads hmiss => ?_)
  · refine hfound (.inl ⟨r.start.toNat, ⟨⟨h.le, occursAt_iff.mpr ⟨hfits, hoccurs⟩⟩, ?_⟩, UInt32.ofNat_toNat.symm⟩) s
    intro q hq
    exact Nat.le_of_not_lt fun hlt => h.passed q hq.1 hlt hq.2
  · -- A difference in the left half only: the start passes the shift.
    have hplan := h.ready.plan
    have hpos := hplan.pos
    have hshiftLe := hplan.shift_le
    have hperiod := h.ready.period
    have hafter := h.ready.memoryAfterShift
    have hshift : (r.start + r.period).toNat = r.start.toNat + p := by
      rw [UInt32.toNat_add]
      omega
    refine runs_ops rfl rfl (runs_br (hagain (r.start + r.period) r.memoryAfterShift index reads ?_ (by omega)))
    refine ⟨⟨⟨hr.text, hr.textLen, hr.query, hr.queryLen⟩, hplan, hcritical, hperiod, hafter⟩, ?_, ?_, ?_, ?_, ?_⟩
    · show first ≤ (r.start + r.period).toNat
      have hfirst := h.le
      omega
    · show (r.start + r.period).toNat ≤ _
      omega
    · show ∀ q, first ≤ q → q < (r.start + r.period).toNat → _
      rw [hshift]
      refine h.skip fun e he => ?_
      rcases Nat.eq_zero_or_pos e with rfl | he'
      · exact hmiss
      · exact hplan.not_occurs hright he' he
    · show r.memoryAfterShift.toNat ≤ _
      rcases hplan.memory with hm | hm
      · omega
      · omega
    · show MatchesFrom _ _ (r.start + r.period).toNat 0 r.memoryAfterShift.toNat
      rw [hshift, hafter]
      exact hplan.remember hright

/-- **The search** ends with the first occurrence, or with −1. -/
theorem runs_search {first : ℕ} (h : Searching input first r k p m) (hn : input.query.length ≤ input.text.length) :
    Runs input.memory input.inside (.block (.loop searchRound .done) <| .ops [.i32Const (-1)] .done) (r.state reads)
      (Ends input.text input.query first) := by
  refine runs_block (runs_loop (fun measure s => ∃ r reads, s = Locals.state r reads ∧
    Searching input first r k p m ∧ measure = input.text.length - r.start.toNat) _ ⟨r, reads, rfl, h, rfl⟩ ?_)
  rintro measure s ⟨r, reads, rfl, h, rfl⟩
  refine runs_searchRound h hn (fun hnone => ?_) (fun hfound s => ?_) fun start memory index reads h' hlt => ?_
  · exact runs_ops rfl rfl (runs_done ⟨-1, .inr ⟨rfl, rfl⟩, .inr ⟨hnone, rfl⟩⟩)
  · exact ⟨r.start, .inl rfl, hfound⟩
  · have hle : start.toNat ≤ input.text.length := h'.inside
    exact ⟨input.text.length - start.toNat, by omega, _, reads, rfl, h', rfl⟩

/-- The locals of a call. -/
def Locals.call (input : Input) (start : UInt32) : Locals :=
  ⟨input.textPointer, .ofNat input.text.length, input.queryPointer, .ofNat input.query.length, start,
    0, 0, 0, 0, 0, 0, 0, 0, 0, 0, 0⟩

theorem Locals.call_of (input : Input) (start : UInt32) : (call input start).Of input where
  text := rfl
  textLen := UInt32.toNat_ofNat_of_lt' input.textShort
  query := rfl
  queryLen := UInt32.toNat_ofNat_of_lt' input.queryShort

/-- The body of the function ends with the answer. -/
theorem runs_searchCode {start : UInt32} (hstart : start.toNat ≤ input.text.length) :
    Runs input.memory input.inside searchCode ((Locals.call input start).state [])
      (Ends input.text input.query start.toNat) := by
  have hr := Locals.call_of input start
  have htextLen := hr.textLen
  have hlen := hr.queryLen
  have hshort := input.textShort
  refine runs_ops rfl rfl (runs_ifThen rfl (fun hempty => ?_) fun hnonempty => ?_)
  · -- The empty query stands at the start.
    have hzero : (Locals.call input start).queryLen = 0 := hempty
    rw [← UInt32.toNat_inj, hlen] at hzero
    have hnil := List.eq_nil_of_length_eq_zero hzero
    have hoccurs : OccursAt input.text input.query start.toNat := by
      rw [hnil]
      exact ⟨hstart, List.take_zero⟩
    have hleast : IsLeast {p | start.toNat ≤ p ∧ OccursAt input.text input.query p} start.toNat :=
      ⟨⟨Nat.le_refl _, hoccurs⟩, fun q hq => hq.1⟩
    exact runs_ops rfl rfl (runs_ret rfl ⟨start, .inl rfl, .inl ⟨_, hleast, UInt32.ofNat_toNat.symm⟩⟩)
  have hne : ¬ (Locals.call input start).queryLen = 0 := hnonempty
  rw [← UInt32.toNat_inj, hlen] at hne
  have hpos : 0 < input.query.length := Nat.pos_of_ne_zero hne
  have hroom : ((Locals.call input start).textLen - start).toNat = input.text.length - start.toNat := by
    rw [UInt32.toNat_sub]
    omega
  refine runs_ops rfl rfl (runs_ifThen rfl (fun hlong => ?_) fun hfits => ?_)
  · have hgt : ((Locals.call input start).textLen - start).toNat < (Locals.call input start).queryLen.toNat := hlong
    refine runs_ops rfl rfl (runs_ret rfl ⟨-1, .inl rfl, .inr ⟨fun q hq hoccurs => ?_, rfl⟩⟩)
    have hle := hoccurs.1
    omega
  have hle : ¬ ((Locals.call input start).textLen - start).toNat < (Locals.call input start).queryLen.toNat := hfits
  refine runs_maximalSuffix hr hpos ?_
  intro suffix candidate offset period left right reads i c t p hscan hend
  have hnext : (suffix + 1).toNat = i := by
    have hi := hscan.scan.lt
    have hc := hscan.scan.le
    rw [UInt32.toNat_add, hscan.suffix]
    show ((i + (2 ^ 32 - 1)) % 2 ^ 32 + 1) % 2 ^ 32 = i
    omega
  let r : Locals := { (Locals.call input start).scan suffix candidate offset period left right with
    critical := suffix + 1, savedPeriod := period }
  refine runs_ops rfl rfl (runs_maximalSuffix (r := r) ⟨hr.text, htextLen, hr.query, hlen⟩ hpos ?_)
  intro suffix' candidate' offset' period' left' right' reads i' c' t' p' hscan' hend'
  refine runs_plan (r := r.scan suffix' candidate' offset' period' left' right') ⟨hr.text, htextLen, hr.query, hlen⟩ rfl
    hscan.scan hend hscan'.scan hend' hnext hscan.period hscan'.suffix hscan'.period ?_
  intro critical index period memoryAfterShift reads k p m hready
  refine runs_search ⟨hready, Nat.le_refl _, hstart, fun q hq hlt => absurd hlt (Nat.not_lt_of_le hq), Nat.zero_le _,
    fun e _ he => absurd he (Nat.not_lt_zero e)⟩ (by omega)

/-- **Two-Way search is substring search**: a call comes to an end, having read bytes of the two slices only, and its
result is the first position from the start on at which the query stands in the text, or −1 where there is none. -/
theorem search_finds (input : Input) (start : ℕ) (hstart : start ≤ input.text.length) :
    ∃ enough result reads, (∀ fuel, enough ≤ fuel → invoke input.memory fuel function
        [input.textPointer, .ofNat input.text.length, input.queryPointer, .ofNat input.query.length, .ofNat start] =
          some (some result, reads)) ∧
      (∀ a ∈ reads, input.inside a) ∧ Answers input.text input.query start result := by
  have hnat : (UInt32.ofNat start).toNat = start :=
    UInt32.toNat_ofNat_of_lt' (Nat.lt_of_le_of_lt hstart input.textShort)
  obtain ⟨enough, o, s, hexec, hreads, result, hend, hanswers⟩ :=
    @runs_searchCode input (.ofNat start) (hnat.symm ▸ hstart)
  rw [hnat] at hanswers
  refine ⟨enough, result, s.reads, fun fuel hfuel => ?_, fun a ha => (hreads a ha).resolve_left List.not_mem_nil,
    hanswers⟩
  have hrun := hexec fuel hfuel
  unfold invoke
  rw [decode_function]
  dsimp only
  erw [hrun]
  rcases hend with rfl | ⟨rfl, hstack⟩
  · rfl
  · show some (s.stack.head?, s.reads) = _
    rw [hstack]
    rfl

/-- The periodic query `aba` in the text `aabab`, one slice after the other. -/
def periodicInput : Input where
  memory := ⟨[97, 97, 98, 97, 98, 97, 98, 97], by decide⟩
  text := [97, 97, 98, 97, 98]
  query := [97, 98, 97]
  textPointer := 0
  queryPointer := 5
  holdsText := ⟨[], [97, 98, 97], rfl, rfl⟩
  holdsQuery := ⟨[97, 97, 98, 97, 98], [], rfl, rfl⟩
  textShort := by decide
  queryShort := by decide

theorem search_finds_periodic :
    ∃ enough result reads, (∀ fuel, enough ≤ fuel → invoke periodicInput.memory fuel function [0, 5, 5, 3, 0] =
        some (some result, reads)) ∧
      (∀ a ∈ reads, periodicInput.inside a) ∧ Answers [97, 97, 98, 97, 98] [97, 98, 97] 0 result :=
  search_finds periodicInput 0 (by decide)

end Blot.TextSearch
