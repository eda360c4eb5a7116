import Blot.Support.Words
import Blot.TextSearch.Function

/-!
# The greatest suffix of the query (`maximal_suffix`)

* `Input`, `Locals` — what a call is made on, and the locals by name;
* `runs_byte` — the bytes of the text and of the query that are loaded;
* `Scanning` — the locals of a scan against its invariant;
* `runs_maximalSuffix` — after the loop the suffix is the greatest one, and the period its shortest.
-/

namespace Blot.TextSearch

open Blot.Support.Wasm Blot.Support.Words

/-! ### Calls -/

/-- What a call is made on: a text and a query in the memory. -/
structure Input where
  memory : Memory
  text : List UInt8
  query : List UInt8
  textPointer : UInt32
  queryPointer : UInt32
  holdsText : memory.Holds textPointer text
  holdsQuery : memory.Holds queryPointer query
  textShort : text.length < 2 ^ 32
  queryShort : query.length < 2 ^ 32

def letters (bytes : List UInt8) (i : ℕ) : ℕ := (bytes.getD i 0).toNat

def Input.inside (input : Input) (a : ℕ) : Prop :=
  (input.textPointer.toNat ≤ a ∧ a < input.textPointer.toNat + input.text.length) ∨
    (input.queryPointer.toNat ≤ a ∧ a < input.queryPointer.toNat + input.query.length)

structure Locals where
  text : UInt32
  textLen : UInt32
  query : UInt32
  queryLen : UInt32
  start : UInt32
  suffix : UInt32
  candidate : UInt32
  offset : UInt32
  period : UInt32
  critical : UInt32
  savedPeriod : UInt32
  memory : UInt32
  memoryAfterShift : UInt32
  index : UInt32
  leftByte : UInt32
  rightByte : UInt32

def Locals.state (r : Locals) (reads : List ℕ) : State where
  locals := [r.text, r.textLen, r.query, r.queryLen, r.start, r.suffix, r.candidate, r.offset, r.period, r.critical,
    r.savedPeriod, r.memory, r.memoryAfterShift, r.index, r.leftByte, r.rightByte]
  stack := []
  reads := reads

/-- The locals of a call: its parameters but the start are never set. -/
structure Locals.Of (r : Locals) (input : Input) : Prop where
  text : r.text = input.textPointer
  textLen : r.textLen.toNat = input.text.length
  query : r.query = input.queryPointer
  queryLen : r.queryLen.toNat = input.query.length

theorem toNat_succ {a : UInt32} (h : a.toNat + 1 < 2 ^ 32) : (a + 1).toNat = a.toNat + 1 := by
  rw [UInt32.toNat_add]
  exact Nat.mod_eq_of_lt h

section Bytes

variable {input : Input} {address : UInt32} {locals operands : List UInt32} {reads : List ℕ} {rest : Code}
  {Q : Outcome → State → Prop} {i : ℕ}

/-- A byte of a slice is loaded. -/
theorem runs_byte {pointer : UInt32} {bytes : List UInt8} (hholds : input.memory.Holds pointer bytes)
    (hinside : ∀ i < bytes.length, input.inside (pointer.toNat + i)) (hi : i < bytes.length)
    (haddress : address.toNat = pointer.toNat + i)
    (h : ∀ value reads, value.toNat = letters bytes i →
      Runs input.memory input.inside rest ⟨locals, value :: operands, reads⟩ Q) :
    Runs input.memory input.inside (.op (.i32Load8U byte) rest) ⟨locals, address :: operands, reads⟩ Q := by
  refine runs_load rfl (haddress ▸ hholds.byte hi) (haddress ▸ hinside i hi) (h _ _ ?_)
  rw [UInt8.toNat_toUInt32, letters, List.getD_eq_getElem?_getD, List.getElem?_eq_getElem hi, Option.getD_some]

theorem runs_queryByte (hi : i < input.query.length) (haddress : address.toNat = input.queryPointer.toNat + i)
    (h : ∀ value reads, value.toNat = letters input.query i →
      Runs input.memory input.inside rest ⟨locals, value :: operands, reads⟩ Q) :
    Runs input.memory input.inside (.op (.i32Load8U byte) rest) ⟨locals, address :: operands, reads⟩ Q :=
  runs_byte input.holdsQuery (fun i hi => .inr ⟨Nat.le_add_right _ i, Nat.add_lt_add_left hi _⟩) hi haddress h

theorem runs_textByte (hi : i < input.text.length) (haddress : address.toNat = input.textPointer.toNat + i)
    (h : ∀ value reads, value.toNat = letters input.text i →
      Runs input.memory input.inside rest ⟨locals, value :: operands, reads⟩ Q) :
    Runs input.memory input.inside (.op (.i32Load8U byte) rest) ⟨locals, address :: operands, reads⟩ Q :=
  runs_byte input.holdsText (fun i hi => .inl ⟨Nat.le_add_right _ i, Nat.add_lt_add_left hi _⟩) hi haddress h

end Bytes

/-! ### Scans -/

/-- The order of the bytes, or its reverse. -/
def order : Bool → ℕ → ℕ → Prop
  | false => (· < ·)
  | true => Function.swap (· < ·)

instance (reverse : Bool) (a b : ℕ) : Decidable (order reverse a b) :=
  match reverse with
  | false => inferInstanceAs (Decidable (a < b))
  | true => inferInstanceAs (Decidable (b < a))

instance (reverse : Bool) : IsStrictOrder ℕ (order reverse) :=
  match reverse with
  | false => { irrefl := Nat.lt_irrefl, trans := fun _ _ _ => Nat.lt_trans }
  | true => { irrefl := Nat.lt_irrefl, trans := fun _ _ _ h h' => Nat.lt_trans h' h }

theorem order_of_ne {reverse : Bool} {a b : ℕ} (h : ¬ order reverse a b) (hne : a ≠ b) : order reverse b a := by
  cases reverse with
  | false => exact Nat.lt_of_le_of_ne (Nat.le_of_not_lt h) hne.symm
  | true => exact Nat.lt_of_le_of_ne (Nat.le_of_not_lt h) hne

def Locals.scan (r : Locals) (suffix candidate offset period leftByte rightByte : UInt32) : Locals :=
  { r with suffix, candidate, offset, period, leftByte, rightByte }

/-- The locals of a scan whose state is `i`, `c`, `t` and `p`. -/
structure Scanning (input : Input) (reverse : Bool) (suffix candidate offset period : UInt32) (i c t p : ℕ) :
    Prop where
  scan : Scan (order reverse) (letters input.query) input.query.length i c t p
  suffix : suffix.toNat = (i + (2 ^ 32 - 1)) % 2 ^ 32
  candidate : candidate.toNat + 1 = c
  offset : offset.toNat = t + 1
  period : period.toNat = p

def remaining (n i c t : ℕ) : ℕ := (n - i) * (n + 1) + (n - (c + t))

theorem remaining_lt_of_suffix {n i i' c t c' t' : ℕ} (h : i < i') (hn : i' ≤ n) :
    remaining n i' c' t' < remaining n i c t := by
  have hmul := Nat.mul_le_mul_right (n + 1) (show n - i' + 1 ≤ n - i by omega)
  rw [Nat.add_mul] at hmul
  unfold remaining
  omega

theorem remaining_lt_of_read {n i c t c' t' : ℕ} (h : c + t < c' + t') (hn : c' + t' ≤ n) :
    remaining n i c' t' < remaining n i c t := by
  unfold remaining
  omega

section Round

variable {input : Input} {reverse : Bool} {r : Locals} {suffix candidate offset period leftByte rightByte : UInt32}
  {i c t p : ℕ} {reads : List ℕ} {Q : Outcome → State → Prop}

/-- What a round of the scan leads to: the label of the loop, with less remaining. -/
def Continues (input : Input) (reverse : Bool) (r : Locals) (measure : ℕ) (Q : Outcome → State → Prop) : Prop :=
  ∀ suffix candidate offset period leftByte rightByte reads i c t p,
    Scanning input reverse suffix candidate offset period i c t p → remaining input.query.length i c t < measure →
      Q (.br 0) ((r.scan suffix candidate offset period leftByte rightByte).state reads)

theorem runs_scanRound (hr : r.Of input) (h : Scanning input reverse suffix candidate offset period i c t p)
    (hexit : c + t = input.query.length → ∀ reads,
      Q (.br 1) ((r.scan suffix candidate offset period leftByte rightByte).state reads))
    (hQ : Continues input reverse r (remaining input.query.length i c t) Q) :
    Runs input.memory input.inside (scanRound reverse)
      ((r.scan suffix candidate offset period leftByte rightByte).state reads) Q := by
  have hle := h.scan.le
  have hlt := h.scan.lt
  have hshort := input.queryShort
  have hlen := hr.queryLen
  have hcandidate := h.candidate
  have hoffset := h.offset
  have hsuffix := h.suffix
  have hbound := input.holdsQuery.le
  have hquery := congrArg UInt32.toNat hr.query
  have hroom : (r.queryLen - candidate).toNat = input.query.length - candidate.toNat := by
    rw [UInt32.toNat_sub]
    omega
  refine runs_ops rfl rfl (runs_brIf rfl (fun hend => ?_) fun hgo => ?_)
  · refine hexit ?_ reads
    have hge : (r.queryLen - candidate).toNat ≤ offset.toNat := hend
    omega
  have hlt : ¬ (r.queryLen - candidate).toNat ≤ offset.toNat := hgo
  refine runs_ops rfl rfl (runs_queryByte (i := c + t) (by omega) ?_ fun left reads hleft => ?_)
  · show (r.query + candidate + offset).toNat = _
    rw [UInt32.toNat_add, UInt32.toNat_add]
    omega
  refine runs_ops rfl rfl (runs_queryByte (i := i + t) (by omega) ?_ fun right reads hright => ?_)
  · show (r.query + suffix + offset).toNat = _
    rw [UInt32.toNat_add, UInt32.toNat_add]
    omega
  have hcompare : ∀ reads, runOps input.memory [.localSet Local.rightByte, .localGet Local.leftByte,
      .localGet Local.rightByte, if reverse then .i32GtU else .i32LtU]
      ⟨((r.scan suffix candidate offset period left rightByte).state reads).locals, [right], reads⟩ =
      some ⟨((r.scan suffix candidate offset period left right).state reads).locals,
        [truth (order reverse left.toNat right.toNat)], reads⟩ := by
    intro reads
    cases reverse <;> rfl
  refine runs_ops (hcompare reads) rfl (runs_ifElse rfl (fun hless => ?_) fun hless => ?_)
  · rw [hleft, hright] at hless
    refine runs_ops rfl rfl (runs_done (runs_br ?_))
    have hcandidate' : (candidate + offset).toNat + 1 = c + t + 1 := by
      rw [UInt32.toNat_add]
      omega
    refine hQ suffix (candidate + offset) 1 (candidate + offset - suffix) left right reads i (c + t + 1) 0
      (c + t + 1 - i) ⟨h.scan.lose (by omega) hless, hsuffix, hcandidate', rfl, ?_⟩ ?_
    · rw [UInt32.toNat_sub]
      omega
    · exact remaining_lt_of_read (by omega) (by omega)
  · refine runs_ops rfl rfl (runs_ifElse rfl (fun hsame => ?_) fun hne => ?_)
    · have heq : left = right := hsame
      rw [← UInt32.toNat_inj, hleft, hright] at heq
      refine runs_ops rfl rfl (runs_ifElse rfl (fun hwhole => ?_) fun hpart => ?_)
      · have hwhole : offset = period := hwhole
        rw [← UInt32.toNat_inj, hoffset, h.period] at hwhole
        have hcandidate' : (candidate + period).toNat + 1 = c + p := by
          rw [UInt32.toNat_add]
          have hperiod := h.period
          omega
        refine runs_ops rfl rfl (runs_done (runs_done (runs_done (runs_br ?_))))
        refine hQ suffix (candidate + period) 1 period left right reads i (c + p) 0 p
          ⟨h.scan.wrap (by omega) heq hwhole, hsuffix, hcandidate', rfl, h.period⟩ ?_
        exact remaining_lt_of_read (by omega) (by omega)
      · have hpart : ¬ offset = period := hpart
        rw [← UInt32.toNat_inj, hoffset, h.period] at hpart
        have hsmall := h.scan.small
        have hoffset' : (offset + 1).toNat = t + 1 + 1 := by
          rw [toNat_succ (by omega), hoffset]
        refine runs_ops rfl rfl (runs_done (runs_done (runs_done (runs_br ?_))))
        refine hQ suffix candidate (offset + 1) period left right reads i c (t + 1) p
          ⟨h.scan.next (by omega) heq (by omega), hsuffix, hcandidate, hoffset', h.period⟩ ?_
        exact remaining_lt_of_read (by omega) (by omega)
    · have hne : ¬ left = right := hne
      rw [← UInt32.toNat_inj] at hne
      have hmore := order_of_ne hless hne
      rw [hleft, hright] at hmore
      have hcandidate' : (candidate + 1).toNat + 1 = c + 1 := by
        rw [toNat_succ (by omega), hcandidate]
      refine runs_ops rfl rfl (runs_done (runs_done (runs_br ?_)))
      refine hQ candidate (candidate + 1) 1 1 left right reads c (c + 1) 0 1
        ⟨h.scan.win (by omega) hmore, by omega, hcandidate', rfl, rfl⟩ ?_
      exact remaining_lt_of_suffix h.scan.lt (by omega)

end Round

/-- The scan before its first round. -/
theorem scanning_start {input : Input} {reverse : Bool} (hn : 0 < input.query.length) :
    Scanning input reverse (-1) 0 1 1 0 1 0 1 where
  scan := Scan.start hn
  suffix := rfl
  candidate := rfl
  offset := rfl
  period := rfl

/-- **The greatest suffix**: `maximal_suffix` comes to an end with a scan that has read the whole query. -/
theorem runs_maximalSuffix {input : Input} {reverse : Bool} {r : Locals} (hr : r.Of input) (hn : 0 < input.query.length)
    {rest : Code} {reads : List ℕ} {Q : Outcome → State → Prop}
    (h : ∀ suffix candidate offset period leftByte rightByte reads i c t p,
      Scanning input reverse suffix candidate offset period i c t p → c + t = input.query.length →
        Runs input.memory input.inside rest
          ((r.scan suffix candidate offset period leftByte rightByte).state reads) Q) :
    Runs input.memory input.inside (maximalSuffixCode reverse rest) (r.state reads) Q := by
  refine runs_ops rfl rfl (runs_block (runs_loop (fun measure s => ∃ suffix candidate offset period leftByte rightByte
    reads i c t p, s = (r.scan suffix candidate offset period leftByte rightByte).state reads ∧
      Scanning input reverse suffix candidate offset period i c t p ∧
        measure = remaining input.query.length i c t) (remaining input.query.length 0 1 0) ?_ fun measure s hs => ?_))
  · exact ⟨-1, 0, 1, 1, r.leftByte, r.rightByte, reads, 0, 1, 0, 1, rfl, scanning_start hn, rfl⟩
  · obtain ⟨suffix, candidate, offset, period, leftByte, rightByte, reads, i, c, t, p, rfl, hscan, rfl⟩ := hs
    refine runs_scanRound hr hscan (fun hend reads => ?_) ?_
    · exact h _ _ _ _ _ _ reads _ _ _ _ hscan hend
    · intro suffix' candidate' offset' period' leftByte' rightByte' reads' i' c' t' p' hscan' hlt
      exact ⟨_, hlt, _, _, _, _, _, _, _, _, _, _, _, rfl, hscan', rfl⟩

end Blot.TextSearch
