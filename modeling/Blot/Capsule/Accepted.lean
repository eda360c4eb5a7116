import Mathlib.Algebra.Order.Ring.Nat
import Blot.Capsule.Scanner
import Blot.Support.Table

/-!
# What the scan accepts

The stack of containers stands for the values still to come, each at its depth (`slots`); the scan goes on well where
they form a `Forest` that stays within the limits.

* `head_iff` — the markers are those of the format;
* `accepts_iff_step` — a step takes the first head of the forest away;
* `scan_eq_ok` — the run;
* `scan_message_pack_accepts` — the scan accepts one value within the limits, and refuses everything else.
-/

namespace Blot.Capsule

open Blot.Support Blot.Support.MessagePack

/-! ### Reading -/

/-- `l` stands in the bytes from `offset` up to `stop`. -/
def Takes (bytes : List UInt8) (offset : ℕ) (l : List UInt8) (stop : ℕ) : Prop :=
  offset ≤ bytes.length ∧ stop = offset + l.length ∧ bytes.drop offset = l ++ bytes.drop stop

section Reading

variable {bytes l l' : List UInt8} {offset stop n width : ℕ} {b : UInt8} {description : String}

theorem Takes.stop_le (h : Takes bytes offset l stop) : stop ≤ bytes.length := by
  obtain ⟨hle, hstop, hdrop⟩ := h
  have hlength := congrArg List.length hdrop
  simp only [List.length_drop, List.length_append] at hlength
  omega

theorem takes_of_drop {rest : List UInt8} (h : offset ≤ bytes.length) (hdrop : bytes.drop offset = l ++ rest) :
    Takes bytes offset l (offset + l.length) := by
  refine ⟨h, rfl, ?_⟩
  rw [← List.drop_drop, hdrop, List.drop_left]

theorem takes_nil : Takes bytes offset [] stop ↔ offset ≤ bytes.length ∧ stop = offset := by
  constructor
  · exact fun ⟨h, hstop, _⟩ => ⟨h, hstop⟩
  · rintro ⟨h, rfl⟩
    exact ⟨h, rfl, rfl⟩

theorem takes_append :
    Takes bytes offset (l ++ l') stop ↔ ∃ middle, Takes bytes offset l middle ∧ Takes bytes middle l' stop := by
  constructor
  · rintro ⟨h, hstop, hdrop⟩
    rw [List.append_assoc] at hdrop
    have hfirst := takes_of_drop h hdrop
    refine ⟨_, hfirst, hfirst.stop_le, ?_, ?_⟩
    · rw [hstop, List.length_append, Nat.add_assoc]
    · rw [← List.drop_drop, hdrop, List.drop_left]
  · rintro ⟨middle, ⟨h, rfl, hdrop⟩, ⟨-, rfl, hdrop'⟩⟩
    refine ⟨h, ?_, ?_⟩
    · rw [List.length_append, Nat.add_assoc]
    · rw [hdrop, hdrop', List.append_assoc]

theorem takes_cons :
    Takes bytes offset (b :: l) stop ↔ ∃ middle, Takes bytes offset [b] middle ∧ Takes bytes middle l stop :=
  @takes_append bytes [b] l offset stop

theorem readByte_eq_ok : readByte bytes description offset = .ok (b, stop) ↔ Takes bytes offset [b] stop := by
  unfold readByte
  constructor
  · intro h
    split at h
    · next byte hbyte =>
      cases h
      obtain ⟨hlt, rfl⟩ := List.getElem?_eq_some_iff.1 hbyte
      exact takes_of_drop hlt.le (List.drop_eq_getElem_cons hlt)
    · cases h
  · rintro ⟨hle, rfl, hdrop⟩
    have hbyte : bytes[offset]? = some b := by
      rw [← List.head?_drop, hdrop]
      rfl
    rw [hbyte]
    rfl

theorem checkedAdd_eq_ok {a c r : ℕ} : checkedAdd a c description = .ok r ↔ a + c < 2 ^ 64 ∧ a + c = r := by
  unfold checkedAdd
  by_cases h : a + c < 2 ^ 64
  · rw [if_pos h, Except.ok.injEq]
    exact (and_iff_right h).symm
  · rw [if_neg h]
    exact iff_of_false nofun fun h' => h h'.1

theorem checkedMul_eq_ok {a c r : ℕ} : checkedMul a c description = .ok r ↔ a * c < 2 ^ 64 ∧ a * c = r := by
  unfold checkedMul
  by_cases h : a * c < 2 ^ 64
  · rw [if_pos h, Except.ok.injEq]
    exact (and_iff_right h).symm
  · rw [if_neg h]
    exact iff_of_false nofun fun h' => h h'.1

theorem skip_eq_ok (hbytes : bytes.length < 2 ^ 64) (hle : offset ≤ bytes.length) :
    skip bytes n description offset = .ok stop ↔ ∃ l, l.length = n ∧ Takes bytes offset l stop := by
  simp only [skip, bind_eq_ok, checkedAdd_eq_ok, require_eq_ok, pure_eq_ok, decide_eq_true_eq]
  constructor
  · rintro ⟨_, ⟨-, rfl⟩, _, hstop, rfl⟩
    have hlength : ((bytes.drop offset).take n).length = n := by
      rw [List.length_take, List.length_drop]
      omega
    have htakes := takes_of_drop hle (List.take_append_drop n (bytes.drop offset)).symm
    rw [hlength] at htakes
    exact ⟨_, hlength, htakes⟩
  · rintro ⟨l, rfl, htakes⟩
    have hstop := htakes.stop_le
    obtain ⟨-, rfl, -⟩ := htakes
    exact ⟨_, ⟨by omega, rfl⟩, (), hstop, rfl⟩

/-- The loop reads the digits after `n` when the number stays small enough. -/
theorem readLengthLoop_eq_ok {r : ℕ} (hle : offset ≤ bytes.length) (hn : (n + 1) * 256 ^ width ≤ 2 ^ 64) :
    readLengthLoop bytes description width n offset = .ok (r, stop) ↔
      ∃ l, l.length = width ∧ Takes bytes offset l stop ∧ l.foldl (fun n b => n * 256 + b.toNat) n = r := by
  induction width generalizing n offset with
  | zero =>
    simp only [readLengthLoop, pure_eq_ok, Prod.mk.injEq]
    constructor
    · rintro ⟨rfl, rfl⟩
      exact ⟨[], rfl, takes_nil.2 ⟨hle, rfl⟩, rfl⟩
    · rintro ⟨l, hl, htakes, rfl⟩
      rw [List.length_eq_zero_iff] at hl
      subst hl
      exact ⟨rfl, (takes_nil.1 htakes).2.symm⟩
  | succ width ih =>
    have hnext : ∀ b : UInt8, (n * 256 + b.toNat + 1) * 256 ^ width ≤ 2 ^ 64 := by
      intro b
      have hb := b.toNat_lt
      calc (n * 256 + b.toNat + 1) * 256 ^ width ≤ (n + 1) * 256 * 256 ^ width :=
            Nat.mul_le_mul_right _ (by omega)
        _ = (n + 1) * 256 ^ (width + 1) := by rw [Nat.pow_succ']; exact Nat.mul_assoc ..
        _ ≤ 2 ^ 64 := hn
    have hsmall : ∀ b : UInt8, n * 256 + b.toNat < 2 ^ 64 := fun b =>
      Nat.lt_of_lt_of_le (Nat.lt_succ_self _) ((Nat.le_mul_of_pos_right _ (Nat.pow_pos (by decide))).trans (hnext b))
    simp only [readLengthLoop, bind_eq_ok, Prod.exists, checkedMul_eq_ok, checkedAdd_eq_ok]
    constructor
    · rintro ⟨b, middle, hb, _, ⟨-, rfl⟩, _, ⟨-, rfl⟩, h⟩
      rw [readByte_eq_ok] at hb
      obtain ⟨l, rfl, htakes, rfl⟩ := (ih hb.stop_le (hnext b)).1 h
      exact ⟨b :: l, rfl, takes_cons.2 ⟨middle, hb, htakes⟩, rfl⟩
    · rintro ⟨l, hl, htakes, rfl⟩
      cases l with
      | nil => cases hl
      | cons b l =>
        obtain ⟨middle, hb, htakes⟩ := takes_cons.1 htakes
        have hlt := hsmall b
        have hmul : n * 256 < 2 ^ 64 := Nat.lt_of_le_of_lt (Nat.le_add_right _ _) hlt
        have hrest := (ih hb.stop_le (hnext b)).2 ⟨l, Nat.succ.inj hl, htakes, rfl⟩
        exact ⟨b, middle, readByte_eq_ok.2 hb, n * 256, ⟨hmul, rfl⟩, n * 256 + b.toNat, ⟨hlt, rfl⟩, hrest⟩

theorem pow_width_le (hwidth : width ≤ 8) : 256 ^ width ≤ 2 ^ 64 := by
  have height : 2 ^ 64 = 256 ^ 8 := by decide
  rw [height]
  exact Nat.pow_le_pow_right (by decide) hwidth

theorem readLengthU64_eq_ok {r : ℕ} (hle : offset ≤ bytes.length) (hwidth : width ≤ 8) :
    readLengthU64 bytes width description offset = .ok (r, stop) ↔
      ∃ l, l.length = width ∧ Takes bytes offset l stop ∧ bigEndian l = r := by
  have hpow : (0 + 1) * 256 ^ width ≤ 2 ^ 64 := by
    rw [Nat.zero_add, Nat.one_mul]
    exact pow_width_le hwidth
  exact readLengthLoop_eq_ok hle hpow

theorem readLength_eq_ok {r : ℕ} (hle : offset ≤ bytes.length) (hwidth : width ≤ 8) :
    readLength bytes width description offset = .ok (r, stop) ↔
      ∃ l, l.length = width ∧ Takes bytes offset l stop ∧ bigEndian l = r := by
  simp only [readLength, bind_eq_ok, Prod.exists, require_eq_ok, pure_eq_ok, decide_eq_true_eq, Prod.mk.injEq,
    readLengthU64_eq_ok hle hwidth]
  constructor
  · rintro ⟨_, _, h, _, -, rfl, rfl⟩
    exact h
  · rintro ⟨l, rfl, htakes, rfl⟩
    have hlt : bigEndian l < 2 ^ 64 := Nat.lt_of_lt_of_le bigEndian_lt (pow_width_le hwidth)
    exact ⟨_, _, ⟨l, rfl, htakes, rfl⟩, (), hlt, rfl, rfl⟩

end Reading

/-! ### The budget -/

section Budget

variable {limits : CapsuleLimits} {budget budget' : CapsuleBudget} {n depth : ℕ}

theorem claimAllocation_eq_ok : budget.claimAllocation n limits = .ok budget' ↔
    budget.allocationBytes + n ≤ limits.allocationBytes ∧
      ⟨budget.nodes, budget.allocationBytes + n, budget.maximumDepth⟩ = budget' := by
  have hlt := limits.allocationBytes_lt
  simp only [CapsuleBudget.claimAllocation, bind_eq_ok, checkedAdd_eq_ok, require_eq_ok, pure_eq_ok, decide_eq_true_eq]
  constructor
  · rintro ⟨_, ⟨-, rfl⟩, _, hle, rfl⟩
    exact ⟨hle, rfl⟩
  · rintro ⟨hle, rfl⟩
    exact ⟨_, ⟨by omega, rfl⟩, (), hle, rfl⟩

theorem claimNode_eq_ok : budget.claimNode depth limits = .ok budget' ↔
    depth ≤ limits.depth ∧ budget.nodes + 1 ≤ limits.nodes ∧ budget.allocationBytes + 64 ≤ limits.allocationBytes ∧
      ⟨budget.nodes + 1, budget.allocationBytes + 64, max budget.maximumDepth depth⟩ = budget' := by
  have hlt := limits.nodes_lt
  simp only [CapsuleBudget.claimNode, bind_eq_ok, checkedAdd_eq_ok, require_eq_ok, decide_eq_true_eq,
    claimAllocation_eq_ok, capsuleCollectionEntryBytes]
  constructor
  · rintro ⟨_, hdepth, _, ⟨-, rfl⟩, _, hnodes, hallocation, rfl⟩
    exact ⟨hdepth, hnodes, hallocation, rfl⟩
  · rintro ⟨hdepth, hnodes, hallocation, rfl⟩
    exact ⟨(), hdepth, _, ⟨by omega, rfl⟩, (), hnodes, hallocation, rfl⟩

end Budget

/-! ### The arms -/

namespace Scanner

/-- So many more values are within the limits, at the depth below `depth`. -/
def Admits (limits : CapsuleLimits) (s : Scanner) (depth children : ℕ) : Prop :=
  children = 0 ∨ depth + 1 ≤ limits.depth ∧ s.budget.nodes + s.pendingNodes + children ≤ limits.nodes ∧
    s.budget.allocationBytes + 64 * (s.pendingNodes + children) ≤ limits.allocationBytes

/-- The scanner at `stop`, with so many bytes declared and so many values entered. -/
def after (s : Scanner) (stop declared children : ℕ) : Scanner where
  offset := stop
  pendingNodes := s.pendingNodes + children
  containers := if children = 0 then s.containers else children :: s.containers
  budget := ⟨s.budget.nodes, s.budget.allocationBytes + declared, s.budget.maximumDepth⟩

end Scanner

open Scanner

section Arms

variable {bytes : List UInt8} {limits : CapsuleLimits} {s s' : Scanner} {depth n width : ℕ} {description : String}

theorem enterContainer_eq_ok :
    s.enterContainer limits n depth = .ok s' ↔ s.Admits limits depth n ∧ s.after s.offset 0 n = s' := by
  unfold enterContainer
  by_cases hn : n = 0
  · subst hn
    rw [if_pos rfl, pure_eq_ok]
    exact ⟨fun h => ⟨.inl rfl, h⟩, fun h => h.2⟩
  · have hafter : s.after s.offset 0 n =
        { s with pendingNodes := s.pendingNodes + n, containers := n :: s.containers } := by
      simp only [after, if_neg hn]
      rfl
    have hdepth := limits.depth_lt
    have hnodes := limits.nodes_lt
    have hallocation := limits.allocationBytes_lt
    rw [if_neg hn, hafter]
    simp only [bind_eq_ok, checkedAdd_eq_ok, checkedMul_eq_ok, require_eq_ok, pure_eq_ok, decide_eq_true_eq,
      capsuleCollectionEntryBytes]
    constructor
    · rintro ⟨_, ⟨-, rfl⟩, _, hchild, _, ⟨-, rfl⟩, _, ⟨-, rfl⟩, _, hdeclared, _, ⟨-, rfl⟩, _, ⟨-, rfl⟩, _, ⟨-, rfl⟩, _,
        hbytes, _, ⟨-, rfl⟩, rfl⟩
      exact ⟨.inr ⟨hchild, hdeclared, by omega⟩, rfl⟩
    · rintro ⟨hzero | ⟨hchild, hdeclared, hbytes⟩, rfl⟩
      · exact absurd hzero hn
      · exact ⟨_, ⟨by omega, rfl⟩, (), hchild, _, ⟨by omega, rfl⟩, _, ⟨by omega, rfl⟩, (), hdeclared, _,
          ⟨by omega, rfl⟩, _, ⟨by omega, rfl⟩, _, ⟨by omega, rfl⟩, (), by omega, _, ⟨by omega, rfl⟩, rfl⟩

theorem enterMap_eq_ok :
    s.enterMap limits n depth = .ok s' ↔ s.Admits limits depth (2 * n) ∧ s.after s.offset 0 (2 * n) = s' := by
  have hnodes := limits.nodes_lt
  simp only [enterMap, bind_eq_ok, checkedMul_eq_ok, enterContainer_eq_ok]
  constructor
  · rintro ⟨_, ⟨-, rfl⟩, h⟩
    rwa [Nat.mul_comm] at h
  · rintro ⟨hadmits, hs'⟩
    refine ⟨n * 2, ⟨?_, rfl⟩, ?_⟩
    · rcases hadmits with hzero | ⟨-, hdeclared, -⟩ <;> omega
    · rw [Nat.mul_comm]
      exact ⟨hadmits, hs'⟩

theorem readAllocatedPayload_eq_ok (hbytes : bytes.length < 2 ^ 64) (hle : s.offset ≤ bytes.length) :
    s.readAllocatedPayload bytes limits n description = .ok s' ↔
      ∃ l stop, l.length = n ∧ Takes bytes s.offset l stop ∧
        s.budget.allocationBytes + n ≤ limits.allocationBytes ∧ s.after stop n 0 = s' := by
  simp only [readAllocatedPayload, CapsuleBudget.claimBytes, bind_eq_ok, claimAllocation_eq_ok, pure_eq_ok,
    skip_eq_ok hbytes hle]
  constructor
  · rintro ⟨_, ⟨hallocation, rfl⟩, stop, ⟨l, hl, htakes⟩, rfl⟩
    exact ⟨l, stop, hl, htakes, hallocation, rfl⟩
  · rintro ⟨l, stop, hl, htakes, hallocation, rfl⟩
    exact ⟨_, ⟨hallocation, rfl⟩, stop, ⟨l, hl, htakes⟩, rfl⟩

/-- What an arm reads after the marker, with the bytes declared and the number of values in it. -/
def Arm.Reads : Arm → List UInt8 → ℕ → ℕ → Prop
  | .single, tail, declared, children => tail = [] ∧ declared = 0 ∧ children = 0
  | .map pairs, tail, declared, children => tail = [] ∧ declared = 0 ∧ children = 2 * pairs
  | .container count, tail, declared, children => tail = [] ∧ declared = 0 ∧ children = count
  | .fixedString length, tail, declared, children => tail.length = length ∧ declared = length ∧ children = 0
  | .reserved, _, _, _ => False
  | .payload width _, tail, declared, children =>
    ∃ l payload, tail = l ++ payload ∧ l.length = width ∧ payload.length = bigEndian l ∧ declared = bigEndian l ∧
      children = 0
  | .extension width _, tail, declared, children =>
    ∃ l type payload, tail = l ++ type :: payload ∧ l.length = width ∧ payload.length = bigEndian l ∧
      declared = bigEndian l ∧ children = 0
  | .skip width _, tail, declared, children => tail.length = width ∧ declared = 0 ∧ children = 0
  | .fixedExtension length, tail, declared, children =>
    ∃ type payload, tail = type :: payload ∧ payload.length = length ∧ declared = length ∧ children = 0
  | .sizedContainer width _, tail, declared, children =>
    tail.length = width ∧ declared = 0 ∧ children = bigEndian tail
  | .sizedMap width _, tail, declared, children =>
    tail.length = width ∧ declared = 0 ∧ children = 2 * bigEndian tail

def Arm.lengthWidth : Arm → ℕ
  | .payload width _ | .extension width _ | .sizedContainer width _ | .sizedMap width _ => width
  | _ => 0

/-- **An arm** reads what it is for, when that is within the limits. -/
theorem act_eq_ok {a : Arm} (hbytes : bytes.length < 2 ^ 64) (hle : s.offset ≤ bytes.length)
    (hallocation : s.budget.allocationBytes ≤ limits.allocationBytes) (hwidth : a.lengthWidth ≤ 8) :
    s.act bytes limits depth a = .ok s' ↔ ∃ tail declared children stop, a.Reads tail declared children ∧
      Takes bytes s.offset tail stop ∧ s.budget.allocationBytes + declared ≤ limits.allocationBytes ∧
      s.Admits limits depth children ∧ s.after stop declared children = s' := by
  have hnone : s.Admits limits depth 0 := .inl rfl
  have hstay : Takes bytes s.offset [] s.offset := takes_nil.2 ⟨hle, rfl⟩
  cases a with
  | single =>
    simp only [act, pure_eq_ok, Arm.Reads]
    constructor
    · rintro rfl
      exact ⟨[], 0, 0, s.offset, ⟨rfl, rfl, rfl⟩, hstay, hallocation, hnone, rfl⟩
    · rintro ⟨_, _, _, stop, ⟨rfl, rfl, rfl⟩, htakes, -, -, rfl⟩
      rw [(takes_nil.1 htakes).2]
      rfl
  | map pairs =>
    simp only [act, enterMap_eq_ok, Arm.Reads]
    constructor
    · rintro ⟨hadmits, rfl⟩
      exact ⟨[], 0, _, s.offset, ⟨rfl, rfl, rfl⟩, hstay, hallocation, hadmits, rfl⟩
    · rintro ⟨_, _, _, stop, ⟨rfl, rfl, rfl⟩, htakes, -, hadmits, rfl⟩
      rw [(takes_nil.1 htakes).2]
      exact ⟨hadmits, rfl⟩
  | container count =>
    simp only [act, enterContainer_eq_ok, Arm.Reads]
    constructor
    · rintro ⟨hadmits, rfl⟩
      exact ⟨[], 0, _, s.offset, ⟨rfl, rfl, rfl⟩, hstay, hallocation, hadmits, rfl⟩
    · rintro ⟨_, _, _, stop, ⟨rfl, rfl, rfl⟩, htakes, -, hadmits, rfl⟩
      rw [(takes_nil.1 htakes).2]
      exact ⟨hadmits, rfl⟩
  | fixedString length =>
    simp only [act, readAllocatedPayload_eq_ok hbytes hle, Arm.Reads]
    constructor
    · rintro ⟨l, stop, rfl, htakes, hdeclared, rfl⟩
      exact ⟨l, _, 0, stop, ⟨rfl, rfl, rfl⟩, htakes, hdeclared, hnone, rfl⟩
    · rintro ⟨l, _, _, stop, ⟨rfl, rfl, rfl⟩, htakes, hdeclared, -, rfl⟩
      exact ⟨l, stop, rfl, htakes, hdeclared, rfl⟩
  | reserved =>
    refine iff_of_false (fun h => by cases h) ?_
    rintro ⟨_, _, _, _, hreads, -⟩
    exact hreads
  | payload width name =>
    change width ≤ 8 at hwidth
    simp only [act, bind_eq_ok, Prod.exists, readLength_eq_ok hle hwidth, Arm.Reads]
    constructor
    · rintro ⟨_, middle, ⟨l, rfl, hlength, rfl⟩, h⟩
      obtain ⟨payload, stop, hpayload, htakes, hdeclared, rfl⟩ :=
        (readAllocatedPayload_eq_ok hbytes hlength.stop_le).1 h
      exact ⟨l ++ payload, _, 0, stop, ⟨l, payload, rfl, rfl, hpayload, rfl, rfl⟩,
        takes_append.2 ⟨middle, hlength, htakes⟩, hdeclared, hnone, rfl⟩
    · rintro ⟨_, _, _, stop, ⟨l, payload, rfl, rfl, hpayload, rfl, rfl⟩, htakes, hdeclared, -, rfl⟩
      obtain ⟨middle, hlength, htakes⟩ := takes_append.1 htakes
      exact ⟨_, middle, ⟨l, rfl, hlength, rfl⟩,
        (readAllocatedPayload_eq_ok hbytes hlength.stop_le).2 ⟨payload, stop, hpayload, htakes, hdeclared, rfl⟩⟩
  | extension width name =>
    change width ≤ 8 at hwidth
    simp only [act, readExtension, bind_eq_ok, Prod.exists, readLength_eq_ok hle hwidth, Arm.Reads]
    constructor
    · rintro ⟨_, middle, ⟨l, rfl, hlength, rfl⟩, middle', htype, h⟩
      obtain ⟨type, hone, htype⟩ := (skip_eq_ok hbytes hlength.stop_le).1 htype
      obtain ⟨type, rfl⟩ := List.length_eq_one_iff.1 hone
      obtain ⟨payload, stop, hpayload, htakes, hdeclared, rfl⟩ :=
        (readAllocatedPayload_eq_ok hbytes htype.stop_le).1 h
      exact ⟨l ++ type :: payload, _, 0, stop, ⟨l, type, payload, rfl, rfl, hpayload, rfl, rfl⟩,
        takes_append.2 ⟨middle, hlength, takes_cons.2 ⟨middle', htype, htakes⟩⟩, hdeclared, hnone, rfl⟩
    · rintro ⟨_, _, _, stop, ⟨l, type, payload, rfl, rfl, hpayload, rfl, rfl⟩, htakes, hdeclared, -, rfl⟩
      obtain ⟨middle, hlength, htakes⟩ := takes_append.1 htakes
      obtain ⟨middle', htype, htakes⟩ := takes_cons.1 htakes
      exact ⟨_, middle, ⟨l, rfl, hlength, rfl⟩, middle', (skip_eq_ok hbytes hlength.stop_le).2 ⟨[type], rfl, htype⟩,
        (readAllocatedPayload_eq_ok hbytes htype.stop_le).2 ⟨payload, stop, hpayload, htakes, hdeclared, rfl⟩⟩
  | skip width description =>
    simp only [act, bind_eq_ok, skip_eq_ok hbytes hle, pure_eq_ok, Arm.Reads]
    constructor
    · rintro ⟨stop, ⟨l, rfl, htakes⟩, rfl⟩
      exact ⟨l, 0, 0, stop, ⟨rfl, rfl, rfl⟩, htakes, hallocation, hnone, rfl⟩
    · rintro ⟨l, _, _, stop, ⟨rfl, rfl, rfl⟩, htakes, -, -, rfl⟩
      exact ⟨stop, ⟨l, rfl, htakes⟩, rfl⟩
  | fixedExtension length =>
    simp only [act, readFixedExtension, bind_eq_ok, skip_eq_ok hbytes hle, Arm.Reads]
    constructor
    · rintro ⟨middle, ⟨type, hone, htype⟩, h⟩
      obtain ⟨type, rfl⟩ := List.length_eq_one_iff.1 hone
      obtain ⟨payload, stop, hpayload, htakes, hdeclared, rfl⟩ :=
        (readAllocatedPayload_eq_ok hbytes htype.stop_le).1 h
      exact ⟨type :: payload, _, 0, stop, ⟨type, payload, rfl, hpayload, rfl, rfl⟩,
        takes_cons.2 ⟨middle, htype, htakes⟩, hdeclared, hnone, rfl⟩
    · rintro ⟨_, _, _, stop, ⟨type, payload, rfl, hpayload, rfl, rfl⟩, htakes, hdeclared, -, rfl⟩
      obtain ⟨middle, htype, htakes⟩ := takes_cons.1 htakes
      exact ⟨middle, ⟨[type], rfl, htype⟩,
        (readAllocatedPayload_eq_ok hbytes htype.stop_le).2 ⟨payload, stop, hpayload, htakes, hdeclared, rfl⟩⟩
  | sizedContainer width description =>
    change width ≤ 8 at hwidth
    simp only [act, bind_eq_ok, Prod.exists, readLengthU64_eq_ok hle hwidth, enterContainer_eq_ok, Arm.Reads]
    constructor
    · rintro ⟨_, stop, ⟨l, rfl, htakes, rfl⟩, hadmits, rfl⟩
      exact ⟨l, 0, _, stop, ⟨rfl, rfl, rfl⟩, htakes, hallocation, hadmits, rfl⟩
    · rintro ⟨l, _, _, stop, ⟨rfl, rfl, rfl⟩, htakes, -, hadmits, rfl⟩
      exact ⟨_, stop, ⟨l, rfl, htakes, rfl⟩, hadmits, rfl⟩
  | sizedMap width description =>
    change width ≤ 8 at hwidth
    simp only [act, bind_eq_ok, Prod.exists, readLengthU64_eq_ok hle hwidth, enterMap_eq_ok, Arm.Reads]
    constructor
    · rintro ⟨_, stop, ⟨l, rfl, htakes, rfl⟩, hadmits, rfl⟩
      exact ⟨l, 0, _, stop, ⟨rfl, rfl, rfl⟩, htakes, hallocation, hadmits, rfl⟩
    · rintro ⟨l, _, _, stop, ⟨rfl, rfl, rfl⟩, htakes, -, hadmits, rfl⟩
      exact ⟨_, stop, ⟨l, rfl, htakes, rfl⟩, hadmits, rfl⟩

end Arms

/-! ### The markers of the format -/

section Markers

variable {m : UInt8} {tail head : List UInt8} {declared children : ℕ} {row : UInt8 × Arm} {a : Arm}

theorem row_of_scalar {width : ℕ} {description : String} (h : Scalar m width) :
    (Arm.skip width description).Reads tail declared children → Head (m :: tail) declared children := by
  rintro ⟨htail, rfl, rfl⟩
  exact .scalar h htail

theorem row_of_single (h : Scalar m 0) :
    Arm.single.Reads tail declared children → Head (m :: tail) declared children := by
  rintro ⟨rfl, rfl, rfl⟩
  exact .scalar h rfl

theorem row_of_sized {width : ℕ} {name : String}
    (h : ∀ l : List UInt8, l.length = width → Sized (m :: l) (bigEndian l)) :
    (Arm.payload width name).Reads tail declared children → Head (m :: tail) declared children := by
  rintro ⟨l, payload, rfl, hl, hpayload, rfl, rfl⟩
  exact .sized (h l hl) hpayload

theorem row_of_extension {width : ℕ} {name : String}
    (h : ∀ l : List UInt8, l.length = width → Extension (m :: l) (bigEndian l)) :
    (Arm.extension width name).Reads tail declared children → Head (m :: tail) declared children := by
  rintro ⟨l, type, payload, rfl, hl, hpayload, rfl, rfl⟩
  exact .extension (h l hl) hpayload

theorem row_of_fixedExtension {length : ℕ} (h : Extension [m] length) :
    (Arm.fixedExtension length).Reads tail declared children → Head (m :: tail) declared children := by
  rintro ⟨type, payload, rfl, hpayload, rfl, rfl⟩
  exact .extension h hpayload

theorem row_of_elements {width : ℕ} {description : String}
    (h : ∀ l : List UInt8, l.length = width → Elements (m :: l) (bigEndian l)) :
    (Arm.sizedContainer width description).Reads tail declared children → Head (m :: tail) declared children := by
  rintro ⟨htail, rfl, rfl⟩
  exact .array (h tail htail)

theorem row_of_pairs {width : ℕ} {description : String}
    (h : ∀ l : List UInt8, l.length = width → Pairs (m :: l) (bigEndian l)) :
    (Arm.sizedMap width description).Reads tail declared children → Head (m :: tail) declared children := by
  rintro ⟨htail, rfl, rfl⟩
  exact .map (h tail htail)

theorem row_of_fixstr {length : ℕ} (h : Sized [m] length) :
    (Arm.fixedString length).Reads tail declared children → Head (m :: tail) declared children := by
  rintro ⟨htail, rfl, rfl⟩
  exact .sized h htail

theorem row_of_fixarray {count : ℕ} (h : Elements [m] count) :
    (Arm.container count).Reads tail declared children → Head (m :: tail) declared children := by
  rintro ⟨rfl, rfl, rfl⟩
  exact .array h

theorem row_of_fixmap {pairs : ℕ} (h : Pairs [m] pairs) :
    (Arm.map pairs).Reads tail declared children → Head (m :: tail) declared children := by
  rintro ⟨rfl, rfl, rfl⟩
  exact .map h

theorem head_of_row (h : row ∈ arms) : row.2.Reads tail declared children → Head (row.1 :: tail) declared children := by
  revert row
  simp only [arms, List.forall_mem_cons]
  exact ⟨row_of_single .nil, nofun, row_of_single .false, row_of_single .true, row_of_sized fun _ => .bin8,
    row_of_sized fun _ => .bin16, row_of_sized fun _ => .bin32, row_of_extension fun _ => .ext8,
    row_of_extension fun _ => .ext16, row_of_extension fun _ => .ext32, row_of_scalar .float32,
    row_of_scalar .float64, row_of_scalar .uint8, row_of_scalar .uint16, row_of_scalar .uint32, row_of_scalar .uint64,
    row_of_scalar .int8, row_of_scalar .int16, row_of_scalar .int32, row_of_scalar .int64,
    row_of_fixedExtension .fixext1, row_of_fixedExtension .fixext2, row_of_fixedExtension .fixext4,
    row_of_fixedExtension .fixext8, row_of_fixedExtension .fixext16, row_of_sized fun _ => .str8,
    row_of_sized fun _ => .str16, row_of_sized fun _ => .str32, row_of_elements fun _ => .array16,
    row_of_elements fun _ => .array32, row_of_pairs fun _ => .map16, row_of_pairs fun _ => .map32, nofun⟩

theorem toNat_and_low4 : (m &&& 0x0f).toNat = m.toNat % 16 := by
  rw [UInt8.toNat_and]
  exact Nat.and_two_pow_sub_one_eq_mod m.toNat 4

theorem toNat_and_low5 : (m &&& 0x1f).toNat = m.toNat % 32 := by
  rw [UInt8.toNat_and]
  exact Nat.and_two_pow_sub_one_eq_mod m.toNat 5

theorem arm_of_map (h : 0x80 ≤ m) (h' : m ≤ 0x8f) : arm m = .map (m.toNat - 0x80) := by
  rw [UInt8.le_iff_toNat_le] at h h'
  simp only [arm, UInt8.le_iff_toNat_le, toNat_and_low4]
  simp only [UInt8.reduceToNat] at *
  rw [if_neg (by omega), if_pos (by omega)]
  have hlow : m.toNat % 16 = m.toNat - 0x80 := by omega
  rw [hlow]

theorem arm_of_array (h : 0x90 ≤ m) (h' : m ≤ 0x9f) : arm m = .container (m.toNat - 0x90) := by
  rw [UInt8.le_iff_toNat_le] at h h'
  simp only [arm, UInt8.le_iff_toNat_le, toNat_and_low4]
  simp only [UInt8.reduceToNat] at *
  rw [if_neg (by omega), if_neg (by omega), if_pos (by omega)]
  have hlow : m.toNat % 16 = m.toNat - 0x90 := by omega
  rw [hlow]

theorem arm_of_string (h : 0xa0 ≤ m) (h' : m ≤ 0xbf) : arm m = .fixedString (m.toNat - 0xa0) := by
  rw [UInt8.le_iff_toNat_le] at h h'
  simp only [arm, UInt8.le_iff_toNat_le, toNat_and_low5]
  simp only [UInt8.reduceToNat] at *
  rw [if_neg (by omega), if_neg (by omega), if_neg (by omega), if_pos (by omega)]
  have hlow : m.toNat % 32 = m.toNat - 0xa0 := by omega
  rw [hlow]

theorem arm_of_fixint (h : m ≤ 0x7f ∨ 0xe0 ≤ m) : arm m = .single := if_pos h

/-- **The markers are those of the format.** -/
theorem head_iff :
    Head head declared children ↔ ∃ m tail, head = m :: tail ∧ (arm m).Reads tail declared children := by
  constructor
  · intro h
    cases h with
    | @scalar m width payload hscalar hpayload =>
      refine ⟨m, payload, rfl, ?_⟩
      cases hscalar with
      | positiveFixint hm => 
        rw [arm_of_fixint (.inl hm)]
        exact ⟨List.length_eq_zero_iff.1 hpayload, rfl, rfl⟩
      | negativeFixint hm => 
        rw [arm_of_fixint (.inr hm)]
        exact ⟨List.length_eq_zero_iff.1 hpayload, rfl, rfl⟩
      | nil | false | true => exact ⟨List.length_eq_zero_iff.1 hpayload, rfl, rfl⟩
      | _ => exact ⟨hpayload, rfl, rfl⟩
    | @sized header payload _ hsized hpayload =>
      cases hsized with
      | @fixstr m hm hm' => 
        refine ⟨m, payload, rfl, ?_⟩
        rw [arm_of_string hm hm']
        exact ⟨hpayload, rfl, rfl⟩
      | _ hl => exact ⟨_, _, rfl, _, payload, rfl, hl, hpayload, rfl, rfl⟩
    | @extension header payload type _ hextension hpayload =>
      cases hextension with
      | fixext1 | fixext2 | fixext4 | fixext8 | fixext16 => 
        exact ⟨_, _, rfl, type, payload, rfl, hpayload, rfl, rfl⟩
      | _ hl => exact ⟨_, _, rfl, _, type, payload, rfl, hl, hpayload, rfl, rfl⟩
    | array helements =>
      cases helements with
      | @fixarray m hm hm' => 
        refine ⟨m, [], rfl, ?_⟩
        rw [arm_of_array hm hm']
        exact ⟨rfl, rfl, rfl⟩
      | _ hl => exact ⟨_, _, rfl, hl, rfl, rfl⟩
    | map hpairs =>
      cases hpairs with
      | @fixmap m hm hm' =>
        refine ⟨m, [], rfl, ?_⟩
        rw [arm_of_map hm hm']
        exact ⟨rfl, rfl, rfl⟩
      | _ hl => exact ⟨_, _, rfl, hl, rfl, rfl⟩
  · rintro ⟨m, tail, rfl, h⟩
    by_cases hfixint : m ≤ 0x7f ∨ 0xe0 ≤ m
    · rw [arm_of_fixint hfixint] at h
      exact row_of_single (hfixint.elim .positiveFixint .negativeFixint) h
    by_cases hmap : m ≤ 0x8f
    · have hm : 0x80 ≤ m := by
        simp only [UInt8.le_iff_toNat_le, UInt8.reduceToNat] at *
        omega
      rw [arm_of_map hm hmap] at h
      exact row_of_fixmap (.fixmap hm hmap) h
    by_cases harray : m ≤ 0x9f
    · have hm : 0x90 ≤ m := by
        simp only [UInt8.le_iff_toNat_le, UInt8.reduceToNat] at *
        omega
      rw [arm_of_array hm harray] at h
      exact row_of_fixarray (.fixarray hm harray) h
    by_cases hstring : m ≤ 0xbf
    · have hm : 0xa0 ≤ m := by
        simp only [UInt8.le_iff_toNat_le, UInt8.reduceToNat] at *
        omega
      rw [arm_of_string hm hstring] at h
      exact row_of_fixstr (.fixstr hm hstring) h
    · have harm : arm m = (arms.lookup m).getD .reserved := by
        unfold arm
        rw [if_neg hfixint, if_neg hmap, if_neg harray, if_neg hstring]
      rw [harm] at h
      cases hrow : arms.lookup m with
      | none =>
        rw [hrow] at h
        exact h.elim
      | some a =>
        rw [hrow] at h
        exact head_of_row (Support.Table.mem_of_lookup hrow) h

theorem arm_lengthWidth (m : UInt8) : (arm m).lengthWidth ≤ 8 := by
  have hrows : ∀ row ∈ arms, row.2.lengthWidth ≤ 8 := by decide
  unfold arm
  split
  · exact Nat.zero_le 8
  split
  · exact Nat.zero_le 8
  split
  · exact Nat.zero_le 8
  split
  · exact Nat.zero_le 8
  cases hrow : arms.lookup m with
  | none => exact Nat.zero_le 8
  | some a => exact hrows _ (Support.Table.mem_of_lookup hrow)

end Markers

/-! ### The stack -/

/-- The depths of the values still to come, in their order. -/
def slots : List ℕ → List ℕ
  | [] => []
  | count :: outer => List.replicate count outer.length ++ slots outer

section Stack

variable {containers outer : List ℕ} {last : ℕ}

theorem slots_popFinished : slots (popFinished containers) = slots containers := by
  induction containers with
  | nil => rfl
  | cons count outer ih =>
    cases count with
    | zero => exact ih
    | succ count => rfl

theorem sum_popFinished : (popFinished containers).sum = containers.sum := by
  induction containers with
  | nil => rfl
  | cons count outer ih =>
    cases count with
    | zero =>
      rw [List.sum_cons, Nat.zero_add]
      exact ih
    | succ count => rfl

theorem popFinished_ne_zero : popFinished containers ≠ 0 :: outer := by
  induction containers with
  | nil => nofun
  | cons count outer ih =>
    cases count with
    | zero => exact ih
    | succ count => nofun

/-- Where values are still to come, one container is not finished. -/
theorem popFinished_of_pos (h : 0 < containers.sum) : ∃ last outer, popFinished containers = (last + 1) :: outer := by
  rw [← sum_popFinished] at h
  cases hpop : popFinished containers with
  | nil =>
    rw [hpop] at h
    cases h
  | cons last outer =>
    cases last with
    | zero => exact absurd hpop popFinished_ne_zero
    | succ last => exact ⟨last, outer, rfl⟩

theorem popFinished_of_zero (h : containers.sum = 0) : popFinished containers = [] := by
  cases hpop : popFinished containers with
  | nil => rfl
  | cons last outer =>
    cases last with
    | zero => exact absurd hpop popFinished_ne_zero
    | succ last =>
      rw [← sum_popFinished, hpop, List.sum_cons] at h
      omega

theorem slots_of_zero (h : containers.sum = 0) : slots containers = [] := by
  rw [← slots_popFinished, popFinished_of_zero h]
  rfl

theorem length_slots : (slots containers).length = containers.sum := by
  induction containers with
  | nil => rfl
  | cons count outer ih => rw [slots, List.length_append, List.length_replicate, List.sum_cons, ih]

end Stack

/-! ### A step -/

namespace Scanner

variable (bytes : List UInt8) (limits : CapsuleLimits)

/-- The offset is one of the input, and the count is that of the stack. -/
structure Sound (s : Scanner) : Prop where
  offset_le : s.offset ≤ bytes.length
  pendingNodes_eq : s.pendingNodes = s.containers.sum
  nodes_le : s.budget.nodes ≤ limits.nodes
  allocationBytes_le : s.budget.allocationBytes ≤ limits.allocationBytes

/-- What is left of the input is the values still to come, within the limits. -/
def Accepts (s : Scanner) : Prop :=
  ∃ nodes declared, Forest limits.depth (slots s.containers) nodes declared (bytes.drop s.offset) ∧
    s.budget.nodes + nodes ≤ limits.nodes ∧
    s.budget.allocationBytes + 64 * nodes + declared ≤ limits.allocationBytes

def claimed (s : Scanner) (last : ℕ) (outer : List ℕ) : Scanner where
  offset := s.offset
  pendingNodes := s.pendingNodes - 1
  containers := last :: outer
  budget := ⟨s.budget.nodes + 1, s.budget.allocationBytes + 64, max s.budget.maximumDepth outer.length⟩

end Scanner

section Step

variable {bytes : List UInt8} {limits : CapsuleLimits} {s s' : Scanner}

theorem mapError_eq_ok {ε ε' α : Type} {f : ε → ε'} {m : Except ε α} {a : α} : m.mapError f = .ok a ↔ m = .ok a := by
  cases m with
  | error e => exact iff_of_false nofun nofun
  | ok a' => rw [Except.mapError, Except.ok.injEq, Except.ok.injEq]

theorem decrement_eq_ok {n r : ℕ} : decrement n = .ok r ↔ n = r + 1 := by
  cases n with
  | zero => exact iff_of_false nofun nofun
  | succ n =>
    rw [decrement, Except.ok.injEq]
    exact Nat.succ_inj.symm

/-- **A step** reads one head, when the limits admit it. -/
theorem step_eq_ok (hbytes : bytes.length < 2 ^ 64) (hsound : s.Sound bytes limits) (hpending : 0 < s.pendingNodes) :
    s.step bytes limits = .ok s' ↔ ∃ last outer head declared children stop,
      popFinished s.containers = (last + 1) :: outer ∧ Head head declared children ∧
      Takes bytes s.offset head stop ∧ outer.length ≤ limits.depth ∧ s.budget.nodes + 1 ≤ limits.nodes ∧
      s.budget.allocationBytes + 64 + declared ≤ limits.allocationBytes ∧
      (s.claimed last outer).Admits limits outer.length children ∧
      (s.claimed last outer).after stop declared children = s' := by
  have hsum := hpending
  rw [hsound.pendingNodes_eq] at hsum
  obtain ⟨last, outer, hpop⟩ := popFinished_of_pos hsum
  simp only [step, hpop, bind_eq_ok, Prod.exists, mapError_eq_ok, claimNode_eq_ok, decrement_eq_ok, readByte_eq_ok]
  constructor
  · rintro ⟨_, ⟨hdepth, hnodes, hallocation, rfl⟩, pendingNodes, hpendingNodes, _, hlast, m, middle, hmarker, h⟩
    cases hlast
    rw [act_eq_ok hbytes hmarker.stop_le hallocation (arm_lengthWidth m)] at h
    obtain ⟨tail, declared, children, stop, hreads, htakes, hdeclared, hadmits, rfl⟩ := h
    have hclaimed : pendingNodes = s.pendingNodes - 1 := by omega
    subst hclaimed
    exact ⟨last, outer, m :: tail, declared, children, stop, rfl, head_iff.2 ⟨m, tail, rfl, hreads⟩,
      takes_cons.2 ⟨middle, hmarker, htakes⟩, hdepth, hnodes, hdeclared, hadmits, rfl⟩
  · rintro ⟨_, _, head, declared, children, stop, hstack, hhead, htakes, hdepth, hnodes, hdeclared, hadmits, rfl⟩
    cases hstack
    obtain ⟨m, tail, rfl, hreads⟩ := head_iff.1 hhead
    obtain ⟨middle, hmarker, htakes⟩ := takes_cons.1 htakes
    have hallocation : s.budget.allocationBytes + 64 ≤ limits.allocationBytes := (Nat.le_add_right _ _).trans hdeclared
    refine ⟨_, ⟨hdepth, hnodes, hallocation, rfl⟩, s.pendingNodes - 1, by omega, last, rfl, m, middle, hmarker, ?_⟩
    rw [act_eq_ok hbytes hmarker.stop_le hallocation (arm_lengthWidth m)]
    exact ⟨tail, declared, children, stop, hreads, htakes, hdeclared, hadmits, rfl⟩

theorem step_refuses (hsound : s.Sound bytes limits) (hpending : 0 < s.pendingNodes) {failure : Failure}
    (h : s.step bytes limits = .error failure) : ∃ message, failure = .refused message := by
  have hsum := hpending
  rw [hsound.pendingNodes_eq] at hsum
  obtain ⟨last, outer, hpop⟩ := popFinished_of_pos hsum
  obtain ⟨pendingNodes, hpendingNodes⟩ := Nat.exists_eq_succ_of_ne_zero hpending.ne'
  simp only [step, hpop, hpendingNodes, Nat.succ_eq_add_one, decrement, ok_bind] at h
  revert h
  cases s.budget.claimNode outer.length limits with
  | error message => exact fun h => ⟨message, (Except.error.inj h).symm⟩
  | ok budget =>
    simp only [Except.mapError, ok_bind]
    cases readByte bytes "value marker" s.offset with
    | error message => exact fun h => ⟨message, (Except.error.inj h).symm⟩
    | ok marker =>
      simp only [ok_bind]
      cases act bytes limits ⟨marker.2, pendingNodes, last :: outer, budget⟩ outer.length (arm marker.1) with
      | error message => exact fun h => ⟨message, (Except.error.inj h).symm⟩
      | ok s' => nofun

theorem length_pos_of_head {head : List UInt8} {declared children : ℕ} (h : Head head declared children) :
    0 < head.length := by
  obtain ⟨m, tail, rfl, -⟩ := head_iff.1 h
  exact Nat.succ_pos _

theorem sound_step (hbytes : bytes.length < 2 ^ 64) (hsound : s.Sound bytes limits) (hpending : 0 < s.pendingNodes)
    (h : s.step bytes limits = .ok s') : s'.Sound bytes limits ∧ s.offset < s'.offset := by
  obtain ⟨last, outer, head, declared, children, stop, hpop, hhead, htakes, -, hnodes, hdeclared, -, rfl⟩ :=
    (step_eq_ok hbytes hsound hpending).1 h
  have hsum := hsound.pendingNodes_eq
  rw [← sum_popFinished, hpop, List.sum_cons] at hsum
  refine ⟨⟨htakes.stop_le, ?_, hnodes, hdeclared⟩, ?_⟩
  · change s.pendingNodes - 1 + children = (if children = 0 then last :: outer else children :: last :: outer).sum
    split
    · next hzero =>
      rw [List.sum_cons]
      omega
    · rw [List.sum_cons, List.sum_cons]
      omega
  · have hpos := length_pos_of_head hhead
    obtain ⟨-, rfl, -⟩ := htakes
    exact Nat.lt_add_of_pos_right hpos

/-- **The limits are those of the whole**: a scanner accepts where its step does, and the scanner after it. -/
theorem accepts_iff_step (hbytes : bytes.length < 2 ^ 64) (hsound : s.Sound bytes limits)
    (hpending : 0 < s.pendingNodes) :
    s.Accepts bytes limits ↔ ∃ s', s.step bytes limits = .ok s' ∧ s'.Accepts bytes limits := by
  have hsum := hpending
  rw [hsound.pendingNodes_eq] at hsum
  obtain ⟨last, outer, hpop⟩ := popFinished_of_pos hsum
  have hpendingNodes : s.pendingNodes = (slots (last :: outer)).length + 1 := by
    rw [hsound.pendingNodes_eq, ← sum_popFinished, hpop, length_slots, List.sum_cons, List.sum_cons]
    omega
  have hslots : slots s.containers = outer.length :: slots (last :: outer) := by
    rw [← slots_popFinished, hpop]
    rfl
  have hafter : ∀ stop declared children, slots ((s.claimed last outer).after stop declared children).containers =
      List.replicate children (outer.length + 1) ++ slots (last :: outer) := by
    intro stop declared children
    change slots (if children = 0 then last :: outer else children :: last :: outer) = _
    split
    · next hzero =>
      rw [hzero]
      rfl
    · rfl
  simp only [step_eq_ok hbytes hsound hpending, Accepts, hslots, forest_cons]
  constructor
  · rintro ⟨_, _, ⟨head, own, children, rest, nodes, declared, hhead, hdrop, hdepth, hforest, rfl, rfl⟩, hnodes,
      hallocation⟩
    have htakes := takes_of_drop hsound.offset_le hdrop
    have hrest : bytes.drop (s.offset + head.length) = rest := by rw [← List.drop_drop, hdrop, List.drop_left]
    have hcount := hforest.length_le
    rw [List.length_append, List.length_replicate] at hcount
    refine ⟨_, ⟨last, outer, head, own, children, _, hpop, hhead, htakes, hdepth, by omega, by omega, ?_, rfl⟩, nodes,
      declared, ?_, ?_, ?_⟩
    · by_cases hzero : children = 0
      · exact .inl hzero
      · have hbelow := hforest.le_deepest (outer.length + 1)
          (List.mem_append_left _ (List.mem_replicate.2 ⟨hzero, rfl⟩))
        refine .inr ⟨hbelow, ?_, ?_⟩
        · change s.budget.nodes + 1 + (s.pendingNodes - 1) + children ≤ _
          omega
        · change s.budget.allocationBytes + 64 + 64 * (s.pendingNodes - 1 + children) ≤ _
          omega
    · rw [hafter]
      exact hrest.symm ▸ hforest
    · change s.budget.nodes + 1 + nodes ≤ _
      omega
    · change s.budget.allocationBytes + 64 + own + 64 * nodes + declared ≤ _
      omega
  · rintro ⟨_, ⟨last', outer', head, own, children, stop, hpop', hhead, htakes, hdepth, -, -, -, rfl⟩, nodes, declared,
      hforest, hnodes, hallocation⟩
    rw [hpop] at hpop'
    cases hpop'
    rw [hafter] at hforest
    refine ⟨_, _, ⟨head, own, children, _, nodes, declared, hhead, htakes.2.2, hdepth, hforest, rfl, rfl⟩, ?_, ?_⟩
    · change s.budget.nodes + 1 + nodes ≤ _ at hnodes
      omega
    · change s.budget.allocationBytes + 64 + own + 64 * nodes + declared ≤ _ at hallocation
      omega

end Step

/-! ### The run -/

section Run

variable {bytes : List UInt8} {limits : CapsuleLimits} {s s' : Scanner} {rounds : ℕ}

theorem finish_eq_ok (hsound : s.Sound bytes limits) (hpending : s.pendingNodes = 0) :
    (∃ budget, s.finish bytes = .ok budget) ↔ s.Accepts bytes limits := by
  have hsum := hsound.pendingNodes_eq.symm.trans hpending
  have hle := hsound.offset_le
  simp only [finish, bind_eq_ok, require_eq_ok, pure_eq_ok, popFinished_of_zero hsum, beq_iff_eq, Accepts,
    slots_of_zero hsum, forest_nil, List.drop_eq_nil_iff]
  constructor
  · rintro ⟨_, _, -, _, hend, -⟩
    exact ⟨0, 0, ⟨hend.ge, rfl, rfl⟩, hsound.nodes_le, hsound.allocationBytes_le⟩
  · rintro ⟨_, _, ⟨hend, -, -⟩, -, -⟩
    exact ⟨s.budget, (), rfl, (), Nat.le_antisymm hle hend, rfl⟩

theorem finish_refuses {failure : Failure} (h : s.finish bytes = .error failure) :
    ∃ message, failure = .refused message := by
  unfold finish require at h
  split at h
  · rw [ok_bind] at h
    split at h
    · cases h
    · exact ⟨_, (Except.error.inj h).symm⟩
  · exact ⟨_, (Except.error.inj h).symm⟩

/-- **A run** with enough rounds accepts what the limits admit, and refuses the rest. -/
theorem scan_eq_ok (hbytes : bytes.length < 2 ^ 64) (hsound : s.Sound bytes limits)
    (hrounds : bytes.length < s.offset + rounds) :
    ((∃ budget, s.scan bytes limits rounds = .ok budget) ↔ s.Accepts bytes limits) ∧
      ∀ failure, s.scan bytes limits rounds = .error failure → ∃ message, failure = .refused message := by
  induction rounds generalizing s with
  | zero => exact absurd hsound.offset_le (Nat.not_le_of_gt hrounds)
  | succ rounds ih =>
    rw [scan]
    by_cases hpending : 0 < s.pendingNodes
    · rw [if_pos hpending, accepts_iff_step hbytes hsound hpending]
      cases hstep : s.step bytes limits with
      | error failure =>
        refine ⟨iff_of_false nofun ?_, ?_⟩
        · rintro ⟨s', hs', -⟩
          cases hs'
        · rintro _ hfailure
          cases hfailure
          exact step_refuses hsound hpending hstep
      | ok s' =>
        obtain ⟨hsound', hoffset⟩ := sound_step hbytes hsound hpending hstep
        obtain ⟨hok, hrefuses⟩ := ih hsound' (by omega)
        refine ⟨?_, hrefuses⟩
        rw [ok_bind, hok]
        constructor
        · exact fun h => ⟨s', rfl, h⟩
        · rintro ⟨_, hs', h⟩
          cases hs'
          exact h
    · rw [if_neg hpending]
      exact ⟨finish_eq_ok hsound (Nat.eq_zero_of_not_pos hpending), fun _ => finish_refuses⟩

theorem sound_start : start.Sound bytes limits :=
  ⟨Nat.zero_le _, rfl, Nat.zero_le _, Nat.zero_le _⟩

/-- A scanner that the loop comes to. -/
def Reached (bytes : List UInt8) (limits : CapsuleLimits) : Scanner → Prop :=
  Relation.ReflTransGen (fun s s' => 0 < s.pendingNodes ∧ s.step bytes limits = .ok s') start

theorem sound_reached (hbytes : bytes.length < 2 ^ 64) (h : Reached bytes limits s) : s.Sound bytes limits := by
  induction h with
  | refl => exact sound_start
  | tail _ hstep ih => exact (sound_step hbytes ih hstep.1 hstep.2).1

/-- **The scan accepts one value within the limits**, and refuses everything else; wherever its loop comes to, the
offset is one of the input and the count of values to come is that of the stack. -/
theorem scan_message_pack_accepts (bytes : List UInt8) (limits : CapsuleLimits) (rounds : ℕ)
    (hrounds : bytes.length < rounds) :
    ((∃ budget, scanMessagePack bytes limits rounds = .ok budget) ↔ bytes.length ≤ limits.serializedBytes ∧
      ∃ value, Encodes bytes value ∧ value.depth ≤ limits.depth ∧ value.nodes ≤ limits.nodes ∧
        64 * value.nodes + value.declared ≤ limits.allocationBytes) ∧
    (∀ failure, scanMessagePack bytes limits rounds = .error failure → ∃ message, failure = .refused message) ∧
    (bytes.length ≤ limits.serializedBytes → ∀ s, Reached bytes limits s →
      s.offset ≤ bytes.length ∧ s.pendingNodes = s.containers.sum) := by
  unfold scanMessagePack
  by_cases hlength : bytes.length ≤ limits.serializedBytes
  · have hbytes : bytes.length < 2 ^ 64 := Nat.lt_of_le_of_lt hlength limits.serializedBytes_lt
    have hstart : start.Sound bytes limits := sound_start
    have hscan := scan_eq_ok hbytes hstart (hrounds.trans_eq (Nat.zero_add rounds).symm)
    have hpass : require (decide (bytes.length ≤ limits.serializedBytes)) (Failure.refused
        s!"module snapshot exceeds its maximum encoded size of {limits.serializedBytes} bytes") = .ok () :=
      require_eq_ok.2 (decide_eq_true hlength)
    rw [hpass, ok_bind, hscan.1, and_iff_right hlength]
    refine ⟨?_, hscan.2, fun _ s hs => ?_⟩
    · change (∃ nodes declared, Forest limits.depth [0] nodes declared bytes ∧ 0 + nodes ≤ limits.nodes ∧
        0 + 64 * nodes + declared ≤ limits.allocationBytes) ↔ _
      simp only [forest_root, Nat.zero_add]
      constructor
      · rintro ⟨_, _, ⟨value, hvalue, hdepth, rfl, rfl⟩, hnodes, hallocation⟩
        exact ⟨value, hvalue, hdepth, hnodes, hallocation⟩
      · rintro ⟨value, hvalue, hdepth, hnodes, hallocation⟩
        exact ⟨_, _, ⟨value, hvalue, hdepth, rfl, rfl⟩, hnodes, hallocation⟩
    · have hsound := sound_reached hbytes hs
      exact ⟨hsound.offset_le, hsound.pendingNodes_eq⟩
  · have hrefuse : require (decide (bytes.length ≤ limits.serializedBytes)) (Failure.refused
        s!"module snapshot exceeds its maximum encoded size of {limits.serializedBytes} bytes") =
        .error (.refused s!"module snapshot exceeds its maximum encoded size of {limits.serializedBytes} bytes") := by
      rw [decide_eq_false hlength]
      rfl
    rw [hrefuse, error_bind]
    refine ⟨iff_of_false nofun fun h => hlength h.1, ?_, fun h => absurd h hlength⟩
    rintro _ hfailure
    exact ⟨_, (Except.error.inj hfailure).symm⟩

theorem scan_message_pack_accepts_array :
    ∃ value, Encodes [0x92, 0xa1, 0x61, 0xc0] value ∧ value.depth ≤ valueCapsuleLimits.depth ∧
      value.nodes ≤ valueCapsuleLimits.nodes ∧
      64 * value.nodes + value.declared ≤ valueCapsuleLimits.allocationBytes :=
  ((scan_message_pack_accepts [0x92, 0xa1, 0x61, 0xc0] valueCapsuleLimits 5 (by decide)).1.1 ⟨_, rfl⟩).2

end Run

end Blot.Capsule
