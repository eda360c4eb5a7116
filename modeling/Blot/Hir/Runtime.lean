import Mathlib.Algebra.Order.Ring.Nat

/-!
# The tables of a runtime module (`hir.rs`)

Representations, signatures, static stores, capabilities and links, and the constants that operations carry.  The
words of an operation are strings, as they are in the source: a word that no operation knows can be written down, and
is refused where it is read.
-/

namespace Blot.Hir

abbrev RuntimeWord := String

structure RuntimeField where
  name : String
  typeId : ℕ
  deriving DecidableEq, Repr

structure RuntimeCase where
  name : String
  payloadType : ℕ
  deriving DecidableEq, Repr

inductive RuntimeType where
  | unit
  | integer32
  | signedInteger64
  | float32
  | float64
  | boolean
  | text
  | resource (name : String) (payloadType : ℕ)
  | callback (function signature environmentType : ℕ)
  | vector (element : RuntimeWord) (lanes : ℕ)
  | mask (element : RuntimeWord) (lanes : ℕ)
  | store (elementType : ℕ)
  | scratch (elementType : ℕ)
  | indirect (targetType : ℕ)
  | product (name : String) (fields : List RuntimeField)
  | sum (name : String) (cases : List RuntimeCase)
  | sealed (name : String) (representationType : ℕ)
  deriving DecidableEq, Repr

structure RuntimeSignature where
  parameters : List ℕ
  result : ℕ
  effects : List String
  deriving DecidableEq, Repr

/-- `WireConstant`; a float is its bits, a 64-bit integer its decimal text -/
inductive WireConstant where
  | unit
  | signedInteger32 (value : ℤ)
  | signedInteger64 (value : String)
  | float32 (bits : BitVec 32)
  | float64 (bits : BitVec 64)
  | boolean (value : Bool)
  | text (value : String)
  deriving DecidableEq, Repr

structure RuntimeStaticStore where
  elementType : ℕ
  values : List WireConstant

structure RuntimeSpan where
  file : String
  start : ℕ
  stop : ℕ
  deriving DecidableEq, Repr

/-- `RuntimeCapabilityOperation`, of whose contract only the suspension is read -/
structure RuntimeCapabilityOperation where
  name : String
  signature : ℕ
  suspends : Bool

structure RuntimeCapability where
  name : String
  operations : List RuntimeCapabilityOperation

structure RuntimeLink where
  unit : String
  name : String
  signature : ℕ
  suspends : Bool

structure Tables where
  types : List RuntimeType
  signatures : List RuntimeSignature
  staticStores : List RuntimeStaticStore
  capabilities : List RuntimeCapability
  links : List RuntimeLink

def Tables.hostOperation (tables : Tables) (capability operation : String) : Option RuntimeCapabilityOperation :=
  (tables.capabilities.find? (·.name == capability)).bind fun found => found.operations.find? (·.name == operation)

def Tables.developmentLink (tables : Tables) (unit name : String) : Option RuntimeLink :=
  tables.links.find? fun link => link.unit == unit && link.name == name

def parseDigits : List Char → ℕ → Option ℕ
  | [], n => some n
  | c :: cs, n => if c.isDigit then parseDigits cs (10 * n + (c.toNat - '0'.toNat)) else none

/-- `str::parse::<i64>`: an optional sign, then one digit or more, within 64 bits -/
def parseI64 (value : String) : Option ℤ :=
  let bounded (n : ℤ) : Option ℤ := if -2 ^ 63 ≤ n ∧ n < 2 ^ 63 then some n else none
  match value.toList with
  | '-' :: c :: cs => (parseDigits (c :: cs) 0).bind fun n => bounded (-n)
  | '+' :: c :: cs => (parseDigits (c :: cs) 0).bind fun n => bounded n
  | c :: cs => (parseDigits (c :: cs) 0).bind fun n => bounded n
  | [] => none

example : parseI64 "-0042" = some (-42) := by decide

example : parseI64 "9223372036854775808" = none := by decide

def constantMatches : WireConstant → RuntimeType → Bool
  | .unit, .unit => true
  | .boolean _, .boolean => true
  | .signedInteger32 _, .integer32 => true
  | .float32 _, .float32 => true
  | .float64 _, .float64 => true
  | .text _, .text => true
  | .signedInteger64 value, .signedInteger64 => (parseI64 value).isSome
  | _, _ => false

end Blot.Hir
