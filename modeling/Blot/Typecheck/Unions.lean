import Mathlib.Data.Finset.Sort
import Mathlib.Data.String.Basic
import Blot.Support.Table
import Blot.Typecheck.Ty

/-!
# Unions, joins and meets of types (`typecheck.rs`)

The pure functions with which settlement puts the bounds of a variable together.

* `Ty.closedTypeKey`, `Ty.sameClosedType` — when two members of a union count as one;
* `unionTypes`, `joinTypes`, `meetTypes` — the normalised union, the join and the meet of a list of types;
* `recordUpdateType` — a record update over a base that has been settled.

`join_types` and `merge_fields` call each other on payloads; `joinWithin` bounds how deep, and `joinTypes_eq` says that
the bound of `joinTypes` is never met.
-/

namespace Blot.Typecheck

open Blot.Support

namespace Ty

/-! ### When two members of a union count as one -/

/-- `text`: a text after its length in bytes. -/
def textKey (s : String) : String := toString s.utf8ByteSize ++ ":" ++ s

/-- `scalar` -/
def scalarKey : Option Scalar → String
  | none => "*"
  | some (.int value) => "i" ++ toString value
  | some (.text value) => "s" ++ textKey value

def domainKey : Domain → String
  | .int => "int"
  | .text => "text"
  | .float => "float64"
  | .float32 => "float32"

def sortedKey (keys : List String) : String := ",".intercalate (keys.mergeSort fun a b => decide (a ≤ b))

def labelsKey (labels : Finset String) : String :=
  ",".intercalate ((labels.sort (· ≤ ·)).map textKey)

mutual
/-- `closed_type_key`: a text for a type without inference variables and free rigids, up to the names of binders and
the order of fields and members.  `binders` numbers the rigids that are bound around the type. -/
def keyUnder (binders : Table ℕ ℕ) : Ty → Option String
  | .qualified requirements body => do
    let body ← keyUnder binders body
    let keys ← requirementKeys binders requirements
    return "qualified(" ++ body ++ ";" ++ sortedKey keys ++ ")"
  | .var _ => none
  | .rigid id => (binders.lookup id).map fun index => "^" ++ toString index
  | .forallType vs body => do
    let body ← keyUnder (binders.extend (vs.zipIdx binders.length)) body
    return "all" ++ toString vs.length ++ "(" ++ body ++ ")"
  | .range domain low high =>
    some ("range(" ++ domainKey domain ++ "," ++ scalarKey low ++ "," ++ scalarKey high ++ ")")
  | .unit => some "unit"
  | .function deferred parameter performed result => do
    let parameter ← keyUnder binders parameter
    let performed ← keyUnder binders performed
    let result ← keyUnder binders result
    return "fun(" ++ toString deferred ++ "," ++ parameter ++ "," ++ performed ++ "," ++ result ++ ")"
  | .record values => (fieldKeys binders values).map fun keys => "record\x7b" ++ sortedKey keys ++ "\x7d"
  | .recordUpdate base values => do
    let base ← keyUnder binders base
    let keys ← fieldKeys binders values
    return "record-update(" ++ base ++ ",\x7b" ++ sortedKey keys ++ "\x7d)"
  | .array element => (keyUnder binders element).map fun element => "array(" ++ element ++ ")"
  | .region element => (keyUnder binders element).map fun element => "region(" ++ element ++ ")"
  | .scratch element => (keyUnder binders element).map fun element => "scratch(" ++ element ++ ")"
  | .resource family payload =>
    (keyUnder binders payload).map fun payload => "resource(" ++ textKey family ++ ")" ++ payload
  | .variant entries isOpen => (fieldKeys binders entries).map fun keys =>
    "variant(" ++ toString isOpen ++ ")\x7b" ++ sortedKey keys ++ "\x7d"
  | .effects labels => some ("effects\x7b" ++ labelsKey labels ++ "\x7d")
  | .openEffects labels tail =>
    (keyUnder binders tail).map fun tail => "open-effects\x7b" ++ labelsKey labels ++ ";" ++ tail ++ "\x7d"
  | .union members => (memberKeys binders members).map fun keys => "union\x7b" ++ sortedKey keys ++ "\x7d"
  | .opaqueType name => some ("opaque(" ++ textKey name ++ ")")
  | .top => some "top"
  | .bottom => some "bottom"
termination_by structural t => t
def fieldKeys (binders : Table ℕ ℕ) : List (String × Ty) → Option (List String)
  | [] => some []
  | (field, t) :: rest => do
    let key ← keyUnder binders t
    let rest ← fieldKeys binders rest
    return (textKey field ++ key) :: rest
termination_by structural fields => fields
def memberKeys (binders : Table ℕ ℕ) : List Ty → Option (List String)
  | [] => some []
  | t :: rest => do
    let key ← keyUnder binders t
    let rest ← memberKeys binders rest
    return key :: rest
termination_by structural members => members
def requirementKeys (binders : Table ℕ ℕ) : List (MemberRequirement Ty) → Option (List String)
  | [] => some []
  | r :: rest => do
    let subject ← keyUnder binders r.subject
    let member ← keyUnder binders r.member
    let rest ← requirementKeys binders rest
    return (textKey r.name ++ "(" ++ subject ++ "," ++ member ++ ")") :: rest
termination_by structural requirements => requirements
end

def closedTypeKey (t : Ty) : Option String := keyUnder [] t

/-- Which parts of types stand at one address, as `Rc::ptr_eq` sees it.  Parts at one address are equal; which equal
parts are at one address is left open. -/
structure Sharing where
  edge : Ty → Ty → Bool
  row : List (String × Ty) → List (String × Ty) → Bool
  list : List Ty → List Ty → Bool
  eq_of_edge : ∀ {a b}, edge a b = true → a = b
  eq_of_row : ∀ {fs gs}, row fs gs = true → fs = gs
  eq_of_list : ∀ {ms ns}, list ms ns = true → ms = ns

/-- Equal parts stand at one address. -/
def Sharing.everywhere : Sharing where
  edge a b := decide (a = b)
  row fs gs := decide (fs = gs)
  list ms ns := decide (ms = ns)
  eq_of_edge := of_decide_eq_true
  eq_of_row := of_decide_eq_true
  eq_of_list := of_decide_eq_true

/-- Every part has an address of its own. -/
def Sharing.nowhere : Sharing where
  edge _ _ := false
  row _ _ := false
  list _ _ := false
  eq_of_edge h := absurd h Bool.false_ne_true
  eq_of_row h := absurd h Bool.false_ne_true
  eq_of_list h := absurd h Bool.false_ne_true

mutual
/-- `same_closed_type` under the binder pairs around the two types, innermost first. -/
def sameClosedUnder (σ : Sharing) (binders : List (ℕ × ℕ)) (left right : Ty) : Bool :=
  match left, right with
  | .var a, .var b => decide (a = b)
  | .rigid a, .rigid b => sameRigid binders a b
  | .forallType vs a, .forallType ws b =>
    decide (vs.length = ws.length) && (σ.edge a b || sameClosedUnder σ ((vs.zip ws).reverse ++ binders) a b)
  | .range d l h, .range d' l' h' => decide (d = d') && decide (l = l') && decide (h = h')
  | .unit, .unit => true
  | .top, .top => true
  | .bottom, .bottom => true
  | .function d p e r, .function d' p' e' r' =>
    decide (d = d') && (σ.edge p p' || sameClosedUnder σ binders p p') &&
      (σ.edge e e' || sameClosedUnder σ binders e e') && (σ.edge r r' || sameClosedUnder σ binders r r')
  | .record fs, .record gs => σ.row fs gs || decide (fs.length = gs.length) && sameClosedFields σ binders fs gs
  | .array a, .array b => σ.edge a b || sameClosedUnder σ binders a b
  | .region a, .region b => σ.edge a b || sameClosedUnder σ binders a b
  | .scratch a, .scratch b => σ.edge a b || sameClosedUnder σ binders a b
  | .resource f a, .resource g b => decide (f = g) && (σ.edge a b || sameClosedUnder σ binders a b)
  | .variant fs o, .variant gs o' =>
    decide (o = o') && (σ.row fs gs || decide (fs.length = gs.length) && sameClosedFields σ binders fs gs)
  | .effects a, .effects b => decide (a = b)
  | .openEffects l a, .openEffects m b => decide (l = m) && (σ.edge a b || sameClosedUnder σ binders a b)
  | .union ms, .union ns => σ.list ms ns || decide (ms.length = ns.length) && sameClosedMembers σ binders ms ns
  | .opaqueType a, .opaqueType b => decide (a = b)
  | _, _ => false
termination_by structural left
/-- `fields`, its length test apart: the right row is a map by name, so a later field replaces an earlier one. -/
def sameClosedFields (σ : Sharing) (binders : List (ℕ × ℕ)) (left right : List (String × Ty)) : Bool :=
  match left with
  | [] => true
  | (name, t) :: rest =>
    (match right.reverse.lookup name with
      | some candidate => sameClosedUnder σ binders t candidate
      | none => false) && sameClosedFields σ binders rest right
termination_by structural left
/-- Every member of `left` has an equivalent in `right`. -/
def sameClosedMembers (σ : Sharing) (binders : List (ℕ × ℕ)) (left right : List Ty) : Bool :=
  match left with
  | [] => true
  | member :: rest =>
    right.any (fun candidate => sameClosedUnder σ binders member candidate) && sameClosedMembers σ binders rest right
termination_by structural left
end

def sameClosedType (σ : Sharing) (left right : Ty) : Bool := sameClosedUnder σ [] left right

end Ty

/-! ### Unions -/

/-- The members that a union has so far, and the keys of the closed ones. -/
structure UnionMembers where
  members : List Ty
  closed : List String

mutual
/-- `append`: adds a type to the members, or `none` for `top`. -/
def UnionMembers.append (σ : Ty.Sharing) (u : UnionMembers) : Ty → Option UnionMembers
  | .bottom => some u
  | .top => none
  | .union nested => u.appendAll σ nested
  | t =>
    match t.closedTypeKey with
    | some key => if key ∈ u.closed then some u else some ⟨u.members ++ [t], key :: u.closed⟩
    | none => if u.members.any (fun existing => existing.sameClosedType σ t) then some u
      else some { u with members := u.members ++ [t] }
termination_by structural t => t
def UnionMembers.appendAll (σ : Ty.Sharing) (u : UnionMembers) : List Ty → Option UnionMembers
  | [] => some u
  | t :: rest =>
    match u.append σ t with
    | some u => u.appendAll σ rest
    | none => none
termination_by structural types => types
end

def unionTypes (σ : Ty.Sharing) (types : List Ty) : Ty :=
  match UnionMembers.appendAll σ ⟨[], []⟩ types with
  | none => .top
  | some ⟨[], _⟩ => .bottom
  | some ⟨[t], _⟩ => t
  | some ⟨members, _⟩ => .union members

/-! ### Joins -/

/-- The parts of a list of types that `join_types` tells apart. -/
structure JoinParts where
  ranges : List Ty
  variants : List (String × Ty)
  effects : Finset String
  other : List Ty

def JoinParts.add (parts : JoinParts) : Ty → JoinParts
  | .range d l h => { parts with ranges := parts.ranges ++ [.range d l h] }
  | .variant entries _ => { parts with variants := parts.variants ++ entries }
  | .effects labels => { parts with effects := parts.effects ∪ labels }
  | .bottom => parts
  | t => { parts with other := parts.other ++ [t] }

/-- The loop of `join_types`. -/
def joinParts (types : List Ty) : JoinParts := types.foldl JoinParts.add ⟨[], [], ∅, []⟩

/-- `merge_fields` with the join of two payloads. -/
def mergeFields (join : List Ty → Ty) (fields : List (String × Ty)) : List (String × Ty) :=
  fields.foldl (fun (merged : Table String Ty) (name, t) =>
    match merged.lookup name with
    | some previous => merged.insert name (join [previous, t])
    | none => merged.insert name t) []

/-- `join_types` with the join of two payloads. -/
def joinOnce (σ : Ty.Sharing) (join : List Ty → Ty) (types : List Ty) : Ty :=
  let parts := joinParts types
  if parts.effects ≠ ∅ ∧ parts.ranges = [] ∧ parts.variants = [] ∧ parts.other = [] then .effects parts.effects
  else if parts.variants ≠ [] ∧ parts.ranges = [] ∧ parts.other = [] then
    .variant (mergeFields join parts.variants) false
  else if parts.variants ≠ [] then
    unionTypes σ (parts.other ++ parts.ranges ++ [.variant (mergeFields join parts.variants) false])
  else unionTypes σ (parts.other ++ parts.ranges)

/-- `join_types` to a depth of payloads. -/
def joinWithin (σ : Ty.Sharing) : ℕ → List Ty → Ty
  | 0, types => joinOnce σ (fun _ => .bottom) types
  | depth + 1, types => joinOnce σ (joinWithin σ depth) types

mutual
def Ty.caseDepth : Ty → ℕ
  | .variant entries _ => rowCaseDepth entries + 1
  | .union members => membersCaseDepth members
  | _ => 0
termination_by structural t => t
def Ty.rowCaseDepth : List (String × Ty) → ℕ
  | [] => 0
  | (_, t) :: rest => max t.caseDepth (rowCaseDepth rest)
termination_by structural fields => fields
def Ty.membersCaseDepth : List Ty → ℕ
  | [] => 0
  | t :: rest => max t.caseDepth (membersCaseDepth rest)
termination_by structural members => members
end

def joinTypes (σ : Ty.Sharing) (types : List Ty) : Ty := joinWithin σ (Ty.membersCaseDepth types) types

/-! ### Meets and record updates -/

def Ty.asRecord : Ty → Option (List (String × Ty))
  | .record fields => some fields
  | _ => none

def meetTypes (σ : Ty.Sharing) : List Ty → Ty
  | [t] => t
  | types =>
    let records := types.filterMap Ty.asRecord
    if records.length = types.length then .record (mergeFields (joinTypes σ) records.flatten) else .top

def replaceLast (name : String) (t : Ty) : List (String × Ty) → List (String × Ty)
  | [] => []
  | field :: rest =>
    if name ∈ rest.map Prod.fst then field :: replaceLast name t rest
    else if field.1 = name then (name, t) :: rest
    else field :: rest

def updateRow (fields updates : List (String × Ty)) : List (String × Ty) :=
  updates.foldl (fun fields update =>
    if update.1 ∈ fields.map Prod.fst then replaceLast update.1 update.2 fields else fields ++ [update]) fields

mutual
def recordUpdateType (σ : Ty.Sharing) (updates : List (String × Ty)) : Ty → Ty
  | .bottom => .bottom
  | .union members => joinTypes σ (recordUpdateTypes σ updates members)
  | .record fields => .record (updateRow fields updates)
  | .recordUpdate base fields => .recordUpdate base (updateRow fields updates)
  | base => .recordUpdate base updates
termination_by structural base => base
def recordUpdateTypes (σ : Ty.Sharing) (updates : List (String × Ty)) : List Ty → List Ty
  | [] => []
  | t :: rest => recordUpdateType σ updates t :: recordUpdateTypes σ updates rest
termination_by structural bases => bases
end

end Blot.Typecheck
