import Blot.Boundary.Arena
import Blot.Support.Matching
import Blot.Typecheck.Unions

/-!
# Sealed module boundaries (`typecheck.rs`, `sealed_boundary_bytes`)

The boundary of a checked module is a copy of its interface types into a fresh arena: quantified rigids get new numbers
in the order they are met, rows are sorted by name, and the members of a union by a text (`closedBoundaryTypeKey`).

The explicit stacks of the source are recursions here.  An arena that validates lists children before their parent, so
`id + 1` is enough fuel for the type `id`; what is copied does not depend on the fuel beyond that (`copyUnder_fuel`).
-/

namespace Blot.Boundary

open Blot.Support Blot.Typecheck

/-- `CachedModuleInterface`, the parts that its boundary is made of. -/
structure CachedModuleInterface where
  types : List FlatTypeNode
  result : ℕ
  effects : ℕ
  parameter : Option ℕ

/-! ### The key of a union member -/

def requirementKeys : List (MemberRequirement ℕ) → List String → List String
  | r :: rs, subject :: member :: keys =>
    (Ty.textKey r.name ++ "(" ++ subject ++ "," ++ member ++ ")") :: requirementKeys rs keys
  | _, _ => []

/-- `fields`: the keys of a row, from the keys of its types. -/
def rowKey (fields : List (String × ℕ)) (keys : List String) : String :=
  "\x7b" ++ Ty.sortedKey (List.zipWith (fun f key => Ty.textKey f.1 ++ key) fields keys) ++ "\x7d"

/-- The key of a node, from the keys of its children (the leaves of `Frame::Visit` and the arms of
`Frame::Assemble`). -/
def assembleKey : FlatTypeNode → List String → Option String
  | .qualified requirements _, body :: keys =>
    some ("qualified(" ++ body ++ ";" ++ Ty.sortedKey (requirementKeys requirements keys) ++ ")")
  | .range domain low high, _ =>
    some ("range(" ++ Ty.domainKey domain ++ "," ++ Ty.scalarKey low ++ "," ++ Ty.scalarKey high ++ ")")
  | .unit, _ => some "unit"
  | .function deferred _ _ _, [parameter, performed, result] =>
    some ("fun(" ++ toString deferred ++ "," ++ parameter ++ "," ++ performed ++ "," ++ result ++ ")")
  | .record fields, keys => some ("record" ++ rowKey fields keys)
  | .recordUpdate _ fields, base :: keys => some ("record-update(" ++ base ++ "," ++ rowKey fields keys ++ ")")
  | .array _, [element] => some ("array(" ++ element ++ ")")
  | .region _, [element] => some ("region(" ++ element ++ ")")
  | .scratch _, [element] => some ("scratch(" ++ element ++ ")")
  | .resource family _, [payload] => some ("resource(" ++ Ty.textKey family ++ ")" ++ payload)
  | .variant entries isOpen, keys => some ("variant(" ++ toString isOpen ++ ")" ++ rowKey entries keys)
  | .effects labels, _ => some ("effects\x7b" ++ Ty.labelsKey labels ++ "\x7d")
  | .openEffects labels _, [tail] => some ("open-effects\x7b" ++ Ty.labelsKey labels ++ ";" ++ tail ++ "\x7d")
  | .union _, keys => some ("union\x7b" ++ Ty.sortedKey keys ++ "\x7d")
  | .opaqueType name, _ => some ("opaque(" ++ Ty.textKey name ++ ")")
  | .top, _ => some "top"
  | .bottom, _ => some "bottom"
  | _, _ => none

/-- The loop of `closed_boundary_type_key`; `binders` numbers the rigids in scope. -/
def keyUnder (source : List FlatTypeNode) : ℕ → Table ℕ ℕ → ℕ → Option String
  | 0, _, _ => none
  | fuel + 1, binders, id =>
    match source[id]? with
    | none => none
    | some (.rigid v) => (binders.lookup v).map fun index => "^" ++ toString index
    | some (.forallType vs body) =>
      (keyUnder source fuel (binders.extend (vs.zipIdx binders.length)) body).map fun body =>
        "all" ++ toString vs.length ++ "(" ++ body ++ ")"
    | some node => (node.children.mapM (keyUnder source fuel binders)).bind (assembleKey node)

def closedBoundaryTypeKey (source : List FlatTypeNode) (root : ℕ) (outerRigids : List (ℕ × ℕ)) : Option String :=
  (keyUnder source (root + 1) (Table.extend [] ((outerRigids.map Prod.fst).zipIdx)) root).map fun body =>
    "all" ++ toString outerRigids.length ++ "(" ++ body ++ ")"

/-! ### The copy -/

def keyedMember (source : List FlatTypeNode) (rigids : List (ℕ × ℕ)) (member : ℕ) : Except String (String × ℕ) :=
  match closedBoundaryTypeKey source member rigids with
  | some key => .ok (key, member)
  | none => .error ("sealed boundary union member " ++ toString member ++ " is not closed")

def arrange (source : List FlatTypeNode) (rigids : List (ℕ × ℕ)) : FlatTypeNode → Except String FlatTypeNode
  | .record fields => .ok (.record (sortBy Prod.fst fields))
  | .recordUpdate base fields => .ok (.recordUpdate base (sortBy Prod.fst fields))
  | .variant entries isOpen => .ok (.variant (sortBy Prod.fst entries) isOpen)
  | .union members => do
    let keyed ← collect (keyedMember source rigids) members
    .ok (.union ((sortBy Prod.fst keyed).map Prod.snd))
  | node => .ok node

def freshRigids : List ℕ → Building → Except String (List ℕ × Building)
  | [], s => .ok ([], s)
  | _ :: vs, s =>
    if s.nextRigid + 1 < 2 ^ 32 then do
      let (rest, s') ← freshRigids vs { s with nextRigid := s.nextRigid + 1 }
      .ok (s.nextRigid :: rest, s')
    else .error "sealed boundary rigid identity overflow"

def copyAll (copy : ℕ → Building → Except String (ℕ × Building)) :
    List ℕ → Building → Except String (List ℕ × Building)
  | [], s => .ok ([], s)
  | t :: ts, s => do
    let (id, s) ← copy t s
    let (ids, s) ← copyAll copy ts s
    .ok (id :: ids, s)

/-- The loop of `copy_boundary_type`; `rigids` are the binders in scope, outermost first, with their new numbers. -/
def copyUnder (source : List FlatTypeNode) : ℕ → List (ℕ × ℕ) → ℕ → Building → Except String (ℕ × Building)
  | 0, _, _, _ => .error "sealed boundary copy produced no type"
  | fuel + 1, rigids, id, s =>
    match source[id]? with
    | none => .error ("sealed boundary references missing type " ++ toString id)
    | some (.rigid v) =>
      match rigids.reverse.lookup v with
      | some canonical => .ok (s.intern (.rigid canonical))
      | none => .error ("sealed boundary contains free rigid variable " ++ toString v)
    | some (.forallType vs body) => do
      let (canonical, s) ← freshRigids vs s
      let (body, s) ← copyUnder source fuel (rigids ++ vs.zip canonical) body s
      .ok (s.intern (.forallType canonical body))
    | some node => do
      let node ← arrange source rigids node
      let (children, s) ← copyAll (copyUnder source fuel rigids) node.children s
      .ok (s.intern (node.assemble children))

/-- `copy_boundary_type`, from the outside of all binders. -/
def copyBoundaryType (source : List FlatTypeNode) (id : ℕ) (s : Building) : Except String (ℕ × Building) :=
  copyUnder source (id + 1) [] id s

/-! ### The boundary and its bytes -/

structure SealedModuleBoundary where
  schema : ℕ
  compilerSemanticVersion : String
  certificateSchema : ℕ
  types : List FlatTypeNode
  result : ℕ
  effects : ℕ
  parameter : Option ℕ
  deriving DecidableEq

def artifactReferencePathLimit : ℕ := 128

def artifactExpandedReferenceLimit : ℕ := 1048576

/-- The depth and the expanded size of each type of an arena, of which the children lie before their parent. -/
def referenceSizes (types : List FlatTypeNode) : List (ℕ × ℕ) :=
  types.foldl (fun sizes node =>
    let children := node.children.map fun child => sizes.getD child (0, 0)
    sizes ++ [(children.foldl (fun depth child => max depth (child.1 + 1)) 0,
      children.foldl (fun expanded child => min (expanded + child.2) (artifactExpandedReferenceLimit + 1)) 1)]) []

/-- `validate_named_flat_type_reference_budget` for a boundary, whose references are checked as
`validateCertificateType` checks them. -/
def validateReferenceBudget (types : List FlatTypeNode) : List ℕ → ℕ → Except String Unit
  | [], _ => .ok ()
  | root :: roots, expandedRoots =>
    let (depth, expanded) := (referenceSizes types).getD root (0, 0)
    let expandedRoots := min (expandedRoots + expanded) (artifactExpandedReferenceLimit + 1)
    if artifactReferencePathLimit < depth then
      .error ("sealed module boundary root type " ++ toString root ++ " has reference-path depth " ++ toString depth ++
        ", maximum is " ++ toString artifactReferencePathLimit)
    else if artifactExpandedReferenceLimit < expandedRoots then
      .error ("sealed module boundary roots expand to at least " ++ toString expandedRoots ++
        " references, maximum is " ++ toString artifactExpandedReferenceLimit)
    else validateReferenceBudget types roots expandedRoots

namespace SealedModuleBoundary

def roots (boundary : SealedModuleBoundary) : List ℕ :=
  boundary.result :: boundary.effects :: boundary.parameter.toList

def validate (boundary : SealedModuleBoundary) : Except String Unit := do
  require (boundary.schema = 1)
    ("sealed module boundary schema is " ++ toString boundary.schema ++ ", expected 1")
  require (boundary.compilerSemanticVersion = "0.1.0")
    ("sealed module boundary compiler version is " ++ boundary.compilerSemanticVersion ++ ", expected 0.1.0")
  require (boundary.certificateSchema = 24)
    ("sealed module boundary certificate schema is " ++ toString boundary.certificateSchema ++ ", expected 24")
  validateReferenceBudget boundary.types boundary.roots 0
  each (validateCertificateType boundary.types) boundary.roots

/-- `SealedModuleBoundary::to_bytes`, with the encoder that it calls. -/
def toBytes {Bytes : Type} (encode : SealedModuleBoundary → Except String Bytes) (boundary : SealedModuleBoundary) :
    Except String Bytes := do
  boundary.validate
  encode boundary

end SealedModuleBoundary

namespace CachedModuleInterface

def sealedBoundary (interface : CachedModuleInterface) : Except String SealedModuleBoundary := do
  let (result, s) ← copyBoundaryType interface.types interface.result ⟨[], 0⟩
  let (effects, s) ← copyBoundaryType interface.types interface.effects s
  match interface.parameter with
  | none => .ok ⟨1, "0.1.0", 24, s.nodes, result, effects, none⟩
  | some parameter => do
    let (parameter, s) ← copyBoundaryType interface.types parameter s
    .ok ⟨1, "0.1.0", 24, s.nodes, result, effects, some parameter⟩

def sealedBoundaryBytes {Bytes : Type} (encode : SealedModuleBoundary → Except String Bytes)
    (interface : CachedModuleInterface) : Except String Bytes := do
  let boundary ← interface.sealedBoundary
  boundary.toBytes encode

end CachedModuleInterface

end Blot.Boundary
