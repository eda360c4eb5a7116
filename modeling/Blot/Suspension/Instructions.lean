import Blot.Suspension.Graph

/-!
# The contracts of instructions (`continuation_validation.rs`)

`instruction_matches` gives, for each kind of operation, the operands, the result and the metadata it may have.
-/

namespace Blot.Suspension

open Blot.Hir

/-- The words that only some operations carry are absent from the others. -/
def Operation.metadataFits (operation : Operation) : Bool :=
  !(operation.value.isSome && operation.kind != "constant"
    || operation.case.isSome && !(["sum.make", "sum.payload"].contains operation.kind)
    || operation.field.isSome && !(["product.project", "store.read.field"].contains operation.kind)
    || operation.operator.isSome && !(["scalar", "scalar.unary", "vector"].contains operation.kind)
    || operation.conversion.isSome && operation.kind != "convert"
    || operation.update.isSome && !(["store.write", "store.grow"].contains operation.kind)
    || operation.staticStore.isSome && operation.kind != "store.literal"
    || operation.lane.isSome &&
      !(operation.kind == "vector" && [some "extract", some "replace"].contains operation.operator)
    || operation.function.isSome && operation.kind != "callback.make"
    || operation.signature.isSome && operation.kind != "callback.make")

def vectorShape : RuntimeType → Option (RuntimeWord × ℕ)
  | .vector element lanes => some (element, lanes)
  | .mask element lanes => some (element, lanes)
  | _ => none

/-- A selector of `shuffle` is a constant from 0 to 7. -/
def Function.selects (function : Function) (selector : ValueId) : Bool :=
  match (function.continuations.flatMap (·.instructions)).find? (·.definition.value = selector) with
  | some candidate =>
    match candidate.operation.kind, candidate.operation.value with
    | "constant", some (.signedInteger32 value) => 0 ≤ value && value ≤ 7
    | _, _ => false
  | none => false

def vectorMatches (instruction : Instruction) (function : Function) (result : RuntimeType)
    (types : List RuntimeType) : Bool :=
  let operation := instruction.operation
  match (vectorShape result).or (types.head?.bind vectorShape) with
  | none => false
  | some (element, lanes) =>
    if !([("float-32", 4), ("integer-32", 4), ("integer-16", 8), ("integer-8", 16)].contains (element, lanes)) then
      false
    else
      let vector := RuntimeType.vector element lanes
      let mask := RuntimeType.mask element lanes
      let scalar := if element == "float-32" then RuntimeType.float32 else RuntimeType.integer32
      let laneValid := operation.lane.any (· < lanes)
      match operation.operator with
      | some "make" => lanes == 4 && result == vector && types.length == lanes && types.all (· == scalar)
      | some "splat" => result == vector && types == [scalar]
      | some "extract" => lanes == 4 && result == scalar && types == [vector] && laneValid
      | some "replace" => element == "integer-32" && result == vector && types == [vector, scalar] && laneValid
      | some "add" | some "subtract" | some "multiply" => result == vector && types == [vector, vector]
      | some "divide" => element == "float-32" && result == vector && types == [vector, vector]
      | some "equal" => result == mask && types == [vector, vector]
      | some "less-than" => element == "float-32" && result == mask && types == [vector, vector]
      | some "not-equal" | some "less-than-signed" | some "less-than-unsigned" | some "greater-than-signed"
      | some "greater-than-unsigned" | some "less-than-or-equal-signed" | some "less-than-or-equal-unsigned"
      | some "greater-than-or-equal-signed" | some "greater-than-or-equal-unsigned" =>
        element != "float-32" && result == mask && types == [vector, vector]
      | some "bit-and" | some "bit-or" | some "bit-xor" =>
        element != "float-32" && (result == vector || result == mask) && types == [result, result]
      | some "bit-not" => element != "float-32" && (result == vector || result == mask) && types == [result]
      | some "shift-left" | some "shift-right-signed" | some "shift-right-unsigned" =>
        element != "float-32" && result == vector && types == [vector, .integer32]
      | some "minimum-signed" | some "minimum-unsigned" | some "maximum-signed" | some "maximum-unsigned" =>
        element != "float-32" && result == vector && types == [vector, vector]
      | some "select" => result == vector && types == [mask, vector, vector]
      | some "mask-bitmask" => element != "float-32" && result == .integer32 && types == [mask]
      | some "mask-all" | some "mask-any" => result == .integer32 && types == [mask]
      | some "sum" => element == "float-32" && result == scalar && types == [vector]
      | some "shuffle" =>
        element == "float-32" && result == vector &&
          types == [vector, vector, .integer32, .integer32, .integer32, .integer32] &&
          (instruction.operands.drop 2).all function.selects
      | _ => false

def conversionWord : RuntimeType → RuntimeType → Option RuntimeWord
  | .float32, .float64 => some "float-32-to-float-64"
  | .float64, .float32 => some "float-64-to-float-32"
  | .float64, .signedInteger64 => some "float-64-to-signed-integer-64"
  | .integer32, .signedInteger64 => some "signed-integer-32-to-signed-integer-64"
  | .signedInteger64, .integer32 => some "signed-integer-64-to-signed-integer-32"
  | .signedInteger64, .float32 => some "signed-integer-64-to-float-32"
  | .signedInteger64, .float64 => some "signed-integer-64-to-float-64"
  | _, _ => none

/-- The result of `scalar`, after its operands. -/
def scalarMatches (operation : Operation) (operands : List ℕ) (resultId : ℕ) (result : RuntimeType)
    (types : List RuntimeType) : Bool :=
  match operands, types with
  | [left, right], [type, _] =>
    left == right &&
      [RuntimeType.integer32, .signedInteger64, .float32, .float64, .boolean].contains type &&
      match operation.operator with
      | some "equal" | some "not-equal" | some "less-than" | some "less-than-or-equal" | some "greater-than"
      | some "greater-than-or-equal" => result == .boolean
      | some "add" | some "subtract" | some "multiply" | some "divide" | some "remainder" =>
        resultId == left && result != .boolean
      | _ => false
  | _, _ => false

/-- The result of `text.next-byte`: nothing, or a text and an index. -/
def nextByteMatches (tables : Tables) : RuntimeType → Bool
  | .sum _ [none', some'] =>
    none'.name == "None" && some'.name == "Some" && tables.types[none'.payloadType]? == some .unit &&
      match tables.types[some'.payloadType]? with
      | some (.product _ [text, index]) =>
        text.name == "0" && index.name == "1" && tables.types[text.typeId]? == some .text &&
          tables.types[index.typeId]? == some .signedInteger64
      | _ => false
  | _ => false

def storeMatches (tables : Tables) (instruction : Instruction) (operands : List ℕ) (result : RuntimeType)
    (types : List RuntimeType) : Bool :=
  let operation := instruction.operation
  let resultId := instruction.definition.typeId
  match operation.kind with
  | "store.empty" => operands.isEmpty && match result with
    | .store _ => true
    | _ => false
  | "store.literal" => match result with
    | .store elementType =>
      match operation.staticStore with
      | some store => operands.isEmpty && (tables.staticStores[store]?).any (·.elementType == elementType)
      | none => operands.all (· == elementType)
    | _ => false
  | "store.new" => match result, operands, types with
    | .store elementType, [_, value], [.signedInteger64, _] => value == elementType
    | _, _, _ => false
  | "store.length" => result == .signedInteger64 && match types with
    | [.store _] => true
    | _ => false
  | "store.read" => match types with
    | [.store elementType, .signedInteger64] => elementType == resultId
    | _ => false
  | "store.read.field" => match types with
    | [.store elementType, .signedInteger64] =>
      match tables.types[elementType]? with
      | some (.product _ fields) => (operation.field.bind (fields[·]?)).any (·.typeId == resultId)
      | _ => false
    | _ => false
  | "store.write" | "store.grow" => match result with
    | .store elementType =>
      [some "owned-reuse", some "persistent"].contains operation.update &&
        !(operation.update == some "owned-reuse" && instruction.definition.ownership != "owned") &&
        if operation.kind == "store.grow" then operands == [resultId, elementType]
        else match operands, types with
          | [store, _, value], [_, index, _] => store == resultId && index == .signedInteger64 && value == elementType
          | _, _ => false
    | _ => false
  | _ => false

def textMatches (tables : Tables) (operation : Operation) (result : RuntimeType) (types : List RuntimeType) : Bool :=
  match operation.kind with
  | "text.append" => result == .text && types == [.text, .text]
  | "text.join" => result == .text && match types with
    | [.store elementType] => tables.types[elementType]? == some .text
    | _ => false
  | "text.length" | "text.byte-length" => result == .signedInteger64 && types == [.text]
  | "text.scalar-at" => result == .text && types == [.text, .signedInteger64]
  | "text.next-byte" => types == [.text, .signedInteger64] && nextByteMatches tables result
  | "text.slice" | "text.slice-bytes" => result == .text && types == [.text, .signedInteger64, .signedInteger64]
  | "text.find-from" | "text.find-byte-from" =>
    result == .signedInteger64 && types == [.text, .text, .signedInteger64]
  | "text.compare" => result == .integer32 && types == [.text, .text]
  | "text.contains" => result == .boolean && types == [.text, .text]
  | "text.from-i64" => result == .text && types == [.signedInteger64]
  | _ => false

/-- The operations on products, sums, indirections, seals, scratches, callbacks and resources. -/
def aggregateMatches (instruction : Instruction) (operands : List ℕ) (result : RuntimeType)
    (types : List RuntimeType) : Bool :=
  let operation := instruction.operation
  let resultId := instruction.definition.typeId
  match operation.kind with
  | "product.make" => match result with
    | .product _ fields => fields.map (·.typeId) == operands
    | _ => false
  | "product.project" => match types with
    | [.product _ fields] => (operation.field.bind (fields[·]?)).any (·.typeId == resultId)
    | _ => false
  | "sum.make" => match result with
    | .sum _ cases => (operation.case.bind (cases[·]?)).any fun sumCase => operands == [sumCase.payloadType]
    | _ => false
  | "sum.tag" => result == .integer32 && match types with
    | [.sum _ _] => true
    | _ => false
  | "sum.payload" => match types with
    | [.sum _ cases] => (operation.case.bind (cases[·]?)).any (·.payloadType == resultId)
    | _ => false
  | "indirect.make" => match result with
    | .indirect targetType => operands == [targetType]
    | _ => false
  | "indirect.load" => match types with
    | [.indirect targetType] => targetType == resultId
    | _ => false
  | "scratch.with-capacity" => match result, types with
    | .scratch _, [.signedInteger64] => true
    | _, _ => false
  | "scratch.push" => match result with
    | .scratch elementType => operands == [resultId, elementType]
    | _ => false
  | "scratch.finish" => match types, result with
    | [.scratch source], .store target => source == target
    | _, _ => false
  | "scratch.recycle" => match types, result with
    | [.store source], .scratch target => source == target
    | _, _ => false
  | "seal.wrap" => match result with
    | .sealed _ representationType => operands == [representationType]
    | _ => false
  | "seal.unwrap" => match types with
    | [.sealed _ representationType] => representationType == resultId
    | _ => false
  | "callback.make" => match result with
    | .callback function signature environmentType =>
      operands == [environmentType] && operation.function == some function && operation.signature.all (· == signature)
    | _ => false
  | "resource.move" | "resource.borrow" | "resource.freeze" => match result with
    | .resource _ _ => operands == [resultId]
    | _ => false
  | _ => false

/-- `instruction_matches`, given the representations of the result and of the operands -/
def instructionMatches (tables : Tables) (instruction : Instruction) (operands : List ℕ) (function : Function)
    (result : RuntimeType) (types : List RuntimeType) : Bool :=
  let operation := instruction.operation
  operation.metadataFits &&
    match operation.kind with
    | "constant" => operands.isEmpty && operation.value.any (constantMatches · result)
    | "scalar" => scalarMatches operation operands instruction.definition.typeId result types
    | "scalar.unary" =>
      operands == [instruction.definition.typeId] &&
        match result, operation.operator with
        | .float32, some "negate" | .float64, some "negate" | .float32, some "square-root" => true
        | _, _ => false
    | "convert" => match types with
      | [operand] =>
        match conversionWord operand result with
        | some conversion => operation.conversion == some conversion
        | none => false
      | _ => false
    | "vector" => vectorMatches instruction function result types
    | _ =>
      storeMatches tables instruction operands result types || textMatches tables operation result types ||
        aggregateMatches instruction operands result types

end Blot.Suspension
