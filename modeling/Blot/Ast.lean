import Mathlib.Data.Nat.Notation
import Mathlib.Data.Int.Notation

/-!
# The abstract syntax of Core (`ast.rs`)

A module is an arena; expressions, patterns and declarations name each other by their positions in it.
-/

namespace Blot

structure Span where
  start : ℕ
  stop : ℕ
  deriving DecidableEq

abbrev ExpressionId := ℕ
abbrev PatternId := ℕ
abbrev DeclarationId := ℕ

structure ArrayElement where
  spread : Bool
  value : ExpressionId

inductive ShapeMember where
  | field (name : String) (value : ExpressionId)
  | computed (name value : ExpressionId)
  | spread (value : ExpressionId)

structure Branch where
  condition : ExpressionId
  consequence : ExpressionId

structure Arm where
  pattern : PatternId
  body : ExpressionId

/-- `Pattern`, without its spans -/
inductive Pattern where
  | name (name : String)
  | wildcard
  | pin (name : String)
  | int (value : ℤ)
  | float (value : Float)
  | text (value : String)
  | unit
  | tuple (elements : List PatternId)
  | array (elements : List PatternId)
  | constructor (name : String) (payload : Option PatternId)
  | shape (fields : List (String × PatternId))

/-- `Expression`, without its span -/
inductive ExpressionForm where
  | var (name : String)
  | int (value : ℤ)
  | float (value : Float)
  | text (value : String)
  | unit
  | intrinsic (name : String)
  | tag (name : String)
  | apply (function argument : ExpressionId)
  | field (target : ExpressionId) (name : String)
  | lambda (parameter : PatternId) (body : ExpressionId) (deferred : Bool)
  | array (elements : List ArrayElement)
  | tuple (elements : List ExpressionId)
  | shape (members : List ShapeMember)
  | ifThen (branches : List Branch) (fallback : Option ExpressionId)
  | caseOf (target : ExpressionId) (arms : List Arm)
  | block (declarations : List DeclarationId) (result : ExpressionId)
  | recLambda (lambda : ExpressionId)

structure Expression where
  form : ExpressionForm
  span : Span

inductive DeclarationKind where
  | «let»
  | effect
  | const
  deriving DecidableEq

/-- `Declaration`, without its spans and tags -/
inductive Declaration where
  | signature (name : String) (value : ExpressionId)
  | binding (kind : DeclarationKind) (pattern : PatternId) (value : ExpressionId)
  | shadow (name : String) (value : ExpressionId)
  | opened (value : ExpressionId)

/-- `Module`, with its `AstArena` -/
structure Module where
  expressions : List Expression
  patterns : List Pattern
  declarations : List Declaration
  span : Span

end Blot
