import Blot.Frontend.Lexer

/-!
# Folding an operator chain (`fixity.rs`, `fixity.ts`)

The parser leaves an expression as a flat chain of operands and operators; a table of fixities makes a tree of it.  The
compiler and the tooling each have the fold: the first allocates in the arena, and binds the intermediate results of a
long left-associative chain to names instead of nesting them; the second builds the expression.

The `position` of the source is the list of the steps from it on.
-/

namespace Blot.Operators

open Blot.Frontend (Diagnostic)

inductive Associativity where
  | left | right | none | prefixed
  deriving DecidableEq

def fixityIntermediatePrefix : String := "fixity$"

def Intermediate (name : String) : Prop := fixityIntermediatePrefix.toList <+: name.toList

instance (name : String) : Decidable (Intermediate name) :=
  inferInstanceAs (Decidable (fixityIntermediatePrefix.toList <+: name.toList))

/-- `Fixity`.  Its target is a qualified name of the source. -/
structure Fixity where
  operator : String
  associativity : Associativity
  precedence : ℕ
  target : List String
  span : Span
  named : ∃ root path, target = root :: path ∧ ¬ Intermediate root

/-- `FixityTable`, the infix operators -/
structure FixityTable where
  infixes : String → Option Fixity

/-- `ChainStep`, over what stands for an operand -/
structure ChainStep (ε : Type) where
  operator : String
  right : ε
  span : Span
  deriving DecidableEq

/-! ### The arena -/

/-- `AstArena`, the tables that folding fills -/
structure AstArena where
  expressions : List Expression
  patterns : List Pattern
  declarations : List Declaration

namespace AstArena

def expression (arena : AstArena) (e : Expression) : ExpressionId × AstArena :=
  (arena.expressions.length, { arena with expressions := arena.expressions ++ [e] })

def pattern (arena : AstArena) (p : Pattern) : PatternId × AstArena :=
  (arena.patterns.length, { arena with patterns := arena.patterns ++ [p] })

def declaration (arena : AstArena) (d : Declaration) : DeclarationId × AstArena :=
  (arena.declarations.length, { arena with declarations := arena.declarations ++ [d] })

/-- `AstArena::expression_span`; the identifiers of a chain are positions of its arena -/
def expressionSpan (arena : AstArena) (id : ExpressionId) : Span :=
  (arena.expressions[id]?).elim ⟨0, 0⟩ (·.span)

end AstArena

/-! ### `fixity.rs` -/

def maxDirectOperatorChain : ℕ := 64

def targetExpression (fixity : Fixity) (span : Span) (arena : AstArena) : Except String (ExpressionId × AstArena) :=
  match fixity.target with
  | [] => .error s!"fixity `{fixity.operator}` has an empty target"
  | root :: path =>
    let form := if root.toList.head? = some '@' then ExpressionForm.intrinsic root else .var root
    .ok (path.foldl (fun (result, arena) name => arena.expression ⟨.field result name, span⟩)
      (arena.expression ⟨form, span⟩))

def applied (fixity : Fixity) (step : ChainStep ExpressionId) (result right : ExpressionId) (arena : AstArena) :
    Except String (ExpressionId × Span × AstArena) :=
  let span : Span := ⟨(arena.expressionSpan result).start, (arena.expressionSpan right).stop⟩
  match targetExpression fixity step.span arena with
  | .error e => .error e
  | .ok (callee, arena) =>
    let (appliedLeft, arena) := arena.expression ⟨.apply callee result, span⟩
    let (value, arena) := arena.expression ⟨.apply appliedLeft right, span⟩
    .ok (value, span, arena)

namespace FixityTable

variable (table : FixityTable)

/-- `FixityTable::infix` -/
def lookup (step : ChainStep ExpressionId) : Except String Fixity :=
  match table.infixes step.operator with
  | some fixity => .ok fixity
  | none => .error s!"BLOT_UNKNOWN_OPERATOR: no fixity is declared for `{step.operator}`"

/-- What a call of `climb` gives: nothing when the fuel is used up. -/
abbrev Climbed (ε ν : Type) : Type := Option (Except ε ν)

def bindsTighter (fixity next : Fixity) : Bool :=
  decide (fixity.precedence < next.precedence) ||
    (decide (next.precedence = fixity.precedence) && decide (next.associativity = .right))

def nonAssociative (fixity : Fixity) (step : ChainStep ExpressionId) :
    List (ChainStep ExpressionId) → Except String Unit
  | [] => .ok ()
  | following :: _ =>
    if fixity.associativity = .none then
      match table.lookup following with
      | .error e => .error e
      | .ok next =>
        if next.precedence = fixity.precedence then
          .error s!"BLOT_NON_ASSOCIATIVE_CHAIN: `{step.operator}` cannot be chained with `{following.operator}` at the same precedence"
        else .ok ()
    else .ok ()

mutual

def climb : ℕ → ExpressionId → List (ChainStep ExpressionId) → ℕ → AstArena →
    Climbed String (ExpressionId × List (ChainStep ExpressionId) × AstArena)
  | 0, _, _, _, _ => none
  | _ + 1, result, [], _, arena => some (.ok (result, [], arena))
  | fuel + 1, result, step :: steps, minimum, arena =>
    match table.lookup step with
    | .error e => some (.error e)
    | .ok fixity =>
      if fixity.precedence < minimum then some (.ok (result, step :: steps, arena))
      else
        match climbRight fuel fixity step.right steps arena with
        | none => none
        | some (.error e) => some (.error e)
        | some (.ok (right, rest, arena)) =>
          match table.nonAssociative fixity step rest with
          | .error e => some (.error e)
          | .ok () =>
            match applied fixity step result right arena with
            | .error e => some (.error e)
            | .ok (value, _, arena) => climb fuel value rest minimum arena

/-- The inner loop of `climb`: what binds tighter than `fixity` goes into its right operand. -/
def climbRight : ℕ → Fixity → ExpressionId → List (ChainStep ExpressionId) → AstArena →
    Climbed String (ExpressionId × List (ChainStep ExpressionId) × AstArena)
  | 0, _, _, _, _ => none
  | _ + 1, _, right, [], arena => some (.ok (right, [], arena))
  | fuel + 1, fixity, right, following :: steps, arena =>
    match table.lookup following with
    | .error e => some (.error e)
    | .ok next =>
      if bindsTighter fixity next then
        match climb fuel right (following :: steps) next.precedence arena with
        | none => none
        | some (.error e) => some (.error e)
        | some (.ok (right, rest, arena)) => climbRight fuel fixity right rest arena
      else some (.ok (right, following :: steps, arena))

end

/-- The first loop of `fold_chain` over a long chain: all operators are of one precedence and associate to the left. -/
def flatLeftChain : List (ChainStep ExpressionId) → Option ℕ → Bool → Except String Bool
  | [], _, flat => .ok flat
  | step :: steps, precedence, flat =>
    match table.lookup step with
    | .error e => .error e
    | .ok fixity =>
      let flat := flat && decide (fixity.associativity = .left)
      match precedence with
      | some precedence => flatLeftChain steps (some precedence) (flat && decide (fixity.precedence = precedence))
      | none => flatLeftChain steps (some fixity.precedence) flat

def intermediate (span : Span) (index : ℕ) : String :=
  fixityIntermediatePrefix ++ (toString span.start ++ "$" ++ toString span.stop ++ "$" ++ toString index)

/-- The declaration that binds an intermediate result, and the variable that stands for it. -/
def bindIntermediate (value : ExpressionId) (span : Span) (index : ℕ) (arena : AstArena) :
    ExpressionId × DeclarationId × AstArena :=
  let name := intermediate span index
  let (pattern, arena) := arena.pattern (.name name)
  let (declaration, arena) := arena.declaration (.binding .let pattern value)
  let (result, arena) := arena.expression ⟨.var name, span⟩
  (result, declaration, arena)

/-- The second loop of `fold_chain` over a long chain: each application is bound to a name. -/
def bindChain : List (ChainStep ExpressionId) → ℕ → ExpressionId → List DeclarationId → AstArena →
    Except String (ExpressionId × List DeclarationId × AstArena)
  | [], _, result, declarations, arena => .ok (result, declarations, arena)
  | step :: steps, index, result, declarations, arena =>
    match table.lookup step with
    | .error e => .error e
    | .ok fixity =>
      match applied fixity step result step.right arena with
      | .error e => .error e
      | .ok (value, span, arena) =>
        let (result, declaration, arena) := bindIntermediate value span index arena
        bindChain steps (index + 1) result (declarations ++ [declaration]) arena

/-- The direct fold of `fold_chain`. -/
def climbChain (first : ExpressionId) (steps : List (ChainStep ExpressionId)) (arena : AstArena) :
    Climbed String (ExpressionId × AstArena) :=
  match table.climb (2 * steps.length + 1) first steps 0 arena with
  | none => none
  | some (.error e) => some (.error e)
  | some (.ok (_, _ :: _, _)) => some (.error "BLOT_UNRESOLVED_CHAIN: operator chain was not fully resolved")
  | some (.ok (folded, [], arena)) => some (.ok (folded, arena))

/-- The fold of a long left-associative chain in `fold_chain`. -/
def blockChain (first : ExpressionId) (steps : List (ChainStep ExpressionId)) (arena : AstArena) :
    Except String (ExpressionId × AstArena) :=
  match table.bindChain steps 0 first [] arena with
  | .error e => .error e
  | .ok (result, declarations, arena) =>
    let span : Span := ⟨(arena.expressionSpan first).start, (arena.expressionSpan result).stop⟩
    .ok (arena.expression ⟨.block declarations result, span⟩)

/-- `FixityTable::fold_chain`, with fuel enough for the direct fold -/
def foldChain (first : ExpressionId) (steps : List (ChainStep ExpressionId)) (arena : AstArena) :
    Climbed String (ExpressionId × AstArena) :=
  if maxDirectOperatorChain ≤ steps.length then
    match table.flatLeftChain steps none true with
    | .error e => some (.error e)
    | .ok true => some (table.blockChain first steps arena)
    | .ok false => table.climbChain first steps arena
  else table.climbChain first steps arena

end FixityTable

/-! ### `fixity.ts` -/

namespace Source

/-- `Expr`, the forms that folding builds; an operand is named by the identifier the compiler has for it -/
inductive Expr where
  | operand (id : ExpressionId) (span : Span)
  | var (name : String) (span : Span)
  | intrinsic (name : String) (span : Span)
  | field (target : Expr) (name : String) (span : Span)
  | apply (fn arg : Expr) (span : Span)
  deriving DecidableEq

def Expr.span : Expr → Span
  | .operand _ span | .var _ span | .intrinsic _ span | .field _ _ span | .apply _ _ span => span

def targetPath (span : Span) : List String → Expr
  | [] => .var "" span
  | root :: rest =>
    rest.foldl (fun result name => .field result name span)
      (if root.toList.head? = some '@' then .intrinsic root span else .var root span)

/-- `targetExpr`; the target of a fixity is not empty -/
def targetExpr (fixity : Fixity) (span : Span) : Expr := targetPath span fixity.target

variable (table : FixityTable)

/-- `lookup` of `foldChain` -/
def lookup (step : ChainStep Expr) : Except Diagnostic Fixity :=
  match table.infixes step.operator with
  | some fixity => .ok fixity
  | none => .error ⟨"BLOT_UNKNOWN_OPERATOR",
      s!"No source fixity is declared for the infix operator `{step.operator}`.", step.span⟩

def nonAssociative (fixity : Fixity) (step : ChainStep Expr) : List (ChainStep Expr) → Except Diagnostic Unit
  | [] => .ok ()
  | following :: _ =>
    if fixity.associativity = .none then
      match lookup table following with
      | .error e => .error e
      | .ok next =>
        if next.precedence = fixity.precedence then
          .error ⟨"BLOT_NON_ASSOCIATIVE_CHAIN",
            s!"`{step.operator}` is non-associative, so it cannot be chained with `{following.operator}` at the same precedence. Parenthesize one side.",
            following.span⟩
        else .ok ()
    else .ok ()

/-- The application that `climb` builds. -/
def apply (fixity : Fixity) (step : ChainStep Expr) (result right : Expr) : Expr :=
  let span : Span := ⟨result.span.start, right.span.stop⟩
  .apply (.apply (targetExpr fixity step.span) result span) right span

mutual

/-- `climb` of `foldChain` -/
def climb : ℕ → Expr → List (ChainStep Expr) → ℕ →
    FixityTable.Climbed Diagnostic (Expr × List (ChainStep Expr))
  | 0, _, _, _ => none
  | _ + 1, result, [], _ => some (.ok (result, []))
  | fuel + 1, result, step :: steps, minimum =>
    match lookup table step with
    | .error e => some (.error e)
    | .ok fixity =>
      if fixity.precedence < minimum then some (.ok (result, step :: steps))
      else
        match climbRight fuel fixity step.right steps with
        | none => none
        | some (.error e) => some (.error e)
        | some (.ok (right, rest)) =>
          match nonAssociative table fixity step rest with
          | .error e => some (.error e)
          | .ok () => climb fuel (apply fixity step result right) rest minimum

/-- The inner loop of `climb`. -/
def climbRight : ℕ → Fixity → Expr → List (ChainStep Expr) →
    FixityTable.Climbed Diagnostic (Expr × List (ChainStep Expr))
  | 0, _, _, _ => none
  | _ + 1, _, right, [] => some (.ok (right, []))
  | fuel + 1, fixity, right, following :: steps =>
    match lookup table following with
    | .error e => some (.error e)
    | .ok next =>
      if FixityTable.bindsTighter fixity next then
        match climb fuel right (following :: steps) next.precedence with
        | none => none
        | some (.error e) => some (.error e)
        | some (.ok (right, rest)) => climbRight fuel fixity right rest
      else some (.ok (right, following :: steps))

end

/-- `foldChain`, with fuel enough; `expectConsumed` is its last branch -/
def foldChain (first : Expr) (steps : List (ChainStep Expr)) : FixityTable.Climbed Diagnostic Expr :=
  match climb table (2 * steps.length + 1) first steps 0 with
  | none => none
  | some (.error e) => some (.error e)
  | some (.ok (_, step :: _)) =>
    some (.error ⟨"BLOT_UNRESOLVED_CHAIN", "The operator chain could not be fully resolved.", step.span⟩)
  | some (.ok (folded, [])) => some (.ok folded)

end Source

end Blot.Operators
