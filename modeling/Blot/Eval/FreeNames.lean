import Blot.Eval.Computation

/-!
# The names that are free in a closure (`eval.rs`)

`collect_free` walks an expression under the scopes that are open; the names of a set are a list without repetitions.
The expressions of an arena name one another by position, so a walk is given a `depth` that bounds how far it goes down;
the memo of `closure_free_names` holds what the walk gives and is left out.
-/

namespace Blot.Eval

variable (module : Module)

def subpatterns : Pattern → List PatternId
  | .tuple elements | .array elements => elements
  | .constructor _ (some payload) => [payload]
  | .shape fields => fields.map (·.2)
  | _ => []

/-- `pattern_names`: the names that a pattern binds. -/
def patternNames : ℕ → PatternId → List String
  | 0, _ => []
  | depth + 1, id =>
    match module.patterns[id]? with
    | some (.name name) => [name]
    | some pattern => (subpatterns pattern).flatMap (patternNames depth)
    | none => []

/-- `pattern_pins`: the names that a pattern reads. -/
def patternPins : ℕ → PatternId → List String
  | 0, _ => []
  | depth + 1, id =>
    match module.patterns[id]? with
    | some (.pin name) => [name]
    | some pattern => (subpatterns pattern).flatMap (patternPins depth)
    | none => []

def isBound (bound : List (List String)) (name : String) : Bool := bound.any (·.contains name)

def declarationValue : Declaration → ExpressionId
  | .signature _ value | .binding _ _ value | .shadow _ value | .opened value => value

def declarationScope (depth : ℕ) : Declaration → List String
  | .signature _ _ => []
  | .binding _ pattern _ => patternNames module depth pattern
  | .shadow name _ => [name]
  | .opened _ => []

/-- The loop of `collect_free` over the declarations of a block: what the scope holds in the end, and the names that are
free. -/
def collectDeclarations (freeNames : ExpressionId → List String) (depth : ℕ) (bound : List (List String)) :
    List DeclarationId → List String → List String → List String × List String
  | [], scope, free => (scope, free)
  | id :: ids, scope, free =>
    match module.declarations[id]? with
    | none => collectDeclarations freeNames depth bound ids scope free
    | some declaration =>
      let reads := freeNames (declarationValue declaration)
      let free := (reads.filter fun name => !scope.contains name && !isBound bound name).foldl (fun free name =>
        free.insert name) free
      collectDeclarations freeNames depth bound ids (scope ++ declarationScope module depth declaration) free

def formOf (id : ExpressionId) : Option ExpressionForm := (module.expressions[id]?).map Expression.form

def collectFree : ℕ → ExpressionId → List (List String) → List String → List String
  | 0, _, _, free => free
  | depth + 1, id, bound, free =>
    let each (ids : List ExpressionId) (free : List String) : List String :=
      ids.foldl (fun free id => collectFree depth id bound free) free
    match formOf module id with
    | some (.var name) => if isBound bound name then free else free.insert name
    | some (.apply function argument) => each [function, argument] free
    | some (.field target _) | some (.recLambda target) => collectFree depth target bound free
    | some (.lambda parameter body _) => collectFree depth body (patternNames module depth parameter :: bound) free
    | some (.array elements) => each (elements.map (·.value)) free
    | some (.tuple elements) => each elements free
    | some (.shape members) => members.foldl (fun free member =>
        match member with
        | .field _ value | .spread value => each [value] free
        | .computed name value => each [name, value] free) free
    | some (.ifThen branches fallback) =>
      each fallback.toList (branches.foldl (fun free branch => each [branch.condition, branch.consequence] free) free)
    | some (.caseOf target arms) => arms.foldl (fun free arm =>
        let free := (patternPins module depth arm.pattern).foldl (fun free name => free.insert name) free
        collectFree depth arm.body (patternNames module depth arm.pattern :: bound) free) (each [target] free)
    | some (.block declarations result) =>
      let (scope, free) := collectDeclarations module (fun id => collectFree depth id [] []) depth bound declarations []
        free
      collectFree depth result (scope :: bound) free
    | _ => free

def closureFreeNames (modules : String → Option Module) (depth : ℕ) (path : String) (parameter : PatternId)
    (body : ExpressionId) (selfName : Option String) : Except Diagnostic (List String) :=
  match modules path with
  | none => .error ⟨"BLOT_UNRESOLVED_IMPORT", s!"Module `{path}` was not loaded.", ⟨0, 0⟩⟩
  | some module =>
    let scope := patternNames module depth parameter ++ selfName.toList
    .ok ((collectFree module depth body [scope] []).mergeSort fun a b => decide (a ≤ b))

end Blot.Eval
