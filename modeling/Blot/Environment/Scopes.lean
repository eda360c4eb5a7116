import Blot.Environment.Capture

/-!
# Scopes of a running program (`evaluate_declarations`)

The evaluator at work on its environments.  An activation is a stack of scopes, a call or a forced argument with the
blocks it is in, and only its innermost scope acts; activations interleave freely, as an effect suspends one and
another goes on, and each is resumed at most once.  Beside each environment stands the map of the eager model, where
every declaration copies the whole map and adds its names, and the names that may be looked up in it.
-/

namespace Blot.Environment

open Support

variable {V T : Type}

/-! ### The eager model -/

abbrev EagerMap (V T : Type) := Members T → String → Option (Binding V T)

namespace EagerMap

def empty : EagerMap V T := fun _ _ => none

def declare (map : EagerMap V T) (entries : Table String V) : EagerMap V T := fun members name =>
  ((entries.reverse.lookup name).map .value).or (map members name)

def opened (map : EagerMap V T) (fields : Table String V) : EagerMap V T := fun members name =>
  ((fields.lookup name).map .value).or (map members name)

def group (map : EagerMap V T) (environment : ℕ) : EagerMap V T := fun members name =>
  (((members environment).lookup name).map (.member · environment)).or (map members name)

end EagerMap

/-- An environment that the program holds, the eager map in its place, and the names it may look up there. -/
structure View (V T : Type) where
  environment : ℕ
  eager : EagerMap V T
  may : Members T → String → Prop

/-- A scope where declarations are evaluated, with the active recursive group: its source group and its frame. -/
structure Scope (V T : Type) extends View V T where
  active : Option (ℕ × ℕ) := none

def adding (entries : Table String V) (may : Members T → String → Prop) : Members T → String → Prop :=
  fun members name => (entries.lookup name).isSome ∨ may members name

structure State (V T : Type) where
  heap : Heap V T
  /-- The scopes of every activation, the innermost first. -/
  activations : ℕ → List (Scope V T)
  /-- The environments of the closures, deferred arguments and templates that are alive. -/
  held : List (View V T)
  /-- The members declared so far, and the environment of each recursive group, in the eager model. -/
  members : Members T
  groups : ℕ → Option (View V T)

namespace State

def initial : State V T := ⟨.empty, fun _ => [], [], fun _ => [], fun _ => none⟩

/-- An environment of a scope, so of a pending declaration, or one that a value holds. -/
inductive Views (s : State V T) : View V T → Prop where
  | scope {i : ℕ} {scope : Scope V T} (live : scope ∈ s.activations i) : Views s scope.toView
  | held {view : View V T} (live : view ∈ s.held) : Views s view

def activate (s : State V T) (i : ℕ) (scopes : List (Scope V T)) (heap : Heap V T) : State V T :=
  { s with heap := heap, activations := Function.update s.activations i scopes }

def hold (s : State V T) (view : View V T) (heap : Heap V T) : State V T :=
  { s with heap := heap, held := view :: s.held }

def materialized (s : State V T) : Option (Binding V T) → List (View V T)
  | some (.member _ environment) => (s.groups environment).toList
  | _ => []

def Filling (s : State V T) (environment : ℕ) : Prop :=
  ∃ i scope source, scope ∈ s.activations i ∧ scope.active = some (source, environment)

end State

open State

/-- A child frame with these names: the scope of a call, of a block or of an arm. -/
def childOf (heap : Heap V T) (parent : Option ℕ) (entries : Table String V) : ℕ × Heap V T :=
  let (child, allocated) := heap.childEnv parent
  (child, allocated.declare child entries)

/-- **One scope operation.** -/
inductive Step (s : State V T) : State V T → Prop where
  /-- A module's declarations start. -/
  | module {i} (idle : s.activations i = []) :
    Step s (s.activate i [{ environment := (s.heap.childEnv none).1, eager := .empty, may := fun _ _ => True }]
      (s.heap.childEnv none).2)
  /-- A block, or an arm with the names of its pattern. -/
  | block {i scope outer} (at_top : s.activations i = scope :: outer) (entries : Table String V) :
    Step s (s.activate i
      ({ environment := (childOf s.heap (some scope.environment) entries).1, eager := scope.eager.declare entries
         may := adding entries scope.may } :: scope :: outer)
      (childOf s.heap (some scope.environment) entries).2)
  /-- A call of a closure, with the names of its parameter and its own name. -/
  | call {i view} (idle : s.activations i = []) (live : view ∈ s.held) (entries : Table String V) :
    Step s (s.activate i
      [{ environment := (childOf s.heap (some view.environment) entries).1, eager := view.eager.declare entries
         may := adding entries view.may }]
      (childOf s.heap (some view.environment) entries).2)
  /-- A deferred argument is forced in the environment it was created in. -/
  | force {i view} (idle : s.activations i = []) (live : view ∈ s.held) :
    Step s (s.activate i [{ toView := view }] s.heap)
  | leave {i scope outer} (at_top : s.activations i = scope :: outer) : Step s (s.activate i outer s.heap)
  /-- `let`, `const` and rebinding. -/
  | declare {i scope outer} (at_top : s.activations i = scope :: outer) (entries : Table String V) :
    Step s (s.activate i
      ({ environment := (s.heap.declarationEnv scope.environment).1, eager := scope.eager.declare entries
         may := adding entries scope.may } :: outer)
      ((s.heap.declarationEnv scope.environment).2.declare (s.heap.declarationEnv scope.environment).1 entries))
  /-- A signature leaves the recursive group active. -/
  | signature {i scope outer} (at_top : s.activations i = scope :: outer) (name : String) (value : V) :
    Step s (s.activate i ({ scope with environment := (s.heap.declarationEnv scope.environment).1 } :: outer)
      ((s.heap.declarationEnv scope.environment).2.sign (s.heap.declarationEnv scope.environment).1 name value))
  /-- An open only introduces names that were not visible. -/
  | opened {i scope outer} (at_top : s.activations i = scope :: outer) (fields : Table String V)
      (invisible : ∀ name, (fields.lookup name).isSome → scope.eager s.members name = none) :
    Step s (s.activate i
      ({ environment := (s.heap.declarationEnv scope.environment).1, eager := scope.eager.opened fields
         may := adding fields scope.may } :: outer)
      ((s.heap.declarationEnv scope.environment).2.pushOpen (s.heap.declarationEnv scope.environment).1 fields))
  /-- The first member of a source group opens its frame. -/
  | group {i scope outer view} (at_top : s.activations i = scope :: outer) (source : ℕ)
      (new : ∀ frame, scope.active ≠ some (source, frame))
      (opens : view =
        { environment := s.heap.next, eager := scope.eager.group s.heap.next
          may := fun members name => ((members s.heap.next).lookup name).isSome ∨ scope.may members name }) :
    Step s { s.activate i ({ toView := view, active := some (source, s.heap.next) } :: outer)
        (s.heap.recursiveEnv (some scope.environment)).2 with
      members := Function.update s.members s.heap.next []
      groups := Function.update s.groups s.heap.next (some view) }
  /-- The value of a member is evaluated in the frame of the group. -/
  | binding {i scope outer view} (at_top : s.activations i = scope :: outer) {source frame : ℕ}
      (active : scope.active = some (source, frame)) (known : s.groups frame = some view) :
    Step s (s.activate i ({ toView := view } :: scope :: outer) s.heap)
  /-- A member joins the active group, as a closure over its frame. -/
  | fill {i scope outer} (at_top : s.activations i = scope :: outer) {source frame : ℕ}
      (active : scope.active = some (source, frame)) {name : String} {template : T} {heap : Heap V T}
      (inserts : (s.heap.captureEnv frame).insertMember frame name frame template = .ok heap) :
    Step s { s.activate i (scope :: outer) heap with
      members := Function.update s.members frame ((s.members frame).insert name template) }
  /-- A closure or a deferred argument captures the environment. -/
  | close {i scope outer} (at_top : s.activations i = scope :: outer) :
    Step s (s.hold scope.toView (s.heap.captureEnv scope.environment))
  /-- A closure captures the names that are free in it. -/
  | closeBefore {i scope outer} (at_top : s.activations i = scope :: outer) (base : ℕ) (names : List String) :
    Step s (s.hold
      { environment := (s.heap.captureBefore scope.environment base names).1, eager := scope.eager
        may := fun members name => name ∈ names ∧ scope.may members name }
      (s.heap.captureBefore scope.environment base names).2)
  /-- A name is read. -/
  | read {view} (live : s.Views view) {name : String} (may : view.may s.members name) {found : Option (Binding V T)}
      {heap : Heap V T} (finds : s.heap.findBinding view.environment name = .ok (found, heap)) :
    Step s { s with heap := heap, held := s.materialized found ++ s.held }
  /-- A completed environment is indexed. -/
  | index (environment : ℕ) (present : ∃ frame, s.heap.frames environment = some frame)
      (complete : ∀ frame, s.heap.Reaches environment frame → ¬ s.Filling frame) :
    Step s { s with heap := s.heap.indexEnvironmentNames environment }
  /-- Type arguments and effects are recorded. -/
  | substitute {i scope outer} (at_top : s.activations i = scope :: outer) (types effects : Table ℕ V) :
    Step s { s with heap := s.heap.substitute scope.environment types effects }
  /-- Values die. -/
  | release (held : List (View V T)) (fewer : held ⊆ s.held) : Step s { s with held := held }
  /-- A frame that nothing refers to strongly is freed. -/
  | collect (environment : ℕ) (unheld : ∀ view, s.Views view → view.environment ≠ environment)
      (childless : ∀ child, ¬ s.heap.Parent child environment) :
    Step s { s with heap := s.heap.free environment }

/-- The states that a program's scope operations lead to. -/
inductive Reachable : State V T → Prop where
  | initial : Reachable .initial
  | step {s t : State V T} (reachable : Reachable s) (step : Step s t) : Reachable t

end Blot.Environment
