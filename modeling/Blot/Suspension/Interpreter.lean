import Blot.Support.Checks
import Blot.Support.Table
import Blot.Suspension.Graph

/-!
# The continuation machine (`continuation_interpreter.rs`)

Every index of the source and every `expect` that may fail is a `Fault`; an `Err` of the source is an `Except String`
inside it.  The executor is a closure with a state of its own.
-/

namespace Blot.Suspension

open Blot.Hir Blot.Support

/-- What the machine asks of a value. -/
class Values (V : Type) where
  condition : V → Except String Bool
  «matches» : V → WireConstant → Bool

/-- The constants as values, as the tests of the machine have them. -/
instance : Values WireConstant where
  condition
    | .boolean value => .ok value
    | _ => .error "condition is not Boolean"
  «matches» value constant := value == constant

/-- A panic of the machine; the last one is of the direct runs, for a call that names no target. -/
inductive Fault where
  | absentFunction (id : FunctionId)
  | absentContinuation (id : ContinuationId)
  | absentValue (id : ValueId)
  | absentArgument (parameter : ValueId)
  | absentTarget (call : ValueId)
  deriving DecidableEq, Repr

inductive Observation (V : Type) where
  | request (target : CallTarget) (arguments : List V)
  | yielded
  | returned (value : V)
  | trapped (message : String)
  deriving DecidableEq, Repr

structure Activation (V : Type) where
  function : FunctionId
  continuation : ContinuationId
  values : Table ValueId V

structure Destination (V : Type) where
  function : FunctionId
  continuation : ContinuationId
  arguments : List (Option V)
  captures : Table ValueId V

inductive State (V : Type) where
  | ready (activation : Activation V)
  | waiting (destination : Destination V)
  | returned (value : V)
  | trapped (message : String)
  | running

/-- `Machine`; the innermost caller comes first -/
structure Machine (V : Type) where
  state : State V
  callers : List (Destination V)

/-- The executor of the instructions, a closure that is called again and again. -/
abbrev Execute (V σ : Type) := Instruction → List V → σ → Except String V × σ

variable {V σ : Type}

def Graph.find (graph : Graph) (id : FunctionId) : Except Fault Function :=
  demand (graph.functions.find? (·.id == id)) (.absentFunction id)

def Function.fetch (f : Function) (id : ContinuationId) : Except Fault Continuation :=
  demand f.continuations[id]? (.absentContinuation id)

def readValue (values : Table ValueId V) (value : ValueId) : Except Fault V :=
  demand (values.lookup value) (.absentValue value)

def Machine.new (graph : Graph) (function : FunctionId) (arguments : List V) :
    Except Fault (Except String (Machine V)) :=
  match graph.functions.find? (·.id == function) with
  | none => .ok (.error "interpreter entry function is absent")
  | some entry => do
    let first ← entry.fetch entry.entry
    if first.parameters.length = arguments.length then
      let values := Table.extend [] ((first.parameters.map (·.value)).zip arguments)
      pure (.ok ⟨.ready ⟨function, entry.entry, values⟩, []⟩)
    else
      pure (.error "interpreter entry arity differs from its arguments")

/-- A machine starts at the entry of the function that is called, with its arguments. -/
theorem Machine.of_new {graph : Graph} {function : FunctionId} {arguments : List V} {m : Machine V}
    (h : Machine.new graph function arguments = .ok (.ok m)) :
    ∃ f first, graph.functions.find? (·.id == function) = some f ∧ f.continuations[f.entry]? = some first ∧
      first.parameters.length = arguments.length ∧
      m = ⟨.ready ⟨function, f.entry, Table.extend [] ((first.parameters.map (·.value)).zip arguments)⟩, []⟩ := by
  unfold Machine.new at h
  split at h
  · cases h
  · next f hfind =>
    simp only [Function.fetch, bind_eq_ok, demand_eq_ok] at h
    obtain ⟨first, hfirst, h⟩ := h
    split at h
    · next hlength =>
      cases h
      exact ⟨f, first, hfind, hfirst, hlength, rfl⟩
    · cases h

def readArgument (values : Table ValueId V) : Argument → Except Fault (Option V)
  | .value v => do
    let value ← readValue values v
    pure (some value)
  | .result => pure none

def readCapture (values : Table ValueId V) (capture : Definition) : Except Fault (ValueId × V) := do
  let value ← readValue values capture.value
  pure (capture.value, value)

def Graph.destination (graph : Graph) (activation : Activation V) (edge : Edge) : Except Fault (Destination V) := do
  let function ← graph.find activation.function
  let successor ← function.fetch edge.target
  let arguments ← collect (readArgument activation.values) edge.arguments
  let captures ← collect (readCapture activation.values) successor.captures
  pure ⟨activation.function, edge.target, arguments, Table.extend [] captures⟩

def bindParameter (result : Option V) (values : Table ValueId V) (entry : Definition × Option V) :
    Except Fault (Table ValueId V) := do
  let value ← demand (entry.2.or result) (.absentArgument entry.1.value)
  pure (values.insert entry.1.value value)

def Graph.arrive (graph : Graph) (destination : Destination V) (result : Option V) : Except Fault (Activation V) := do
  let function ← graph.find destination.function
  let successor ← function.fetch destination.continuation
  let values ← (successor.parameters.zip destination.arguments).foldlM (bindParameter result) destination.captures
  pure ⟨destination.function, destination.continuation, values⟩

def runInstructions (execute : Execute V σ) :
    List Instruction → Table ValueId V → σ → Except Fault (Except String (Table ValueId V) × σ)
  | [], values, s => pure (.ok values, s)
  | i :: instructions, values, s => do
    let arguments ← collect (readValue values) i.operands
    match execute i arguments s with
    | (.ok value, s) => runInstructions execute instructions (values.insert i.definition.value value) s
    | (.error message, s) => pure (.error message, s)

/-- Captures that are read are as they were. -/
theorem captures_agree {values : Table ValueId V} {captures : List Definition} {entries : Table ValueId V}
    (h : collect (readCapture values) captures = .ok entries) : ∀ p ∈ entries, values.lookup p.1 = some p.2 := by
  intro p hp
  obtain ⟨d, _, hd⟩ := mem_of_collect h hp
  simp only [readCapture, readValue, bind_eq_ok, demand_eq_ok, pure_eq_ok] at hd
  obtain ⟨y, hy, rfl⟩ := hd
  exact hy

theorem lookup_captures {values : Table ValueId V} {captures : List Definition} {entries : Table ValueId V}
    (h : collect (readCapture values) captures = .ok entries) {capture : Definition} (hcapture : capture ∈ captures) :
    (Table.extend [] entries).lookup capture.value = values.lookup capture.value := by
  refine Table.lookup_extend_of_agree (f := fun v => values.lookup v) (captures_agree h) ?_
  obtain ⟨p, hp, hread⟩ := collect_of_mem h hcapture
  obtain ⟨y, _, heq⟩ := bind_eq_ok.1 hread
  cases heq
  exact List.mem_map_of_mem hp

/-- Parameters that no other parameter repeats have the values of their arguments. -/
theorem bindParameters_lookup {result : Option V} {parameters : List Definition} {arguments : List (Option V)}
    {values values' : Table ValueId V} (hnodup : (parameters.map (·.value)).Nodup)
    (h : (parameters.zip arguments).foldlM (bindParameter result) values = .ok values') :
    (∀ entry ∈ parameters.zip arguments, values'.lookup entry.1.value = entry.2.or result) ∧
      ∀ v ∉ parameters.map (·.value), values'.lookup v = values.lookup v := by
  induction parameters generalizing arguments values with
  | nil =>
    cases foldlM_nil_eq_ok.1 h
    exact ⟨fun entry hentry => by simp at hentry, fun _ _ => rfl⟩
  | cons p parameters ih =>
    cases arguments with
    | nil =>
      cases foldlM_nil_eq_ok.1 h
      exact ⟨fun entry hentry => by simp at hentry, fun _ _ => rfl⟩
    | cons argument arguments =>
      obtain ⟨hp, hnodup⟩ := List.nodup_cons.1 hnodup
      obtain ⟨next, hstep, hrest⟩ := foldlM_cons_eq_ok.1 h
      simp only [bindParameter, bind_eq_ok, demand_eq_ok, pure_eq_ok] at hstep
      obtain ⟨y, hy, rfl⟩ := hstep
      obtain ⟨hentries, hothers⟩ := ih hnodup hrest
      refine ⟨fun entry hentry => ?_, fun v hv => ?_⟩
      · rcases List.mem_cons.1 hentry with rfl | hentry
        · rw [hothers _ hp, Table.lookup_insert, if_pos rfl, hy]
        · exact hentries entry hentry
      · rw [List.map_cons, List.mem_cons, not_or] at hv
        rw [hothers v hv.2, Table.lookup_insert, if_neg hv.1]

/-! ### Parts of a store -/

def Within (values store : Table ValueId V) : Prop := ∀ v x, values.lookup v = some x → store.lookup v = some x

theorem Within.refl (values : Table ValueId V) : Within values values := fun _ _ h => h

section Within

variable {values store : Table ValueId V} (h : Within values store)

include h

theorem Within.read {v : ValueId} {x : V} (hx : readValue values v = .ok x) : readValue store v = .ok x := by
  simp only [readValue, demand_eq_ok] at hx ⊢
  exact h v x hx

theorem Within.collect {ids : List ValueId} {xs : List V} (hx : collect (readValue values) ids = .ok xs) :
    Support.collect (readValue store) ids = .ok xs :=
  collect_eq_ok.2 ((collect_eq_ok.1 hx).imp fun _ _ => h.read)

theorem Within.arguments {arguments : List Argument} {xs : List (Option V)}
    (hx : Support.collect (readArgument values) arguments = .ok xs) :
    Support.collect (readArgument store) arguments = .ok xs := by
  refine collect_eq_ok.2 ((collect_eq_ok.1 hx).imp fun argument x hargument => ?_)
  cases argument with
  | value v =>
    simp only [readArgument, bind_eq_ok, pure_eq_ok] at hargument ⊢
    obtain ⟨y, hy, rfl⟩ := hargument
    exact ⟨y, h.read hy, rfl⟩
  | result => exact hargument

theorem Within.insert (v : ValueId) (x : V) : Within (values.insert v x) (store.insert v x) := by
  intro v' y hy
  rw [Table.lookup_insert] at hy ⊢
  split at hy
  · next he => rw [if_pos he, hy]
  · next he => rw [if_neg he, h v' y hy]

/-- Entries that are added in turn. -/
theorem Within.extend (entries : Table ValueId V) : Within (values.extend entries) (store.extend entries) := by
  unfold Table.extend
  induction entries generalizing values store with
  | nil => exact h
  | cons entry entries ih => exact ih (h.insert entry.1 entry.2)

theorem Within.bindParameters {result : Option V} {entries : List (Definition × Option V)} {values' : Table ValueId V}
    (hv : entries.foldlM (bindParameter result) values = .ok values') :
    ∃ store', entries.foldlM (bindParameter result) store = .ok store' ∧ Within values' store' := by
  induction entries generalizing values store with
  | nil =>
    cases foldlM_nil_eq_ok.1 hv
    exact ⟨store, rfl, h⟩
  | cons entry entries ih =>
    obtain ⟨next, hstep, hrest⟩ := foldlM_cons_eq_ok.1 hv
    simp only [bindParameter, bind_eq_ok, demand_eq_ok, pure_eq_ok] at hstep
    obtain ⟨x, hx, rfl⟩ := hstep
    obtain ⟨store', hstore, hwithin⟩ := ih (h.insert entry.1.value x) hrest
    refine ⟨store', foldlM_cons_eq_ok.2 ⟨store.insert entry.1.value x, ?_, hstore⟩, hwithin⟩
    simp [bindParameter, hx, demand]

theorem Within.captures {captures : List Definition} {entries : Table ValueId V}
    (hx : Support.collect (readCapture values) captures = .ok entries) : Within (Table.extend [] entries) store := by
  have hagree := captures_agree hx
  intro v x hv
  refine h v x ?_
  by_cases hkey : v ∈ entries.map (·.1)
  · rw [← hv, Table.lookup_extend_of_agree (f := fun id => values.lookup id) hagree hkey]
  · rw [Table.lookup_extend, List.lookup_nil, Option.or_none] at hv
    have hnone : entries.reverse.lookup v = none := by
      rw [List.lookup_eq_none_iff]
      intro p hp
      have hne : v ≠ p.1 := fun he => hkey (List.mem_map.2 ⟨p, List.mem_reverse.1 hp, he.symm⟩)
      simpa using hne
    rw [hnone] at hv
    cases hv

end Within

/-! ### Edges -/

section Edges

variable {graph : Graph}

theorem destination_eq_ok {a : Activation V} {edge : Edge} {d : Destination V} {g : Function}
    (hfind : graph.functions.find? (·.id == a.function) = some g) (h : graph.destination a edge = .ok d) :
    d.function = a.function ∧ d.continuation = edge.target ∧
      collect (readArgument a.values) edge.arguments = .ok d.arguments ∧
      ∃ successor entries, g.continuations[edge.target]? = some successor ∧
        collect (readCapture a.values) successor.captures = .ok entries ∧ d.captures = Table.extend [] entries := by
  simp only [Graph.destination, Graph.find, hfind, Function.fetch, bind_eq_ok, demand_eq_ok, pure_eq_ok] at h
  obtain ⟨_, hg, successor, hs, arguments, harguments, captures, hcaptures, rfl⟩ := h
  cases hg
  exact ⟨rfl, rfl, harguments, successor, captures, hs, hcaptures, rfl⟩

theorem arrive_eq_ok {d : Destination V} {result : Option V} {a : Activation V} {g : Function}
    (hfind : graph.functions.find? (·.id == d.function) = some g) (h : graph.arrive d result = .ok a) :
    a.function = d.function ∧ a.continuation = d.continuation ∧ ∃ successor,
      g.continuations[d.continuation]? = some successor ∧
      (successor.parameters.zip d.arguments).foldlM (bindParameter result) d.captures = .ok a.values := by
  simp only [Graph.arrive, Graph.find, hfind, Function.fetch, bind_eq_ok, demand_eq_ok, pure_eq_ok] at h
  obtain ⟨_, hg, successor, hs, values, hvalues, rfl⟩ := h
  cases hg
  exact ⟨rfl, rfl, successor, hs, hvalues⟩

end Edges

/-! ### Turns -/

/-- A turn of the loop of `poll`: the loop goes on, or the poll returns. -/
inductive Turn (V : Type) where
  | on (machine : Machine V)
  | leave (reply : Except String (Observation V)) (machine : Machine V)

variable [Values V]

def selectCase (values : Table ValueId V) (selector : ValueId) (cases : List (WireConstant × Edge)) (fallback : Edge) :
    Except Fault Edge :=
  if cases.isEmpty then pure fallback
  else do
    let value ← readValue values selector
    pure (((cases.find? fun entry => Values.matches value entry.1).map (·.2)).getD fallback)

theorem selectCase_mem {values : Table ValueId V} {selector : ValueId} {cases : List (WireConstant × Edge)}
    {fallback edge : Edge} (h : selectCase values selector cases fallback = .ok edge) : edge ∈ cases.map (·.2) ++ [fallback] := by
  unfold selectCase at h
  split at h
  · cases h
    simp
  · obtain ⟨x, _, heq⟩ := bind_eq_ok.1 h
    rw [← pure_eq_ok.1 heq]
    cases hfind : cases.find? fun switchCase => Values.matches x switchCase.1 with
    | none => simp
    | some found => exact List.mem_append_left _ (List.mem_map.2 ⟨found, List.mem_of_find?_eq_some hfind, by simp⟩)

def Graph.follow (graph : Graph) (activation : Activation V) (callers : List (Destination V)) (edge : Edge) :
    Except Fault (Turn V) := do
  let destination ← graph.destination activation edge
  let activation ← graph.arrive destination none
  pure (.on ⟨.ready activation, callers⟩)

def Graph.transfer (graph : Graph) (activation : Activation V) (callers : List (Destination V)) :
    Transition → Except Fault (Turn V)
  | .jump edge => graph.follow activation callers edge
  | .branch condition consequent alternate => do
    let value ← readValue activation.values condition
    match Values.condition value with
    | .ok b => graph.follow activation callers (if b then consequent else alternate)
    | .error message => pure (.leave (.error message) ⟨.running, callers⟩)
  | .switch selector cases fallback => do
    let edge ← selectCase activation.values selector cases fallback
    graph.follow activation callers edge
  | .call target _ arguments next _ => do
    let arguments ← collect (readValue activation.values) arguments
    let destination ← graph.destination activation next
    match target with
    | .function function =>
      match ← Machine.new graph function arguments with
      | .ok callee => pure (.on ⟨callee.state, destination :: callers⟩)
      | .error message => pure (.leave (.error message) ⟨.running, callers⟩)
    | target => pure (.leave (.ok (.request target arguments)) ⟨.waiting destination, callers⟩)
  | .return value => do
    let value ← readValue activation.values value
    match callers with
    | destination :: callers =>
      let activation ← graph.arrive destination (some value)
      pure (.on ⟨.ready activation, callers⟩)
    | [] => pure (.on ⟨.returned value, []⟩)
  | .trap message => pure (.leave (.ok (.trapped message)) ⟨.trapped message, []⟩)

/-- The body of the loop of `Machine::poll`. -/
def Machine.turn (graph : Graph) (execute : Execute V σ) (machine : Machine V) (s : σ) : Except Fault (Turn V × σ) :=
  match machine.state with
  | .waiting _ => pure (.leave (.error "pending request must settle before polling") machine, s)
  | .returned value => pure (.leave (.ok (.returned value)) machine, s)
  | .trapped message => pure (.leave (.ok (.trapped message)) machine, s)
  | .running => pure (.leave (.error "interpreter was polled reentrantly") machine, s)
  | .ready activation => do
    let function ← graph.find activation.function
    let continuation ← function.fetch activation.continuation
    match ← runInstructions execute continuation.instructions activation.values s with
    | (.ok values, s) => do
      let turn ← graph.transfer { activation with values } machine.callers continuation.transition
      pure (turn, s)
    | (.error message, s) => pure (.leave (.ok (.trapped message)) ⟨.trapped message, []⟩, s)

def Machine.poll (graph : Graph) (execute : Execute V σ) :
    ℕ → Machine V → σ → Except Fault (Except String (Observation V) × Machine V × σ)
  | 0, machine, s => pure (.ok .yielded, machine, s)
  | quantum + 1, machine, s => do
    match ← machine.turn graph execute s with
    | (.on machine, s) => Machine.poll graph execute quantum machine s
    | (.leave reply machine, s) => pure (reply, machine, s)

omit [Values V] in
def Machine.resume (graph : Graph) (machine : Machine V) (value : V) :
    Except Fault (Except String Unit × Machine V) :=
  match machine.state with
  | .waiting destination => do
    let activation ← graph.arrive destination (some value)
    pure (.ok (), ⟨.ready activation, machine.callers⟩)
  | _ => pure (.error "interpreter can resume only a pending request", machine)

def Machine.cancel : Machine V := ⟨.trapped "cancelled", []⟩

end Blot.Suspension
