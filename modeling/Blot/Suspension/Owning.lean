import Blot.Suspension.Filled
import Blot.Suspension.Safety
import Blot.Support.Accounts

/-!
# A machine that owns references (`release_roots`, `transfer_roots`)

The machine runs continuations with an account of references instead of values: an input and a result hold one each, the
lifetimes drop them, and a transition moves them along its edge (`transfer_roots` retains a reference for each further
destination and releases the roots that the edge does not take).  A read or a drop of a value without a reference is a
fault.  Which edge a branch takes, and when a request settles, is open; a call in tail position keeps its frame.
-/

namespace Blot.Suspension

open Blot.Hir Blot.Support

structure Pending where
  function : FunctionId
  continuation : ContinuationId
  arguments : List (Option ℕ)
  captures : List ℕ

inductive Stage where
  | ready (function : FunctionId) (continuation : ContinuationId)
  | waiting (pending : Pending)
  | returned (reference : ℕ)
  | trapped

/-- The state of the machine; the innermost caller comes first. -/
structure Owner where
  stage : Stage
  callers : List Pending
  account : Account ValueId

def fillArguments : List Argument → List ℕ → List (Option ℕ)
  | [], _ => []
  | .result :: arguments, rs => none :: fillArguments arguments rs
  | .value _ :: arguments, [] => none :: fillArguments arguments []
  | .value _ :: arguments, r :: rs => some r :: fillArguments arguments rs

/-- The destination of an edge, with references for its arguments and for the captures of its target. -/
def Edge.pend (edge : Edge) (function : FunctionId) (references : List ℕ) : Pending where
  function := function
  continuation := edge.target
  arguments := fillArguments edge.arguments references
  captures := references.drop (edge.arguments.filterMap Argument.value?).length

/-- An instruction reads its operands and holds its result; then what dies at it is dropped. -/
def ownInstruction (a : Account ValueId) (entry : Instruction × List ValueId) : Except Fault (Account ValueId) := do
  let _ ← collect (a.read .absentValue) entry.1.operands
  entry.2.foldlM (Account.release .absentValue) (a.put entry.1.definition.value)

def ownArgument (result : Option ℕ) (entry : Definition × Option ℕ) : Except Fault ℕ :=
  demand (entry.2.or result) (.absentArgument entry.1.value)

/-- A continuation is entered with the references of its destination. -/
def Graph.settle (graph : Graph) (pending : Pending) (result : Option ℕ) (callers : List Pending)
    (a : Account ValueId) : Except Fault Owner := do
  let function ← graph.find pending.function
  let successor ← function.fetch pending.continuation
  let arguments ← collect (ownArgument result) (successor.parameters.zip pending.arguments)
  pure ⟨.ready pending.function pending.continuation, callers,
    a.enter (successor.inputs.map (·.value)) (arguments ++ pending.captures)⟩

def Transition.edgeAt (transition : Transition) (choice : ℕ) : Option Edge :=
  transition.edges[choice]?.or transition.edges.getLast?

def Graph.pass (graph : Graph) (function : FunctionId) (f : Function) (roots : List ValueId) (choice : ℕ)
    (callers : List Pending) (a : Account ValueId) : Transition → Except Fault Owner
  | .return value => do
    let (r, a) ← a.take .absentValue value
    match callers with
    | [] => pure ⟨.returned r, [], a⟩
    | pending :: callers => graph.settle pending (some r) callers a
  | .trap _ => pure ⟨.trapped, callers, a⟩
  | .call target _ arguments next _ => do
    let _ ← collect (a.read .absentValue) arguments
    let destinations ← f.edgeDestinations next
    match target with
    | .function callee => do
      let (rs, a) ← a.transfer .absentValue roots (destinations ++ arguments)
      let called ← graph.find callee
      let first ← called.fetch called.entry
      pure ⟨.ready callee called.entry, next.pend function (rs.take destinations.length) :: callers,
        a.enter (first.parameters.map (·.value)) (rs.drop destinations.length)⟩
    | _ => do
      let (rs, a) ← a.transfer .absentValue roots destinations
      pure ⟨.waiting (next.pend function rs), callers, a⟩
  | transition => do
    let _ ← collect (a.read .absentValue) transition.uses
    let edge ← demand (transition.edgeAt choice) (.absentContinuation choice)
    let destinations ← f.edgeDestinations edge
    let (rs, a) ← a.transfer .absentValue roots destinations
    graph.settle (edge.pend function rs) none callers a

/-- One continuation: its lifetimes, its instructions and its transition. -/
def Owner.turn (graph : Graph) (choice : ℕ) (m : Owner) : Except Fault Owner :=
  match m.stage with
  | .ready function continuation => do
    let f ← graph.find function
    let c ← f.fetch continuation
    let lifetimes ← f.lifetimes c
    let a ← lifetimes.entryDrops.foldlM (Account.release .absentValue) m.account
    let a ← (c.instructions.zip lifetimes.instructionDrops).foldlM ownInstruction a
    graph.pass function f lifetimes.transitionRoots.elements choice m.callers a c.transition
  | _ => .ok m

def Owner.resume (graph : Graph) (m : Owner) : Except Fault Owner :=
  match m.stage with
  | .waiting pending =>
    graph.settle pending (some m.account.supply) m.callers { m.account with supply := m.account.supply + 1 }
  | _ => .ok m

def Owner.start (graph : Graph) (id : FunctionId) : Except Fault Owner := do
  let function ← graph.find id
  let first ← function.fetch function.entry
  let parameters := first.parameters.map (·.value)
  pure ⟨.ready id function.entry, [], ⟨parameters.zip (List.range parameters.length), parameters.length, []⟩⟩

/-! ### What the machine owns -/

def Pending.references (p : Pending) : List ℕ := p.arguments.filterMap id ++ p.captures

def Stage.references : Stage → List ℕ
  | .waiting pending => pending.references
  | .returned r => [r]
  | _ => []

def Owner.elsewhere (m : Owner) : List ℕ := m.stage.references ++ m.callers.flatMap Pending.references

/-- References for what a continuation takes; `opened` of its arguments are open. -/
def Pending.Sound (graph : Graph) (opened : ℕ) (p : Pending) : Prop :=
  ∃ f successor, graph.functions.find? (·.id == p.function) = some f ∧
    f.continuations[p.continuation]? = some successor ∧ f.Reached p.continuation ∧
    p.arguments.length = successor.parameters.length ∧ p.captures.length = successor.captures.length ∧
    p.arguments.count none = opened

def Stage.Sound (graph : Graph) (callers : List Pending) (a : Account ValueId) : Stage → Prop
  | .ready function continuation => ∃ f c, graph.functions.find? (·.id == function) = some f ∧
      f.continuations[continuation]? = some c ∧ f.Reached continuation ∧ a.keys = c.inputs.map (·.value)
  | .waiting pending => pending.Sound graph 1 ∧ a.held = []
  | .returned _ => callers = [] ∧ a.held = []
  | .trapped => a.held = []

/-- **What every state keeps**: each reference that was made has been dropped once or is held once, and the stage holds
exactly what its continuation takes. -/
structure Owner.Sound (graph : Graph) (m : Owner) : Prop where
  balanced : m.account.Balanced m.elsewhere
  stage : m.stage.Sound graph m.callers m.account
  callers : ∀ p ∈ m.callers, p.Sound graph 1

inductive Owner.Reaches (graph : Graph) (id : FunctionId) : Owner → Prop
  | start {m : Owner} : Owner.start graph id = .ok m → Owner.Reaches graph id m
  | turn {m m' : Owner} {choice : ℕ} : Owner.Reaches graph id m → m.turn graph choice = .ok m' →
      Owner.Reaches graph id m'
  | resume {m m' : Owner} : Owner.Reaches graph id m → m.resume graph = .ok m' → Owner.Reaches graph id m'

/-! ### Edges -/

section Edges

theorem fillArguments_length : ∀ (arguments : List Argument) (rs : List ℕ),
    (fillArguments arguments rs).length = arguments.length
  | [], _ => rfl
  | .result :: arguments, rs => congrArg Nat.succ (fillArguments_length arguments rs)
  | .value _ :: arguments, [] => congrArg Nat.succ (fillArguments_length arguments [])
  | .value _ :: arguments, _ :: rs => congrArg Nat.succ (fillArguments_length arguments rs)

/-- With enough references only the result stays open. -/
theorem fillArguments_spec : ∀ {arguments : List Argument} {rs : List ℕ},
    (arguments.filterMap Argument.value?).length ≤ rs.length →
    (fillArguments arguments rs).filterMap id = rs.take (arguments.filterMap Argument.value?).length ∧
      (fillArguments arguments rs).count none = arguments.count .result
  | [], _, _ => ⟨rfl, rfl⟩
  | .result :: arguments, rs, h => by
    obtain ⟨htaken, hopen⟩ := @fillArguments_spec arguments rs h
    rw [fillArguments, List.count_cons_self, List.count_cons_self, hopen]
    exact ⟨htaken, rfl⟩
  | .value v :: arguments, r :: rs, h => by
    obtain ⟨htaken, hopen⟩ := @fillArguments_spec arguments rs (Nat.le_of_succ_le_succ h)
    rw [fillArguments, List.count_cons_of_ne (by simp), List.count_cons_of_ne (by simp)]
    exact ⟨congrArg (r :: ·) htaken, hopen⟩

theorem ownArguments_closed (result : Option ℕ) : ∀ {parameters : List Definition} {arguments : List (Option ℕ)},
    arguments.length = parameters.length → arguments.count none = 0 →
    collect (ownArgument result) (parameters.zip arguments) = .ok (arguments.filterMap id) ∧
      (arguments.filterMap id).length = parameters.length
  | [], [], _, _ => ⟨rfl, rfl⟩
  | d :: parameters, some r :: arguments, hlength, hopen => by
    rw [List.count_cons_of_ne (by simp)] at hopen
    obtain ⟨hrest, hcount⟩ := ownArguments_closed result (Nat.succ.inj hlength) hopen
    refine ⟨?_, congrArg Nat.succ hcount⟩
    rw [List.zip_cons_cons, collect, hrest]
    rfl
  | _ :: _, none :: arguments, _, hopen => by
    rw [List.count_cons_self] at hopen
    cases hopen

theorem ownArguments_ok (result : Option ℕ) : ∀ {parameters : List Definition} {arguments : List (Option ℕ)},
    arguments.length = parameters.length → arguments.count none = result.toList.length →
    ∃ xs, collect (ownArgument result) (parameters.zip arguments) = .ok xs ∧ xs.length = parameters.length ∧
      xs.Perm (result.toList ++ arguments.filterMap id)
  | [], [], _, hopen => by
    cases result with
    | none => exact ⟨[], rfl, rfl, .nil⟩
    | some r => cases hopen
  | d :: parameters, some r :: arguments, hlength, hopen => by
    rw [List.count_cons_of_ne (by simp)] at hopen
    obtain ⟨xs, hxs, hcount, hperm⟩ := ownArguments_ok result (Nat.succ.inj hlength) hopen
    refine ⟨r :: xs, ?_, congrArg Nat.succ hcount, (hperm.cons r).trans List.perm_middle.symm⟩
    rw [List.zip_cons_cons, collect, hxs]
    rfl
  | d :: parameters, none :: arguments, hlength, hopen => by
    rw [List.count_cons_self] at hopen
    cases result with
    | none => cases hopen
    | some r =>
      obtain ⟨hrest, hcount⟩ := ownArguments_closed (some r) (Nat.succ.inj hlength) (Nat.succ.inj hopen)
      refine ⟨r :: arguments.filterMap id, ?_, congrArg Nat.succ hcount, List.Perm.refl _⟩
      rw [List.zip_cons_cons, collect, hrest]
      rfl

section Settle

variable {graph : Graph} {p : Pending} {callers : List Pending} {a : Account ValueId}

/-- **A continuation is entered with what it takes.** -/
theorem Pending.Sound.settle (result : Option ℕ) (hp : p.Sound graph result.toList.length)
    (ha : a.Balanced (result.toList ++ p.references ++ callers.flatMap Pending.references)) (hheld : a.held = [])
    (hcallers : ∀ q ∈ callers, q.Sound graph 1)
    (hnodup : ∀ f c, graph.functions.find? (·.id == p.function) = some f → f.continuations[p.continuation]? = some c →
      f.Reached p.continuation → (c.inputs.map (·.value)).Nodup) :
    ∃ m, graph.settle p result callers a = .ok m ∧ m.Sound graph := by
  obtain ⟨f, successor, hfind, hs, hreached, harguments, hcaptures, hopen⟩ := hp
  obtain ⟨xs, hxs, hlength, hperm⟩ := ownArguments_ok result harguments hopen
  have hkeys : successor.inputs.length = (xs ++ p.captures).length := by
    rw [Continuation.inputs, List.length_append, List.length_append, hlength, hcaptures]
  have hentered : (a.enter (successor.inputs.map (·.value)) (xs ++ p.captures)).keys =
      successor.inputs.map (·.value) := List.map_fst_zip (by rw [List.length_map, hkeys])
  refine ⟨⟨.ready p.function p.continuation, callers, a.enter (successor.inputs.map (·.value)) (xs ++ p.captures)⟩,
    ?_, ⟨?_, ?_⟩, ⟨f, successor, hfind, hs, hreached, hentered⟩, hcallers⟩
  · simp [Graph.settle, Graph.find, Function.fetch, hfind, hs, demand, hxs]
  · rw [hentered]
    exact hnodup f successor hfind hs hreached
  · refine List.Perm.trans ?_ ha.references
    have hreferences : (a.enter (successor.inputs.map (·.value)) (xs ++ p.captures)).references = xs ++ p.captures :=
      List.map_snd_zip (by rw [List.length_map, hkeys])
    rw [hreferences, Account.references, hheld]
    show (a.dropped ++ (xs ++ p.captures) ++ callers.flatMap Pending.references).Perm
      (a.dropped ++ [] ++ (result.toList ++ p.references ++ callers.flatMap Pending.references))
    rw [List.append_nil, List.append_assoc]
    refine List.Perm.append_left _ (List.Perm.append_right _ ?_)
    rw [Pending.references, ← List.append_assoc]
    exact hperm.append_right _

theorem pend_sound {f : Function} {function : FunctionId} (hfind : graph.functions.find? (·.id == function) = some f)
    {edge : Edge} (hfits : f.Fits edge) (hreached : f.Reached edge.target) {destinations : List ValueId}
    (hdestinations : f.edgeDestinations edge = .ok destinations) {rs : List ℕ} (hlength : rs.length = destinations.length) :
    (edge.pend function rs).Sound graph (edge.arguments.count .result) ∧ (edge.pend function rs).references = rs := by
  obtain ⟨successor, hs, rfl⟩ := edgeDestinations_eq_ok.1 hdestinations
  obtain ⟨successor', hs', harity⟩ := hfits
  obtain rfl := Option.some.inj (hs.symm.trans hs')
  rw [List.length_append, List.length_map] at hlength
  obtain ⟨htaken, hopen⟩ := @fillArguments_spec edge.arguments rs (by omega)
  refine ⟨⟨f, successor, hfind, hs, hreached, ?_, ?_, hopen⟩, ?_⟩
  · exact (fillArguments_length _ _).trans harity.symm
  · show (rs.drop _).length = _
    rw [List.length_drop]
    omega
  · show (fillArguments edge.arguments rs).filterMap id ++ rs.drop _ = rs
    rw [htaken, List.take_append_drop]

end Settle

end Edges

/-! ### Instructions -/

section Instructions

variable {elsewhere : List ℕ} {roots : Ascending ValueId}

theorem read_all {a : Account ValueId} (ha : a.Balanced elsewhere) : ∀ {values : List ValueId},
    (∀ v ∈ values, v ∈ a.keys) → ∃ rs, collect (a.read Fault.absentValue) values = .ok rs
  | [], _ => ⟨[], rfl⟩
  | v :: values, h => by
    obtain ⟨hv, hvalues⟩ := List.forall_mem_cons.1 h
    obtain ⟨r, hr, -, -⟩ := ha.read Fault.absentValue hv
    obtain ⟨rs, hrs⟩ := read_all ha hvalues
    refine ⟨r :: rs, ?_⟩
    rw [collect, hr, ok_bind, hrs]
    rfl

/-- **An instruction** reads what is live before it, and what is live after it is held after it. -/
theorem ownInstruction_ok {a : Account ValueId} (ha : a.Balanced elsewhere) {i : Instruction} {live : Ascending ValueId}
    (hkeys : ∀ v, v ∈ a.keys ↔ v ∈ i.before live) (hfresh : i.definition.value ∉ a.keys) :
    ∃ a', ownInstruction a (i, (i.drops live).elements) = .ok a' ∧ a'.Balanced elsewhere ∧
      ∀ v, v ∈ a'.keys ↔ v ∈ live := by
  obtain ⟨rs, hrs⟩ := read_all ha fun v hv => (hkeys v).2 (mem_before.2 (.inr hv))
  obtain ⟨hput, hputKeys⟩ := ha.put hfresh
  have hmem : ∀ v, v ∈ (a.put i.definition.value).keys ↔ v = i.definition.value ∨ v ∈ live ∨ v ∈ i.operands := by
    intro v
    rw [hputKeys, List.mem_cons, hkeys, mem_before]
    tauto
  obtain ⟨a', ha', hbalanced, -, hheld⟩ := hput.releaseAll Fault.absentValue (i.drops live).nodup fun v hv => by
    rw [hmem]
    exact (mem_drops.1 hv).2.elim (fun h => .inr (.inr h)) .inl
  refine ⟨a', by rw [ownInstruction, hrs, ok_bind, ha'], hbalanced, fun v => ?_⟩
  rw [Account.keys_of_held (p := fun v => v ∉ (i.drops live).elements) hheld, List.mem_filter, decide_eq_true_eq, hmem,
    ← Ascending.mem_def, mem_drops]
  tauto

/-- **The instructions of a continuation**: from what is live before them to what is live after them. -/
theorem ownInstructions_ok : ∀ {instructions : List Instruction} {a : Account ValueId}, a.Balanced elsewhere →
    (instructions.map (·.definition.value)).Nodup →
    (∀ v, v ∈ a.keys ↔ v ∈ (scanDrops instructions roots).2) →
    (∀ v ∈ a.keys, v ∉ instructions.map (·.definition.value)) →
    ∃ a', (instructions.zip (scanDrops instructions roots).1).foldlM ownInstruction a = .ok a' ∧
      a'.Balanced elsewhere ∧ ∀ v, v ∈ a'.keys ↔ v ∈ roots
  | [], a, ha, _, hkeys, _ => ⟨a, rfl, ha, hkeys⟩
  | i :: instructions, a, ha, hnodup, hkeys, hfresh => by
    obtain ⟨hnot, hnodup⟩ := List.nodup_cons.1 hnodup
    have hi : i.definition.value ∉ a.keys := fun hm => hfresh _ hm List.mem_cons_self
    obtain ⟨next, hnext, hbalanced, hlive⟩ := ownInstruction_ok ha hkeys hi
    obtain ⟨a', ha', hbalanced', hroots⟩ := ownInstructions_ok hbalanced hnodup hlive fun v hv hm => by
      by_cases he : v = i.definition.value
      · rw [he] at hm
        exact hnot hm
      · exact hfresh v ((hkeys v).2 (mem_before.2 (.inl ⟨(hlive v).1 hv, he⟩))) (List.mem_cons_of_mem _ hm)
    refine ⟨a', ?_, hbalanced', hroots⟩
    rw [scanDrops, List.zip_cons_cons, List.foldlM_cons, hnext, ok_bind, ha']

/-- **A continuation that is reached**: what is not read at all is dropped first, and in the end the roots are held. -/
theorem ownContinuation_ok {f : Function} (hf : f.Filled) {i : ContinuationId} {c : Continuation} (hr : f.Reached i)
    (hc : f.continuations[i]? = some c) {a : Account ValueId} (ha : a.Balanced elsewhere)
    (hkeys : a.keys = c.inputs.map (·.value)) :
    ∃ l start a', f.lifetimes c = .ok l ∧ f.transitionRoots c.transition = .ok l.transitionRoots ∧
      l.entryDrops.foldlM (Account.release Fault.absentValue) a = .ok start ∧
      (c.instructions.zip l.instructionDrops).foldlM ownInstruction start = .ok a' ∧ a'.Balanced elsewhere ∧
      ∀ v, v ∈ a'.keys ↔ v ∈ l.transitionRoots.elements := by
  obtain ⟨roots, hroots⟩ := transitionRoots_ok (hf.fits c (List.mem_of_getElem? hc))
  obtain ⟨hinputs, hresults, hdisjoint⟩ := List.nodup_append.1 (hf.holdings_nodup hr hc)
  have hlive : ∀ v ∈ (scanDrops c.instructions roots).2, v ∈ c.inputs.map (·.value) := by
    rw [scanDrops_live]
    exact fun v hv => hf.live_inputs hc hroots hv
  obtain ⟨start, hstart, hbalanced, -, hheld⟩ := ha.releaseAll Fault.absentValue
    (hinputs.filter (· ∉ (scanDrops c.instructions roots).2)) fun v hv => hkeys ▸ (List.mem_filter.1 hv).1
  have hstartKeys : ∀ v, v ∈ start.keys ↔ v ∈ (scanDrops c.instructions roots).2 := by
    intro v
    rw [Account.keys_of_held (p := fun v => v ∉ (c.inputs.map (·.value)).filter (· ∉ (scanDrops c.instructions roots).2))
      hheld, hkeys, List.mem_filter, decide_eq_true_eq, List.mem_filter, decide_eq_true_eq]
    have := hlive v
    tauto
  obtain ⟨a', ha', hbalanced', hkeys'⟩ := ownInstructions_ok hbalanced hresults hstartKeys fun v hv hm =>
    hdisjoint v (hlive v ((hstartKeys v).1 hv)) v hm rfl
  exact ⟨_, start, a', by rw [Function.lifetimes, hroots]; rfl, hroots, hstart, ha', hbalanced', hkeys'⟩

end Instructions

/-! ### Transitions -/

section Transitions

variable {graph : Graph} {tables : Tables} {f : Function} {c : Continuation}

/-- What validation says of a transition: only a call leaves an argument open, one, and its callee takes its
arguments. -/
structure Graph.Passes (graph : Graph) (c : Continuation) : Prop where
  ordinary : (∀ target signature arguments next suspends, c.transition ≠ .call target signature arguments next suspends) →
    ∀ edge ∈ c.transition.edges, edge.arguments.count .result = 0
  call : ∀ target signature arguments next suspends, c.transition = .call target signature arguments next suspends →
    next.arguments.count .result = 1 ∧ ∀ id, target = .function id → ∃ g first,
      graph.functions.find? (·.id == id) = some g ∧ g.continuations[g.entry]? = some first ∧ first.captures = [] ∧
        first.parameters.length = arguments.length

/-- Without a result, an edge that validation passes has no argument for one. -/
theorem closed_of_validateEdge {definitions : Definitions} {available : Available} {transition : Transition} {edge : Edge}
    (hfits : f.Fits edge) (h : f.validateEdge definitions available transition none edge = .ok ()) :
    edge.arguments.count .result = 0 := by
  obtain ⟨successor, hs, hlength⟩ := hfits
  simp only [Function.validateEdge, hs, demand, ok_bind, bind_eq_ok, each_eq_ok] at h
  obtain ⟨-, harguments, -⟩ := h
  rw [List.count_eq_zero]
  intro hm
  obtain ⟨i, hi, he⟩ := List.mem_iff_getElem.1 hm
  have hmem : (edge.arguments[i], successor.parameters[i]) ∈ edge.arguments.zip successor.parameters :=
    List.mem_iff_getElem.2 ⟨i, by rw [List.length_zip]; omega, List.getElem_zip⟩
  have hargument := harguments _ hmem
  rw [he] at hargument
  simp [validateArgument, demand] at hargument

theorem Graph.Validated.passes (hg : graph.Validated tables) (hf : f ∈ graph.functions) (hc : c ∈ f.continuations) :
    graph.Passes c := by
  obtain ⟨n, hn⟩ := List.getElem?_of_mem hf
  obtain ⟨-, signature, definitions, live, hv⟩ := hg n f hn
  obtain ⟨start, available, result, -, -, -, htransition, hedges⟩ := hv.body hc
  have hfits := hv.fits c hc
  constructor
  · intro hordinary edge hedge
    have hnone : result = none := by
      cases ht : c.transition with
      | jump edge | trap message =>
        rw [ht] at htransition
        exact (pure_eq_ok.1 htransition).symm
      | branch condition consequent alternate =>
        simp only [ht, Graph.validateTransition, bind_eq_ok, pure_eq_ok] at htransition
        obtain ⟨-, -, -, -, -, -, rfl⟩ := htransition
        rfl
      | switch selector cases fallback =>
        simp only [ht, Graph.validateTransition, bind_eq_ok, pure_eq_ok] at htransition
        obtain ⟨-, -, -, -, -, -, -, -, rfl⟩ := htransition
        rfl
      | call target signature arguments next suspends => exact absurd ht (hordinary _ _ _ _ _)
      | «return» value =>
        simp only [ht, Graph.validateTransition, bind_eq_ok, pure_eq_ok] at htransition
        obtain ⟨-, -, -, -, rfl⟩ := htransition
        rfl
    subst hnone
    exact closed_of_validateEdge (hfits edge hedge) (hedges edge hedge)
  · intro target sig arguments next suspends ht
    simp only [ht, Graph.validateTransition, bind_eq_ok, pure_eq_ok, require_eq_ok, demand_eq_ok, beq_iff_eq] at htransition
    obtain ⟨_, hone, _, _, contract, hcontract, types, htypes, _, rfl, _, htarget, -⟩ := htransition
    refine ⟨hone, ?_⟩
    rintro id rfl
    simp only [Graph.validateTarget, bind_eq_ok, demand_eq_ok, require_eq_ok, Bool.and_eq_true, beq_iff_eq] at htarget
    obtain ⟨callee, hcallee, _, _, rfl, -⟩ := htarget
    obtain ⟨-, -, signature', definitions', live', hcalled⟩ := hg.validated hcallee
    cases hcontract.symm.trans hcalled.signed
    obtain ⟨first, hfirst, hcaptures, hparameters⟩ := hcalled.entry
    refine ⟨callee, first, hcallee, hfirst, hcaptures, ?_⟩
    rw [← collect_length htypes, ← hparameters, List.length_map]

theorem edgeAt_mem {transition : Transition} {choice : ℕ} {edge : Edge} (h : transition.edgeAt choice = some edge) :
    edge ∈ transition.edges := by
  unfold Transition.edgeAt at h
  cases hedge : transition.edges[choice]? with
  | some other =>
    rw [hedge, Option.some_or, Option.some.injEq] at h
    exact h ▸ List.mem_of_getElem? hedge
  | none =>
    rw [hedge, Option.none_or] at h
    exact List.mem_of_getLast? h

theorem edgeAt_isSome {transition : Transition} (h : transition.edges ≠ []) (choice : ℕ) :
    ∃ edge, transition.edgeAt choice = some edge := by
  unfold Transition.edgeAt
  cases hedge : transition.edges[choice]? with
  | some edge => exact ⟨edge, rfl⟩
  | none => exact ⟨transition.edges.getLast h, by rw [Option.none_or, List.getLast?_eq_some_getLast h]⟩

section Pass

variable (hfilled : ∀ f ∈ graph.functions, f.Filled) {function : FunctionId} {callers : List Pending}
  {a : Account ValueId} {roots : Ascending ValueId} {i : ContinuationId}

/-- The references that a taken edge passes on are among those that leave. -/
theorem edgeDestinations_roots (hroots : f.transitionRoots c.transition = .ok roots) {edge : Edge}
    {destinations : List ValueId} (hedge : edge ∈ c.transition.edges) (hd : f.edgeDestinations edge = .ok destinations) :
    ∀ v ∈ destinations, v ∈ roots.elements := by
  obtain ⟨successor, hs, rfl⟩ := edgeDestinations_eq_ok.1 hd
  intro v hv
  refine (mem_transitionRoots hroots v).2 (.inr ⟨edge, hedge, ?_⟩)
  exact (List.mem_append.1 hv).imp mem_arguments.1 fun h => ⟨successor, hs, h⟩

include hfilled

theorem inputs_nodup {function : FunctionId} {f : Function} {i : ContinuationId} {c : Continuation}
    (hfind : graph.functions.find? (·.id == function) = some f) (hc : f.continuations[i]? = some c) (hr : f.Reached i) :
    (c.inputs.map (·.value)).Nodup :=
  (List.nodup_append.1 ((hfilled f (List.mem_of_find?_eq_some hfind)).holdings_nodup hr hc)).1

variable (hfind : graph.functions.find? (·.id == function) = some f)
  (hc : f.continuations[i]? = some c) (hr : f.Reached i) (hroots : f.transitionRoots c.transition = .ok roots)
  (ha : a.Balanced (callers.flatMap Pending.references)) (hkeys : ∀ v, v ∈ a.keys ↔ v ∈ roots.elements)
  (hcallers : ∀ p ∈ callers, p.Sound graph 1)

include hfind hc hr hroots ha hkeys hcallers

/-- **An edge that is taken**: its target is entered, and what it does not take is dropped. -/
theorem Graph.follow_ok {edge : Edge} (hedge : edge ∈ c.transition.edges)
    (hclosed : edge.arguments.count .result = 0) :
    ∃ m, (do
      let destinations ← f.edgeDestinations edge
      let (rs, a) ← a.transfer Fault.absentValue roots.elements destinations
      graph.settle (edge.pend function rs) none callers a) = .ok m ∧ m.Sound graph := by
  have hfits := (hfilled f (List.mem_of_find?_eq_some hfind)).fits c (List.mem_of_getElem? hc) edge hedge
  obtain ⟨successor, hs, -⟩ := id hfits
  have hdestinations := edgeDestinations_eq_ok.2 ⟨successor, hs, rfl⟩
  obtain ⟨rs, a', htransfer, hlength, hheld, hbalanced⟩ := ha.transfer Fault.absentValue roots.nodup hkeys
    (edgeDestinations_roots hroots hedge hdestinations)
  obtain ⟨hpend, hreferences⟩ := pend_sound hfind hfits (hr.edge hc hedge) hdestinations hlength
  rw [hclosed] at hpend
  obtain ⟨m, hm, hsound⟩ := hpend.settle none (a := a')
    (by rw [hreferences]; exact hbalanced) hheld hcallers fun f c hfind hc hr => inputs_nodup hfilled hfind hc hr
  refine ⟨m, ?_, hsound⟩
  rw [hdestinations, ok_bind, htransfer, ok_bind]
  exact hm

theorem Graph.branch_ok (choice : ℕ) (hedges : c.transition.edges ≠ [])
    (hclosed : ∀ edge ∈ c.transition.edges, edge.arguments.count .result = 0) :
    ∃ m, (do
      let _ ← collect (a.read Fault.absentValue) c.transition.uses
      let edge ← demand (c.transition.edgeAt choice) (.absentContinuation choice)
      let destinations ← f.edgeDestinations edge
      let (rs, a) ← a.transfer Fault.absentValue roots.elements destinations
      graph.settle (edge.pend function rs) none callers a) = .ok m ∧ m.Sound graph := by
  obtain ⟨rs, hrs⟩ := read_all ha fun v hv => (hkeys v).2 ((mem_transitionRoots hroots v).2 (.inl hv))
  obtain ⟨edge, hedge⟩ := edgeAt_isSome hedges choice
  obtain ⟨m, hm, hsound⟩ := Graph.follow_ok hfilled hfind hc hr hroots ha hkeys hcallers (edgeAt_mem hedge)
    (hclosed edge (edgeAt_mem hedge))
  refine ⟨m, ?_, hsound⟩
  rw [hrs, ok_bind, demand_eq_ok.2 hedge, ok_bind]
  exact hm

/-- **A transition moves the roots**, and drops those that go nowhere. -/
theorem Graph.pass_ok (hpasses : graph.Passes c) (choice : ℕ) :
    ∃ m, graph.pass function f roots.elements choice callers a c.transition = .ok m ∧ m.Sound graph := by
  have hf := hfilled f (List.mem_of_find?_eq_some hfind)
  have hleaves : ∀ v, f.Leaves c v → v ∈ roots.elements := fun v hv => (mem_transitionRoots hroots v).2 hv
  have hleaving : ∀ entry ∈ a.held, f.Leaves c entry.1 := fun entry he =>
    (mem_transitionRoots hroots entry.1).1 ((hkeys entry.1).1 (List.mem_map_of_mem he))
  have hbranch := fun hedges hordinary => Graph.branch_ok hfilled hfind hc hr hroots ha hkeys hcallers choice hedges
    (hpasses.ordinary hordinary)
  cases ht : c.transition with
  | jump edge | branch condition consequent alternate | switch selector cases fallback =>
    rw [ht] at hbranch
    exact hbranch (by simp [Transition.edges]) fun _ _ _ _ _ h => by cases h
  | «return» value =>
    have hvalue : value ∈ a.keys := (hkeys value).2 (hleaves value (.inl (by rw [ht]; exact List.mem_singleton_self _)))
    obtain ⟨r, a', htake, hbalanced, hheld⟩ := ha.take Fault.absentValue hvalue
    -- the value that is returned is the only root
    have hnone : a'.held = [] := by
      rw [hheld, List.filter_eq_nil_iff]
      intro entry he
      have hroot := hleaving entry he
      rw [Function.Leaves, ht] at hroot
      rcases hroot with h | ⟨edge, hedge, -⟩
      · simpa using List.mem_singleton.1 h
      · cases hedge
    unfold Graph.pass
    dsimp only
    rw [htake, ok_bind]
    cases callers with
    | nil => exact ⟨_, rfl, hbalanced, ⟨rfl, hnone⟩, fun _ hp => absurd hp List.not_mem_nil⟩
    | cons pending callers =>
      obtain ⟨hpending, hcallers⟩ := List.forall_mem_cons.1 hcallers
      exact Pending.Sound.settle _ hpending hbalanced hnone hcallers fun f c hfind hc hr =>
        inputs_nodup hfilled hfind hc hr
  | trap message =>
    have hnone : a.held = [] := by
      rw [List.eq_nil_iff_forall_not_mem]
      intro entry he
      have hroot := hleaving entry he
      rw [Function.Leaves, ht] at hroot
      rcases hroot with h | ⟨edge, hedge, -⟩
      · cases h
      · cases hedge
    exact ⟨⟨.trapped, callers, a⟩, rfl, ha, hnone, hcallers⟩
  | call target signature arguments next suspends =>
    obtain ⟨hone, hcallee⟩ := hpasses.call target signature arguments next suspends ht
    have hedge : next ∈ c.transition.edges := by rw [ht]; exact List.mem_singleton_self _
    have hfits := hf.fits c (List.mem_of_getElem? hc) next hedge
    obtain ⟨successor, hs, -⟩ := id hfits
    obtain ⟨destinations, hdestinations⟩ : ∃ destinations, f.edgeDestinations next = .ok destinations :=
      ⟨_, edgeDestinations_eq_ok.2 ⟨successor, hs, rfl⟩⟩
    have harguments : ∀ v ∈ arguments, v ∈ roots.elements := fun v hv => hleaves v (.inl (by rw [ht]; exact hv))
    have hnext := edgeDestinations_roots hroots hedge hdestinations
    obtain ⟨read, hread⟩ := read_all ha fun v hv => (hkeys v).2 (harguments v hv)
    have hpend : ∀ rs : List ℕ, rs.length = destinations.length →
        (next.pend function rs).Sound graph (next.arguments.count .result) ∧ (next.pend function rs).references = rs :=
      fun rs hlength => pend_sound hfind hfits (hr.edge hc hedge) hdestinations hlength
    -- a request settles with the references of the edge
    have hrequest : ∃ m, (do
        let (rs, a) ← a.transfer Fault.absentValue roots.elements destinations
        pure (Owner.mk (.waiting (next.pend function rs)) callers a)) = .ok m ∧ m.Sound graph := by
      obtain ⟨rs, a', htransfer, hlength, hheld, hbalanced⟩ := ha.transfer Fault.absentValue roots.nodup hkeys hnext
      obtain ⟨hsound, hreferences⟩ := hpend rs hlength
      refine ⟨⟨.waiting (next.pend function rs), callers, a'⟩, ?_, ⟨?_, ⟨hone ▸ hsound, hheld⟩, hcallers⟩⟩
      · rw [htransfer]
        rfl
      · show a'.Balanced ((next.pend function rs).references ++ _)
        rw [hreferences]
        exact hbalanced
    unfold Graph.pass
    dsimp only
    rw [hread, ok_bind, hdestinations, ok_bind]
    cases target with
    | host capability operation => exact hrequest
    | link unit name => exact hrequest
    | function id =>
      obtain ⟨called, first, hcalled, hfirst, hcaptures, hcount⟩ := hcallee id rfl
      obtain ⟨rs, a', htransfer, hlength, hheld, hbalanced⟩ := ha.transfer Fault.absentValue roots.nodup hkeys
        fun v hv => (List.mem_append.1 hv).elim (hnext v) (harguments v)
      rw [List.length_append] at hlength
      have htake : (rs.take destinations.length).length = destinations.length := by
        rw [List.length_take]
        omega
      have hdrop : (first.parameters.map (·.value)).length = (rs.drop destinations.length).length := by
        rw [List.length_map, List.length_drop]
        omega
      obtain ⟨hsound, hreferences⟩ := hpend (rs.take destinations.length) htake
      have hinputs : first.inputs = first.parameters := by rw [Continuation.inputs, hcaptures, List.append_nil]
      have hentered : (a'.enter (first.parameters.map (·.value)) (rs.drop destinations.length)).keys =
          first.parameters.map (·.value) := List.map_fst_zip (Nat.le_of_eq hdrop)
      refine ⟨⟨.ready id called.entry, next.pend function (rs.take destinations.length) :: callers,
        a'.enter (first.parameters.map (·.value)) (rs.drop destinations.length)⟩, ?_, ⟨?_, ?_⟩,
        ⟨called, first, hcalled, hfirst, .entry, by rw [hentered, hinputs]⟩, ?_⟩
      · simp [htransfer, Graph.find, Function.fetch, hcalled, hfirst, demand]
      · rw [hentered, ← hinputs]
        exact inputs_nodup hfilled hcalled hfirst .entry
      · refine List.Perm.trans ?_ hbalanced.references
        have hmoved : (a'.enter (first.parameters.map (·.value)) (rs.drop destinations.length)).references =
            rs.drop destinations.length := List.map_snd_zip (Nat.le_of_eq hdrop.symm)
        rw [hmoved, Account.references, hheld]
        show (a'.dropped ++ rs.drop destinations.length ++
          ((next.pend function (rs.take destinations.length)).references ++ callers.flatMap Pending.references)).Perm
          (a'.dropped ++ [] ++ (rs ++ callers.flatMap Pending.references))
        rw [hreferences, List.append_nil, List.append_assoc, ← List.append_assoc (rs.drop _)]
        refine List.Perm.append_left _ (List.Perm.append_right _ ?_)
        exact List.perm_append_comm.trans (List.Perm.of_eq (List.take_append_drop _ _))
      · exact List.forall_mem_cons.2 ⟨hone ▸ hsound, hcallers⟩

end Pass

end Transitions

/-! ### Runs -/

section Runs

variable {graph : Graph} (hfilled : ∀ f ∈ graph.functions, f.Filled)

include hfilled

/-- **A turn keeps the machine sound.** -/
theorem Owner.Sound.turn (hpasses : ∀ f ∈ graph.functions, ∀ c ∈ f.continuations, graph.Passes c) {m : Owner}
    (hm : m.Sound graph) (choice : ℕ) : ∃ m', m.turn graph choice = .ok m' ∧ m'.Sound graph := by
  obtain ⟨stage, callers, a⟩ := m
  cases stage with
  | ready function continuation =>
    obtain ⟨f, c, hfind, hc, hr, hkeys⟩ := hm.stage
    have hf := List.mem_of_find?_eq_some hfind
    obtain ⟨l, start, a', hl, hroots, hstart, ha', hbalanced, hheld⟩ :=
      ownContinuation_ok (hfilled f hf) hr hc hm.balanced hkeys
    obtain ⟨m', hm', hsound⟩ := Graph.pass_ok hfilled hfind hc hr hroots hbalanced hheld hm.callers
      (hpasses f hf c (List.mem_of_getElem? hc)) choice
    refine ⟨m', ?_, hsound⟩
    simp only [Owner.turn, Graph.find, Function.fetch, demand_eq_ok.2 hfind, demand_eq_ok.2 hc, hl, hstart, ha', ok_bind]
    exact hm'
  | waiting pending => exact ⟨_, rfl, hm⟩
  | returned r => exact ⟨_, rfl, hm⟩
  | trapped => exact ⟨_, rfl, hm⟩

/-- **A request that settles keeps the machine sound.** -/
theorem Owner.Sound.resume {m : Owner} (hm : m.Sound graph) : ∃ m', m.resume graph = .ok m' ∧ m'.Sound graph := by
  obtain ⟨stage, callers, a⟩ := m
  cases stage with
  | waiting pending =>
    obtain ⟨hpending, hheld⟩ := hm.stage
    have hbalanced : Account.Balanced { a with supply := a.supply + 1 }
        (a.supply :: (pending.references ++ callers.flatMap Pending.references)) := by
      refine ⟨hm.balanced.keys, ?_⟩
      rw [List.range_succ]
      refine List.perm_middle.trans ?_
      exact ((hm.balanced.references).cons a.supply).trans (List.perm_append_singleton _ _).symm
    exact Pending.Sound.settle _ hpending hbalanced hheld hm.callers
      fun f c hfind hc hr => inputs_nodup hfilled hfind hc hr
  | ready function continuation => exact ⟨_, rfl, hm⟩
  | returned r => exact ⟨_, rfl, hm⟩
  | trapped => exact ⟨_, rfl, hm⟩

theorem Owner.sound_of_start {id : FunctionId} {m : Owner} (h : Owner.start graph id = .ok m) : m.Sound graph := by
  simp only [Owner.start, Graph.find, Function.fetch, bind_eq_ok, demand_eq_ok, pure_eq_ok] at h
  obtain ⟨f, hfind, first, hfirst, rfl⟩ := h
  obtain ⟨first', hfirst', hcaptures⟩ := (hfilled f (List.mem_of_find?_eq_some hfind)).entry
  obtain rfl := Option.some.inj (hfirst.symm.trans hfirst')
  have hinputs : first.inputs.map (·.value) = first.parameters.map (·.value) := by
    rw [Continuation.inputs, hcaptures, List.append_nil]
  have hnodup := inputs_nodup hfilled hfind hfirst .entry
  rw [hinputs] at hnodup
  generalize first.parameters.map (·.value) = parameters at hinputs hnodup ⊢
  have hkeys : (parameters.zip (List.range parameters.length)).map (·.1) = parameters :=
    List.map_fst_zip (Nat.le_of_eq List.length_range.symm)
  have hreferences : (parameters.zip (List.range parameters.length)).map (·.2) = List.range parameters.length :=
    List.map_snd_zip (Nat.le_of_eq List.length_range)
  refine ⟨⟨?_, ?_⟩, ⟨f, first, hfind, hfirst, .entry, hkeys.trans hinputs.symm⟩, fun _ hp => nomatch hp⟩
  · rw [Account.keys, hkeys]
    exact hnodup
  · rw [Account.references, hreferences]
    exact List.Perm.of_eq (List.append_nil _)

/-- **Every state that is reached is sound.** -/
theorem Owner.sound_of_reaches (hpasses : ∀ f ∈ graph.functions, ∀ c ∈ f.continuations, graph.Passes c)
    {id : FunctionId} {m : Owner} (h : Owner.Reaches graph id m) : m.Sound graph := by
  induction h with
  | start h => exact Owner.sound_of_start hfilled h
  | @turn m m' choice _ h ih =>
    obtain ⟨next, hnext, hsound⟩ := ih.turn hfilled hpasses choice
    cases hnext.symm.trans h
    exact hsound
  | resume _ h ih =>
    obtain ⟨next, hnext, hsound⟩ := ih.resume hfilled
    cases hnext.symm.trans h
    exact hsound

end Runs

/-- **Every owned value is dropped exactly once.**  In a validated graph, each value that a continuation of an execution
path holds leaves with its transition or is dropped once, after its last read; and in every state of a run of the machine
no reference has been dropped twice, none that is held has been dropped, no turn reads or drops a value without a
reference, and when the run has returned, every reference but the returned one has been dropped. -/
theorem values_dropped_once {graph : Graph} {tables : Tables} {rounds : ℕ} (h : graph.validate tables rounds = .ok ()) :
    (∀ f ∈ graph.functions, ∀ i c, f.Reached i → f.continuations[i]? = some c →
      ∃ l, f.lifetimes c = .ok l ∧ l.Exact f c) ∧
    ∀ id m, Owner.Reaches graph id m →
      m.account.dropped.Nodup ∧ (∀ r ∈ m.account.references ++ m.elsewhere, r ∉ m.account.dropped) ∧
      (∀ choice, ∃ m', m.turn graph choice = .ok m') ∧ (∃ m', m.resume graph = .ok m') ∧
      ∀ r, m.stage = .returned r → (r :: m.account.dropped).Perm (List.range m.account.supply) := by
  have hg := Graph.validated_of_validate h
  have hfilled : ∀ f ∈ graph.functions, f.Filled := fun f hf => filled_of_validate h hf
  have hpasses : ∀ f ∈ graph.functions, ∀ c ∈ f.continuations, graph.Passes c := fun f hf c hc => hg.passes hf hc
  refine ⟨fun f hf i c hr hc => (hfilled f hf).lifetimes hr hc, fun id m hm => ?_⟩
  have hsound := Owner.sound_of_reaches hfilled hpasses hm
  have hnodup := hsound.balanced.references.nodup_iff.mpr List.nodup_range
  rw [List.append_assoc] at hnodup
  obtain ⟨hdropped, -, hapart⟩ := List.nodup_append.1 hnodup
  refine ⟨hdropped, fun r hr hd => hapart r hd r hr rfl, fun choice => ?_, ?_, fun r hr => ?_⟩
  · obtain ⟨m', hm', -⟩ := hsound.turn hfilled hpasses choice
    exact ⟨m', hm'⟩
  · obtain ⟨m', hm', -⟩ := hsound.resume hfilled
    exact ⟨m', hm'⟩
  · have hstage := hsound.stage
    have hreferences := hsound.balanced.references
    rw [Owner.elsewhere, hr] at hreferences
    rw [hr] at hstage
    obtain ⟨hcallers, hheld⟩ := hstage
    rw [hcallers, Account.references, hheld] at hreferences
    exact (List.perm_append_singleton r _).symm.trans (by simpa [Stage.references] using hreferences)

/-- The text of `echo` is returned; the response to its request is dropped where its continuation is entered. -/
theorem values_dropped_once_echo : ∃ m, Owner.Reaches ⟨[echo]⟩ 0 m ∧ m.stage = .returned 0 ∧
    m.account.dropped = [1] ∧ (0 :: m.account.dropped).Perm (List.range m.account.supply) := by
  have h : Graph.validate ⟨[echo]⟩ echoTables 3 = .ok () := by decide
  have hstart : Owner.start ⟨[echo]⟩ 0 = .ok ⟨.ready 0 0, [], ⟨[(0, 0)], 1, []⟩⟩ := rfl
  have hrequest : Owner.turn ⟨[echo]⟩ 0 ⟨.ready 0 0, [], ⟨[(0, 0)], 1, []⟩⟩ =
      .ok ⟨.waiting ⟨0, 1, [none], [0]⟩, [], ⟨[], 1, []⟩⟩ := rfl
  have hresponse : Owner.resume ⟨[echo]⟩ ⟨.waiting ⟨0, 1, [none], [0]⟩, [], ⟨[], 1, []⟩⟩ =
      .ok ⟨.ready 0 1, [], ⟨[(1, 1), (0, 0)], 2, []⟩⟩ := rfl
  have hreturn : Owner.turn ⟨[echo]⟩ 0 ⟨.ready 0 1, [], ⟨[(1, 1), (0, 0)], 2, []⟩⟩ =
      .ok ⟨.returned 0, [], ⟨[], 2, [1]⟩⟩ := rfl
  have hreaches : Owner.Reaches ⟨[echo]⟩ 0 ⟨.returned 0, [], ⟨[], 2, [1]⟩⟩ :=
    .turn (.resume (.turn (.start hstart) hrequest) hresponse) hreturn
  exact ⟨_, hreaches, rfl, rfl, ((values_dropped_once h).2 0 _ hreaches).2.2.2.2 0 rfl⟩

end Blot.Suspension
