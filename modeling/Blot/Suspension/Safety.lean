import Blot.Suspension.Checked

/-!
# A validated graph does not get stuck

The machine on a validated graph, with values that have the representations that the graph declares:

* `Machine.Sound` — the state of the machine: what an activation or a waiting destination holds, and for each caller
  what its continuation still expects from the function above it;
* `Graph.Validated.turn_sound` — one turn does not panic and keeps the state sound;
* `validated_never_stuck` — so does every sequence of polls, resumes and cancels.
-/

namespace Blot.Suspension

open Blot.Hir Blot.Support

variable {V σ : Type} {graph : Graph} {tables : Tables} {f : Function}

/-! ### What the machine holds -/

section Holding

variable (HasType : V → TypeId → Prop)

/-- Each definition has a value of its representation. -/
def Holds (values : Table ValueId V) (definitions : List Definition) : Prop :=
  ∀ d ∈ definitions, ∃ x, values.lookup d.value = some x ∧ HasType x d.typeId

/-- Each available value is there, with its representation. -/
def Covers (values : Table ValueId V) (available : Available) : Prop :=
  ∀ value type, available.lookup value = some type → ∃ x, values.lookup value = some x ∧ HasType x type

/-- An argument for a parameter; where it is open, a result of the representation `result` is expected. -/
def Suits (result : Option TypeId) (parameter : Definition) (argument : Option V) : Prop :=
  (∀ x, argument = some x → HasType x parameter.typeId) ∧ (argument = none → result = some parameter.typeId)

/-- A destination has what its continuation takes, up to a result of the representation `result`. -/
def Destination.Sound (graph : Graph) (result : Option TypeId) (d : Destination V) : Prop :=
  ∃ f successor, graph.functions.find? (·.id == d.function) = some f ∧
    f.continuations[d.continuation]? = some successor ∧
    List.Forall₂ (Suits HasType result) successor.parameters d.arguments ∧
    Holds HasType d.captures successor.captures

/-- An activation holds the parameters and the captures of its continuation. -/
def Activation.Sound (graph : Graph) (a : Activation V) : Prop :=
  ∃ f c, graph.functions.find? (·.id == a.function) = some f ∧ f.continuations[a.continuation]? = some c ∧
    Holds HasType a.values c.inputs

def Graph.Returns (graph : Graph) (tables : Tables) (id : FunctionId) (type : TypeId) : Prop :=
  ∃ f signature, graph.functions.find? (·.id == id) = some f ∧ tables.signatures[f.signature]? = some signature ∧
    signature.result = type

/-- The callers below a function that returns `type`: each takes the result of the one above it. -/
def CallersSound (graph : Graph) (tables : Tables) : TypeId → List (Destination V) → Prop
  | _, [] => True
  | type, d :: callers => d.Sound HasType graph (some type) ∧
    ∃ result, graph.Returns tables d.function result ∧ CallersSound graph tables result callers

def responseType (tables : Tables) : CallTarget → Option TypeId
  | .host capability operation =>
    (tables.hostOperation capability operation).bind fun found => (tables.signatures[found.signature]?).map (·.result)
  | .link unit name =>
    (tables.developmentLink unit name).bind fun found => (tables.signatures[found.signature]?).map (·.result)
  | .function _ => none

/-- A sound state of the machine; `pending` is the last request. -/
def Machine.Sound (graph : Graph) (tables : Tables) (pending : Option CallTarget) (m : Machine V) : Prop :=
  match m.state with
  | .ready a => a.Sound HasType graph ∧
    ∃ result, graph.Returns tables a.function result ∧ CallersSound HasType graph tables result m.callers
  | .waiting d => ∃ target type, pending = some target ∧ responseType tables target = some type ∧
    d.Sound HasType graph (some type) ∧
    ∃ result, graph.Returns tables d.function result ∧ CallersSound HasType graph tables result m.callers
  | .running => ∃ type, CallersSound HasType graph tables type m.callers
  | .returned _ => m.callers = []
  | .trapped _ => m.callers = []

end Holding

variable {HasType : V → TypeId → Prop}

/-- Execution gives a value of the declared representation, from operands of their declared representations. -/
def Execute.Preserves (HasType : V → TypeId → Prop) (graph : Graph) (execute : Execute V σ) : Prop :=
  ∀ f ∈ graph.functions, ∀ c ∈ f.continuations, ∀ i ∈ c.instructions, ∀ arguments s x s',
    List.Forall₂ (fun operand x => ∃ type, f.Declares operand type ∧ HasType x type) i.operands arguments →
    execute i arguments s = (.ok x, s') → HasType x i.definition.typeId

/-! ### Reading -/

/-- **Available values are read.** -/
theorem Covers.collect {values : Table ValueId V} {available : Available} (h : Covers HasType values available)
    {ids : List ValueId} (hids : ∀ id ∈ ids, (available.lookup id).isSome) :
    ∃ xs, collect (readValue values) ids = .ok xs ∧
      List.Forall₂ (fun id x => ∃ type, available.lookup id = some type ∧ HasType x type) ids xs := by
  induction ids with
  | nil => exact ⟨[], rfl, .nil⟩
  | cons id ids ih =>
    obtain ⟨type, htype⟩ := Option.isSome_iff_exists.1 (hids id (by simp))
    obtain ⟨x, hx, hty⟩ := h id type htype
    obtain ⟨xs, hxs, hall⟩ := ih fun id' h' => hids id' (by simp [h'])
    exact ⟨x :: xs, by simp [Support.collect, readValue, hx, demand, hxs], .cons ⟨type, htype, hty⟩ hall⟩

/-! ### Instructions -/

theorem Covers.insert {values : Table ValueId V} {available : Available} (h : Covers HasType values available)
    {x : V} {d : Definition} (hx : HasType x d.typeId) :
    Covers HasType (values.insert d.value x) (available.insert d.value d.typeId) := by
  intro value type hv
  rw [Table.lookup_insert] at hv ⊢
  split at hv
  · next he =>
    cases hv
    exact ⟨x, if_pos he, hx⟩
  · next he =>
    obtain ⟨y, hy, hty⟩ := h value type hv
    exact ⟨y, by rw [if_neg he, hy], hty⟩

/-- **The instructions of a continuation read only what is available.** -/
theorem run_sound {c : Continuation} (hf : f ∈ graph.functions) (hc : c ∈ f.continuations) {execute : Execute V σ}
    (hpres : execute.Preserves HasType graph) {instructions : List Instruction}
    (his : ∀ i ∈ instructions, i ∈ c.instructions) {available available' : Available}
    (hperform : instructions.foldlM (f.perform tables) available = .ok available')
    (hdecl : ∀ value type, available.lookup value = some type → f.Declares value type) {values : Table ValueId V}
    (hcov : Covers HasType values available) (s : σ) :
    ∃ r s', runInstructions execute instructions values s = .ok (r, s') ∧
      ∀ values', r = .ok values' → Covers HasType values' available' := by
  induction instructions generalizing available values s with
  | nil =>
    cases foldlM_nil_eq_ok.1 hperform
    exact ⟨.ok values, s, rfl, fun values' h => by cases h; exact hcov⟩
  | cons i instructions ih =>
    obtain ⟨next, hi, hrest⟩ := foldlM_cons_eq_ok.1 hperform
    simp only [Function.perform, bind_eq_ok, require_eq_ok, each_eq_ok, pure_eq_ok] at hi
    obtain ⟨_, _, _, hoperands, _, _, rfl⟩ := hi
    obtain ⟨arguments, harguments, htyped⟩ := hcov.collect hoperands
    rw [runInstructions, harguments, ok_bind]
    rcases hexec : execute i arguments s with ⟨message | x, s'⟩
    · exact ⟨.error message, s', rfl, fun values' h => by cases h⟩
    · have hmem : i ∈ c.instructions := his i (by simp)
      have hx : HasType x i.definition.typeId := by
        refine hpres f hf c hc i hmem arguments s x s' ?_ hexec
        refine htyped.imp fun operand y => ?_
        rintro ⟨type, htype, hy⟩
        exact ⟨type, hdecl operand type htype, hy⟩
      refine ih (fun i' h' => his i' (by simp [h'])) hrest ?_ (hcov.insert hx) s'
      intro value type hv
      rw [Table.lookup_insert] at hv
      split at hv
      · next he =>
        cases hv
        refine ⟨c, hc, i.definition, ?_, he.symm, rfl⟩
        exact List.mem_append_right _ (List.mem_map.2 ⟨i, hmem, rfl⟩)
      · exact hdecl value type hv

/-! ### Edges -/

section Edges

variable {definitions : Definitions} {available : Available} {transition : Transition} {result : Option TypeId}
  {edge : Edge} {values : Table ValueId V}

theorem arguments_suit (hcov : Covers HasType values available) {arguments : List Argument}
    {parameters : List Definition} (hlength : parameters.length = arguments.length)
    (hvalid : ∀ entry ∈ arguments.zip parameters,
      validateArgument definitions available transition result entry = .ok ()) :
    ∃ xs, collect (readArgument values) arguments = .ok xs ∧ List.Forall₂ (Suits HasType result) parameters xs := by
  induction arguments generalizing parameters with
  | nil =>
    cases parameters with
    | nil => exact ⟨[], rfl, .nil⟩
    | cons p parameters => cases hlength
  | cons argument arguments ih =>
    cases parameters with
    | nil => cases hlength
    | cons p parameters =>
      have hlength' : parameters.length = arguments.length := by simpa using hlength
      obtain ⟨xs, hxs, hall⟩ := ih hlength' fun entry h => hvalid entry (by simp [h])
      have hp := hvalid (argument, p) (by simp)
      cases argument with
      | value v =>
        simp only [validateArgument, bind_eq_ok, demand_eq_ok, require_eq_ok, beq_iff_eq] at hp
        obtain ⟨type, htype, _, _, _, _, rfl⟩ := hp
        obtain ⟨x, hx, hty⟩ := hcov v _ htype
        refine ⟨some x :: xs, by simp [collect, readArgument, readValue, hx, demand, hxs], .cons ⟨?_, ?_⟩ hall⟩
        · intro y hy
          cases hy
          exact hty
        · intro hy
          cases hy
      | result =>
        simp only [validateArgument, bind_eq_ok, demand_eq_ok, require_eq_ok, beq_iff_eq] at hp
        obtain ⟨type, htype, _, _, rfl⟩ := hp
        refine ⟨none :: xs, by simp [collect, readArgument, hxs], .cons ⟨?_, fun _ => htype⟩ hall⟩
        intro y hy
        cases hy

theorem captures_hold (hcov : Covers HasType values available) {captures : List Definition}
    (hvalid : ∀ capture ∈ captures, available.lookup capture.value = some capture.typeId) :
    ∃ entries, collect (readCapture values) captures = .ok entries ∧
      Holds HasType (Table.extend [] entries) captures := by
  have hread : ∃ entries, collect (readCapture values) captures = .ok entries :=
    collect_of_forall fun capture h => by
      obtain ⟨x, hx, _⟩ := hcov _ _ (hvalid capture h)
      exact ⟨(capture.value, x), by simp [readCapture, readValue, hx, demand]⟩
  obtain ⟨entries, hentries⟩ := hread
  refine ⟨entries, hentries, fun capture h => ?_⟩
  have hentry : ∀ d x, readCapture values d = .ok x → x.1 = d.value ∧ values.lookup x.1 = some x.2 := by
    intro d x hx
    simp only [readCapture, readValue, bind_eq_ok, demand_eq_ok, pure_eq_ok] at hx
    obtain ⟨y, hy, rfl⟩ := hx
    exact ⟨rfl, hy⟩
  -- every entry is a value of the activation
  have hagree : ∀ p ∈ entries, values.lookup p.1 = some p.2 := by
    intro p hp
    obtain ⟨d, _, hd⟩ := mem_of_collect hentries hp
    exact (hentry d p hd).2
  have hkey : capture.value ∈ entries.map (·.1) := by
    obtain ⟨p, hp, hd⟩ := collect_of_mem hentries h
    exact List.mem_map.2 ⟨p, hp, (hentry capture p hd).1⟩
  obtain ⟨x, hx, hty⟩ := hcov _ _ (hvalid capture h)
  exact ⟨x, (Table.lookup_extend_of_agree (f := fun id => values.lookup id) hagree hkey).trans hx, hty⟩

variable {a : Activation V}

/-- **An edge that validation passes gives a sound destination.** -/
theorem destination_sound (hfind : graph.functions.find? (·.id == a.function) = some f) (hfits : f.Fits edge)
    (hvalid : f.validateEdge definitions available transition result edge = .ok ())
    (hcov : Covers HasType a.values available) :
    ∃ d, graph.destination a edge = .ok d ∧ d.function = a.function ∧ d.Sound HasType graph result := by
  obtain ⟨successor, hs, hlength⟩ := hfits
  simp only [Function.validateEdge, hs, bind_eq_ok, demand_eq_ok, each_eq_ok] at hvalid
  obtain ⟨_, hsucc, _, harguments, hcaptures⟩ := hvalid
  cases hsucc
  obtain ⟨xs, hxs, hsuit⟩ := arguments_suit hcov hlength harguments
  have hprovided : ∀ capture ∈ successor.captures, available.lookup capture.value = some capture.typeId := by
    intro capture h
    have := hcaptures capture h
    simp only [validateCapture, bind_eq_ok, require_eq_ok, beq_iff_eq] at this
    exact this.choose_spec.1
  obtain ⟨entries, hentries, hholds⟩ := captures_hold hcov hprovided
  refine ⟨⟨a.function, edge.target, xs, Table.extend [] entries⟩, ?_, rfl, f, successor, hfind, hs, hsuit, hholds⟩
  simp [Graph.destination, Graph.find, Function.fetch, hfind, hs, demand, hxs, hentries]

theorem parameters_hold {parameters : List Definition} {arguments : List (Option V)} {expected : Option TypeId}
    (hsuit : List.Forall₂ (Suits HasType expected) parameters arguments) {x : Option V}
    (hx : ∀ type, expected = some type → ∃ y, x = some y ∧ HasType y type)
    (hnodup : (parameters.map (·.value)).Nodup) {held : List Definition} (hholds : Holds HasType values held)
    (hfresh : ∀ p ∈ parameters, ∀ d ∈ held, d.value ≠ p.value) :
    ∃ values', (parameters.zip arguments).foldlM (bindParameter x) values = .ok values' ∧
      Holds HasType values' (parameters ++ held) := by
  induction hsuit generalizing values held with
  | nil => exact ⟨values, rfl, hholds⟩
  | @cons p argument parameters arguments hp hsuit ih =>
    obtain ⟨hnot, hnodup⟩ := List.nodup_cons.1 hnodup
    obtain ⟨y, hy, hty⟩ : ∃ y, argument.or x = some y ∧ HasType y p.typeId := by
      cases argument with
      | some y => exact ⟨y, rfl, hp.1 y rfl⟩
      | none => exact hx _ (hp.2 rfl)
    have hinsert : Holds HasType (values.insert p.value y) (p :: held) := by
      intro d hd
      rw [Table.lookup_insert]
      rcases List.mem_cons.1 hd with rfl | hd
      · exact ⟨y, if_pos rfl, hty⟩
      · rw [if_neg (hfresh p (by simp) d hd)]
        exact hholds d hd
    obtain ⟨values', hfold, hall⟩ := ih hnodup hinsert (by
      intro q hq d hd
      rcases List.mem_cons.1 hd with rfl | hd
      · exact fun h => hnot (List.mem_map.2 ⟨q, hq, h.symm⟩)
      · exact hfresh q (by simp [hq]) d hd)
    refine ⟨values', ?_, fun d hd => hall d ?_⟩
    · simp [List.zip_cons_cons, bindParameter, hy, demand, hfold]
    · simp only [List.cons_append, List.mem_cons, List.mem_append] at hd ⊢
      exact or_left_comm.1 hd

end Edges

/-! ### A continuation -/

theorem Function.Validated.body {signature : RuntimeSignature} {definitions : Definitions} {live : Live}
    (hf : f.Validated graph tables signature definitions live) {c : Continuation} (hc : c ∈ f.continuations) :
    ∃ start available result, c.inputs.foldlM (c.declareInput definitions) [] = .ok start ∧
      c.instructions.foldlM (f.perform tables) start = .ok available ∧
      (∀ value ∈ c.transition.uses, (available.lookup value).isSome) ∧
      graph.validateTransition tables f signature available c.transition = .ok result ∧
      ∀ edge ∈ c.transition.edges, f.validateEdge definitions available c.transition result edge = .ok () := by
  have h := hf.checked c hc
  simp only [Graph.validateContinuation, bind_eq_ok, demand_eq_ok, require_eq_ok, each_eq_ok] at h
  obtain ⟨_, _, _, _, start, hstart, available, havailable, _, huses, result, hresult, hedges⟩ := h
  exact ⟨start, available, result, hstart, havailable, huses, hresult, hedges⟩

section Machine

variable (hg : graph.Validated tables)

include hg

theorem Graph.Validated.validated {id : FunctionId} (hf : graph.functions.find? (·.id == id) = some f) :
    f ∈ graph.functions ∧ f.id = id ∧
      ∃ signature definitions live, f.Validated graph tables signature definitions live := by
  rw [hg.find_eq] at hf
  exact ⟨List.mem_of_getElem? hf, hg id f hf⟩

/-- **A sound destination is arrived at with everything it needs.** -/
theorem Graph.Validated.arrive {d : Destination V} {expected : Option TypeId} (hd : d.Sound HasType graph expected)
    {x : Option V} (hx : ∀ type, expected = some type → ∃ y, x = some y ∧ HasType y type) :
    ∃ a, graph.arrive d x = .ok a ∧ a.function = d.function ∧ a.Sound HasType graph := by
  obtain ⟨f, successor, hfind, hs, hsuit, hholds⟩ := hd
  obtain ⟨_, _, signature, definitions, live, hf⟩ := hg.validated hfind
  obtain ⟨start, _, _, hstart, _⟩ := hf.body (List.mem_of_getElem? hs)
  obtain ⟨_, hnodup, _⟩ := Continuation.declared_inputs hstart
  rw [Continuation.inputs, List.map_append] at hnodup
  obtain ⟨hparameters, _, hdisjoint⟩ := List.nodup_append.1 hnodup
  obtain ⟨values, hfold, hall⟩ := parameters_hold hsuit hx hparameters hholds (by
    intro p hp capture hcapture he
    exact hdisjoint _ (List.mem_map.2 ⟨p, hp, rfl⟩) _ (List.mem_map.2 ⟨capture, hcapture, rfl⟩) he.symm)
  refine ⟨⟨d.function, d.continuation, values⟩, ?_, rfl, f, successor, hfind, hs, hall⟩
  simp [Graph.arrive, Graph.find, Function.fetch, hfind, hs, demand, hfold]

omit hg in
theorem bindParameters_extend {parameters : List Definition} {xs : List V} (values : Table ValueId V)
    (hlength : parameters.length = xs.length) :
    (parameters.zip (xs.map some)).foldlM (bindParameter none) values =
      .ok (values.extend ((parameters.map (·.value)).zip xs)) := by
  induction parameters generalizing values xs with
  | nil => rfl
  | cons p parameters ih =>
    cases xs with
    | nil => cases hlength
    | cons x xs =>
      have hlength' : parameters.length = xs.length := by simpa using hlength
      exact ih (values.insert p.value x) hlength'

/-- **A function is entered with arguments of its signature.** -/
theorem Graph.Validated.enter {id : FunctionId} (hfind : graph.functions.find? (·.id == id) = some f)
    {signature : RuntimeSignature} (hs : tables.signatures[f.signature]? = some signature) {xs : List V}
    (hx : List.Forall₂ HasType xs signature.parameters) :
    ∃ a, Machine.new graph id xs = .ok (.ok ⟨.ready a, []⟩) ∧ a.function = id ∧ a.Sound HasType graph := by
  obtain ⟨_, _, signature', definitions, live, hf⟩ := hg.validated hfind
  cases hs.symm.trans hf.signed
  obtain ⟨first, hfirst, hcaptures, hparameters⟩ := hf.entry
  obtain ⟨start, _, _, hstart, _⟩ := hf.body (List.mem_of_getElem? hfirst)
  obtain ⟨_, hnodup, _⟩ := Continuation.declared_inputs hstart
  rw [Continuation.inputs, hcaptures, List.append_nil] at hnodup
  rw [← hparameters, List.forall₂_map_right_iff] at hx
  have hlength : first.parameters.length = xs.length := hx.length_eq.symm
  have hsuit : List.Forall₂ (Suits HasType none) first.parameters (xs.map some) := by
    rw [List.forall₂_map_right_iff]
    refine hx.flip.imp fun p x h => ⟨fun y hy => ?_, fun hy => ?_⟩
    · cases hy
      exact h
    · cases hy
  have hempty : Holds HasType [] [] := by
    intro d hd
    cases hd
  obtain ⟨values, hfold, hall⟩ := parameters_hold hsuit (x := none) (fun type h => by cases h) hnodup hempty (by
    intro p _ d hd
    cases hd)
  rw [bindParameters_extend _ hlength] at hfold
  cases hfold
  refine ⟨⟨id, f.entry, Table.extend [] ((first.parameters.map (·.value)).zip xs)⟩, ?_, rfl, f, first, hfind, hfirst,
    ?_⟩
  · simp [Machine.new, hfind, Function.fetch, hfirst, demand, hlength]
  · rw [Continuation.inputs, hcaptures]
    exact hall

/-! ### A turn -/

variable [Values V]

/-- The last request, after a poll. -/
def pendingAfter (pending : Option CallTarget) : Except String (Observation V) → Option CallTarget
  | .ok (.request target _) => some target
  | _ => pending

/-- The errors of a poll: it was polled out of turn, or a value refuses to be a condition. -/
def Legitimate (reply : Except String (Observation V)) : Prop :=
  ∀ message, reply = .error message → message = "pending request must settle before polling" ∨
    message = "interpreter was polled reentrantly" ∨ ∃ value : V, Values.condition value = .error message

def Turn.Sound (HasType : V → TypeId → Prop) (graph : Graph) (tables : Tables) (pending : Option CallTarget) :
    Turn V → Prop
  | .on m => m.Sound HasType graph tables pending
  | .leave reply m => m.Sound HasType graph tables (pendingAfter pending reply) ∧ Legitimate reply

omit hg in
theorem legitimate_ok (o : Observation V) : Legitimate (.ok o) := by
  intro message h
  cases h

section Transfer

variable {a : Activation V} {callers : List (Destination V)} {pending : Option CallTarget} {type : TypeId}
  {definitions : Definitions} {available : Available} {transition : Transition} {edge : Edge}

/-- **An edge within the function keeps the machine sound.** -/
theorem Graph.Validated.follow (hfind : graph.functions.find? (·.id == a.function) = some f) (hfits : f.Fits edge)
    (hvalid : f.validateEdge definitions available transition none edge = .ok ())
    (hcov : Covers HasType a.values available) (hreturns : graph.Returns tables a.function type)
    (hcallers : CallersSound HasType graph tables type callers) :
    ∃ turn, graph.follow a callers edge = .ok turn ∧ turn.Sound HasType graph tables pending := by
  obtain ⟨d, hd, hfunction, hsound⟩ := destination_sound hfind hfits hvalid hcov
  obtain ⟨a', ha', hfunction', hsound'⟩ := hg.arrive hsound (x := none) (fun type h => by cases h)
  refine ⟨.on ⟨.ready a', callers⟩, ?_, hsound', type, ?_, hcallers⟩
  · simp [Graph.follow, hd, ha']
  · rw [hfunction', hfunction]
    exact hreturns

omit hg in
theorem selectCase_sound {values : Table ValueId V} (hcov : Covers HasType values available) {selector : ValueId}
    (hselector : (available.lookup selector).isSome) (cases : List (WireConstant × Edge)) (fallback : Edge) :
    ∃ edge, selectCase values selector cases fallback = .ok edge ∧ edge ∈ cases.map (·.2) ++ [fallback] := by
  suffices hselect : ∃ edge, selectCase values selector cases fallback = .ok edge from
    hselect.imp fun _ h => ⟨h, selectCase_mem h⟩
  unfold selectCase
  split
  · exact ⟨fallback, rfl⟩
  · obtain ⟨type, htype⟩ := Option.isSome_iff_exists.1 hselector
    obtain ⟨x, hx, _⟩ := hcov selector type htype
    exact ⟨_, by rw [readValue, demand_eq_ok.2 hx, ok_bind]; rfl⟩

omit hg in
theorem types_of_collect {ids : List ValueId} {types : List TypeId} (h : collect available.type ids = .ok types) :
    List.Forall₂ (fun id type => available.lookup id = some type) ids types :=
  (collect_eq_ok.1 h).imp fun id type h => by simpa [Available.type] using h

omit hg [Values V] in
theorem typed_of_available {ids : List ValueId} {xs : List V} {types : List TypeId}
    (hx : List.Forall₂ (fun id x => ∃ type, available.lookup id = some type ∧ HasType x type) ids xs)
    (ht : List.Forall₂ (fun id type => available.lookup id = some type) ids types) : List.Forall₂ HasType xs types := by
  induction hx generalizing types with
  | nil =>
    cases ht
    exact .nil
  | cons h _ ih =>
    cases ht with
    | cons h' ht =>
      obtain ⟨type, htype, hty⟩ := h
      cases htype.symm.trans h'
      exact .cons hty (ih ht)

omit hg in
theorem responseType_of_validateTarget {signature : SignatureId} {contract : RuntimeSignature} {suspends : Bool}
    (hcontract : tables.signatures[signature]? = some contract) {target : CallTarget}
    (htarget : ∀ id, target ≠ .function id)
    (h : graph.validateTarget tables f signature suspends target = .ok ()) :
    responseType tables target = some contract.result := by
  cases target with
  | function id => exact absurd rfl (htarget id)
  | host capability operation | link unit name =>
    simp only [Graph.validateTarget, bind_eq_ok, demand_eq_ok, require_eq_ok, Bool.and_eq_true, beq_iff_eq] at h
    obtain ⟨found, hfound, rfl, _⟩ := h
    simp [responseType, hfound, hcontract]

/-- **The transition of a validated continuation keeps the machine sound.** -/
theorem Graph.Validated.transfer {signature : RuntimeSignature} {live : Live}
    (hfind : graph.functions.find? (·.id == a.function) = some f)
    (hf : f.Validated graph tables signature definitions live) {c : Continuation} (hc : c ∈ f.continuations)
    {result : Option TypeId} (huses : ∀ value ∈ c.transition.uses, (available.lookup value).isSome)
    (htransition : graph.validateTransition tables f signature available c.transition = .ok result)
    (hedges : ∀ edge ∈ c.transition.edges, f.validateEdge definitions available c.transition result edge = .ok ())
    (hcov : Covers HasType a.values available) (hcallers : CallersSound HasType graph tables signature.result callers) :
    ∃ turn, graph.transfer a callers c.transition = .ok turn ∧ turn.Sound HasType graph tables pending := by
  have hreturns : graph.Returns tables a.function signature.result := ⟨f, signature, hfind, hf.signed, rfl⟩
  have hfits := hf.fits c hc
  cases ht : c.transition with
  | jump edge =>
    simp only [ht, Transition.edges, Graph.validateTransition, pure_eq_ok, List.mem_singleton, forall_eq] at *
    cases htransition
    exact hg.follow hfind hfits hedges hcov hreturns hcallers
  | branch condition consequent alternate =>
    simp only [ht, Transition.edges, Transition.uses, Graph.validateTransition, bind_eq_ok, pure_eq_ok,
      forall_eq, List.mem_cons, List.not_mem_nil, or_false, forall_eq_or_imp] at *
    obtain ⟨_, _, _, _, _, _, rfl⟩ := htransition
    obtain ⟨type, htype⟩ := Option.isSome_iff_exists.1 huses
    obtain ⟨x, hx, _⟩ := hcov condition type htype
    simp only [Graph.transfer, readValue, hx, demand, ok_bind]
    cases hcond : Values.condition x with
    | error message =>
      exact ⟨_, rfl, ⟨_, hcallers⟩, fun m h => Or.inr (Or.inr ⟨x, by cases h; exact hcond⟩)⟩
    | ok b =>
      cases b with
      | true => exact hg.follow hfind hfits.1 hedges.1 hcov hreturns hcallers
      | false => exact hg.follow hfind hfits.2 hedges.2 hcov hreturns hcallers
  | switch selector cases fallback =>
    simp only [ht, Transition.edges, Transition.uses, Graph.validateTransition, bind_eq_ok, pure_eq_ok,
      List.mem_singleton, forall_eq] at huses htransition hedges hfits
    obtain ⟨_, _, _, _, _, _, _, _, rfl⟩ := htransition
    obtain ⟨edge, hedge, hmem⟩ := selectCase_sound hcov huses cases fallback
    simp only [Graph.transfer, hedge, ok_bind]
    exact hg.follow hfind (hfits edge hmem) (hedges edge hmem) hcov hreturns hcallers
  | call target sig arguments next suspends =>
    simp only [ht, Transition.edges, Transition.uses, Graph.validateTransition, bind_eq_ok, pure_eq_ok, require_eq_ok,
      demand_eq_ok, beq_iff_eq, List.mem_singleton, forall_eq] at huses htransition hedges hfits
    obtain ⟨_, _, _, _, contract, hcontract, types, htypes, _, rfl, _, htarget, rfl⟩ := htransition
    obtain ⟨xs, hxs, htyped⟩ := hcov.collect huses
    obtain ⟨d, hd, hfunction, hsound⟩ := destination_sound hfind hfits hedges hcov
    have hargs : List.Forall₂ HasType xs contract.parameters := typed_of_available htyped (types_of_collect htypes)
    simp only [Graph.transfer, hxs, hd, ok_bind]
    have hstack : CallersSound HasType graph tables contract.result (d :: callers) :=
      ⟨hsound, signature.result, hfunction ▸ hreturns, hcallers⟩
    cases target with
    | function id =>
      simp only [Graph.validateTarget, bind_eq_ok, demand_eq_ok, require_eq_ok, Bool.and_eq_true, beq_iff_eq] at htarget
      obtain ⟨callee, hcallee, _, _, rfl, _⟩ := htarget
      obtain ⟨a', ha', hid, hsound'⟩ := hg.enter hcallee hcontract hargs
      simp only [ha', ok_bind]
      exact ⟨_, rfl, hsound', contract.result, ⟨callee, contract, hid ▸ hcallee, hcontract, rfl⟩, hstack⟩
    | host capability operation | link unit name =>
      refine ⟨_, rfl, ⟨_, _, rfl, responseType_of_validateTarget hcontract (fun id h => by cases h) htarget, hsound,
        signature.result, hfunction ▸ hreturns, hcallers⟩, legitimate_ok _⟩
  | «return» value =>
    simp only [ht, Transition.uses, Graph.validateTransition, bind_eq_ok, pure_eq_ok, require_eq_ok, Available.type,
      demand_eq_ok, beq_iff_eq, List.mem_singleton, forall_eq] at huses htransition
    obtain ⟨type, htype, _, rfl, _⟩ := htransition
    obtain ⟨x, hx, hty⟩ := hcov value _ htype
    simp only [Graph.transfer, readValue, hx, demand, ok_bind]
    cases callers with
    | nil => exact ⟨_, rfl, rfl⟩
    | cons d callers =>
      obtain ⟨hd, result', hreturns', hcallers'⟩ := hcallers
      obtain ⟨a', ha', hfunction, hsound⟩ := hg.arrive hd (x := some x) (fun type h => by cases h; exact ⟨x, rfl, hty⟩)
      simp only [ha', ok_bind]
      exact ⟨_, rfl, hsound, result', hfunction ▸ hreturns', hcallers'⟩
  | trap message => exact ⟨_, rfl, rfl, legitimate_ok _⟩

end Transfer

omit hg in
theorem turn_of_run {a : Activation V} {callers : List (Destination V)} {c : Continuation}
    (hfind : graph.functions.find? (·.id == a.function) = some f) (hget : f.continuations[a.continuation]? = some c)
    {execute : Execute V σ} {s s' : σ} {r : Except String (Table ValueId V)}
    (hrun : runInstructions execute c.instructions a.values s = .ok (r, s')) :
    Machine.turn graph execute ⟨.ready a, callers⟩ s =
      match r with
      | .ok values => do
        let turn ← graph.transfer { a with values } callers c.transition
        pure (turn, s')
      | .error message => pure (.leave (.ok (.trapped message)) ⟨.trapped message, []⟩, s') := by
  simp only [Machine.turn, Graph.find, hfind, Function.fetch, hget, demand, ok_bind, hrun]
  cases r <;> rfl

omit [Values V] in
/-- **The instructions of a sound activation run**, and what validation found available is there after them. -/
theorem Graph.Validated.body_sound {a : Activation V} {c : Continuation}
    (hfind : graph.functions.find? (·.id == a.function) = some f) (hget : f.continuations[a.continuation]? = some c)
    (hholds : Holds HasType a.values c.inputs) {execute : Execute V σ} (hpres : execute.Preserves HasType graph)
    (s : σ) :
    ∃ signature definitions live available result, f.Validated graph tables signature definitions live ∧
      (∀ value ∈ c.transition.uses, (available.lookup value).isSome) ∧
      graph.validateTransition tables f signature available c.transition = .ok result ∧
      (∀ edge ∈ c.transition.edges, f.validateEdge definitions available c.transition result edge = .ok ()) ∧
      ∃ r s', runInstructions execute c.instructions a.values s = .ok (r, s') ∧
        ∀ values, r = .ok values → Covers HasType values available := by
  obtain ⟨hmem, _, signature, definitions, live, hf⟩ := hg.validated hfind
  have hc : c ∈ f.continuations := List.mem_of_getElem? hget
  obtain ⟨start, available, result, hstart, hperform, huses, htransition, hedges⟩ := hf.body hc
  obtain ⟨_, _, hlookup⟩ := Continuation.declared_inputs hstart
  have hcov : Covers HasType a.values start := by
    intro value type hv
    rcases hlookup value type hv with h | ⟨⟨d, hd, rfl, rfl⟩, _⟩
    · cases h
    · exact hholds d hd
  have hdecl : ∀ value type, start.lookup value = some type → f.Declares value type := by
    intro value type hv
    rcases hlookup value type hv with h | ⟨_, o, ho, rfl⟩
    · cases h
    · exact hf.declares ho
  exact ⟨signature, definitions, live, available, result, hf, huses, htransition, hedges,
    run_sound hmem hc hpres (fun i h => h) hperform hdecl hcov s⟩

/-- **A turn does not panic and keeps the machine sound.** -/
theorem Graph.Validated.turn_sound {m : Machine V} {pending : Option CallTarget}
    (hm : m.Sound HasType graph tables pending) {execute : Execute V σ} (hpres : execute.Preserves HasType graph)
    (s : σ) : ∃ turn s', m.turn graph execute s = .ok (turn, s') ∧ turn.Sound HasType graph tables pending := by
  obtain ⟨state, callers⟩ := m
  cases state with
  | waiting d =>
    exact ⟨_, s, rfl, hm, fun message h => Or.inl (by cases h; rfl)⟩
  | returned value | trapped message => exact ⟨_, s, rfl, hm, legitimate_ok _⟩
  | running => exact ⟨_, s, rfl, hm, fun message h => Or.inr (Or.inl (by cases h; rfl))⟩
  | ready a =>
    obtain ⟨⟨f, c, hfind, hget, hholds⟩, result, ⟨f', signature, hfind', hsigned, rfl⟩, hcallers⟩ := hm
    cases hfind.symm.trans hfind'
    obtain ⟨signature', definitions, live, available, expected, hf, huses, htransition, hedges, r, s', hrun, hafter⟩ :=
      hg.body_sound hfind hget hholds hpres s
    cases hsigned.symm.trans hf.signed
    cases r with
    | error message => exact ⟨_, s', turn_of_run hfind hget hrun, rfl, legitimate_ok _⟩
    | ok values =>
      obtain ⟨turn, hstep, hsound⟩ := hg.transfer (a := { a with values }) hfind hf
        (List.mem_of_getElem? hget) huses htransition hedges (hafter values rfl) hcallers
      refine ⟨turn, s', ?_, hsound⟩
      rw [turn_of_run hfind hget hrun]
      simp [hstep]

/-- **A poll of any quantum does not panic and keeps the machine sound.** -/
theorem Graph.Validated.poll_sound {m : Machine V} {pending : Option CallTarget}
    (hm : m.Sound HasType graph tables pending) {execute : Execute V σ} (hpres : execute.Preserves HasType graph)
    (quantum : ℕ) (s : σ) :
    ∃ reply m' s', m.poll graph execute quantum s = .ok (reply, m', s') ∧
      m'.Sound HasType graph tables (pendingAfter pending reply) ∧ Legitimate reply := by
  induction quantum generalizing m s with
  | zero => exact ⟨_, m, s, rfl, hm, legitimate_ok _⟩
  | succ quantum ih =>
    obtain ⟨turn, s', hturn, hsound⟩ := hg.turn_sound hm hpres s
    rw [Machine.poll, hturn, ok_bind]
    cases turn with
    | on m' => exact ih hsound s'
    | leave reply m' => exact ⟨reply, m', s', rfl, hsound⟩

omit [Values V] in
/-- **A response of the declared representation keeps the machine sound.** -/
theorem Graph.Validated.resume_sound {m : Machine V} {pending : Option CallTarget}
    (hm : m.Sound HasType graph tables pending) {value : V}
    (hvalue : ∀ target type, pending = some target → responseType tables target = some type → HasType value type) :
    ∃ reply m', m.resume graph value = .ok (reply, m') ∧ m'.Sound HasType graph tables pending := by
  obtain ⟨state, callers⟩ := m
  cases state with
  | waiting d =>
    obtain ⟨target, type, hpending, htype, hd, result, hreturns, hcallers⟩ := hm
    obtain ⟨a, ha, hfunction, hsound⟩ := hg.arrive hd (x := some value) (by
      intro t h
      cases h
      exact ⟨value, rfl, hvalue target type hpending htype⟩)
    refine ⟨.ok (), ⟨.ready a, callers⟩, ?_, hsound, result, hfunction ▸ hreturns, hcallers⟩
    simp [Machine.resume, ha]
  | ready a => exact ⟨_, _, rfl, hm⟩
  | returned value => exact ⟨_, _, rfl, hm⟩
  | trapped message => exact ⟨_, _, rfl, hm⟩
  | running => exact ⟨_, _, rfl, hm⟩

end Machine

/-! ### Runs -/

/-- The states that polls, resumes and cancels reach, with the last request.  Each poll has an executor of its own;
executors, arguments and responses keep to the representations that `HasType` gives to values. -/
inductive Reaches [Values V] (HasType : V → TypeId → Prop) (graph : Graph) (tables : Tables) :
    Machine V → Option CallTarget → Prop
  | start {function : FunctionId} {arguments : List V} {m : Machine V} :
      Machine.new graph function arguments = .ok (.ok m) →
      (∀ f signature, graph.functions.find? (·.id == function) = some f →
        tables.signatures[f.signature]? = some signature →
        ∀ p ∈ arguments.zip signature.parameters, HasType p.1 p.2) →
      Reaches HasType graph tables m none
  | poll {m m' : Machine V} {pending : Option CallTarget} {σ : Type} {execute : Execute V σ} {quantum : ℕ} {s s' : σ}
      {reply : Except String (Observation V)} :
      Reaches HasType graph tables m pending → execute.Preserves HasType graph →
      m.poll graph execute quantum s = .ok (reply, m', s') →
      Reaches HasType graph tables m' (pendingAfter pending reply)
  | resume {m m' : Machine V} {pending : Option CallTarget} {value : V} {reply : Except String Unit} :
      Reaches HasType graph tables m pending →
      (∀ target type, pending = some target → responseType tables target = some type → HasType value type) →
      m.resume graph value = .ok (reply, m') → Reaches HasType graph tables m' pending
  | cancel {m : Machine V} {pending : Option CallTarget} :
      Reaches HasType graph tables m pending → Reaches HasType graph tables Machine.cancel pending

variable [Values V]

/-- What a machine binds has the declared representation: an activation has a value for each parameter and capture,
a destination an argument for each parameter, up to the result, and a value for each capture. -/
def Machine.Declared (HasType : V → TypeId → Prop) (graph : Graph) (m : Machine V) : Prop :=
  (∀ a, m.state = .ready a → a.Sound HasType graph) ∧
    ∀ d, m.state = .waiting d ∨ d ∈ m.callers → ∃ type, d.Sound HasType graph (some type)

omit [Values V] in
theorem CallersSound.declared {type : TypeId} {callers : List (Destination V)}
    (h : CallersSound HasType graph tables type callers) {d : Destination V} (hd : d ∈ callers) :
    ∃ type, d.Sound HasType graph (some type) := by
  induction callers generalizing type with
  | nil => cases hd
  | cons d' callers ih =>
    obtain ⟨hd', result, _, hcallers⟩ := h
    rcases List.mem_cons.1 hd with rfl | hd
    · exact ⟨type, hd'⟩
    · exact ih hcallers hd

omit [Values V] in
theorem Machine.Sound.declared {m : Machine V} {pending : Option CallTarget}
    (h : m.Sound HasType graph tables pending) : m.Declared HasType graph := by
  obtain ⟨state, callers⟩ := m
  cases state with
  | ready a =>
    obtain ⟨ha, result, _, hcallers⟩ := h
    refine ⟨fun a' he => (by cases he; exact ha), fun d hd => ?_⟩
    rcases hd with hd | hd
    · cases hd
    · exact hcallers.declared hd
  | waiting d =>
    obtain ⟨_, type, _, _, hd, result, _, hcallers⟩ := h
    refine ⟨fun a' he => (by cases he), fun d' hd' => ?_⟩
    rcases hd' with hd' | hd'
    · cases hd'
      exact ⟨type, hd⟩
    · exact hcallers.declared hd'
  | running =>
    obtain ⟨type, hcallers⟩ := h
    refine ⟨fun a' he => (by cases he), fun d hd => ?_⟩
    rcases hd with hd | hd
    · cases hd
    · exact hcallers.declared hd
  | returned value | trapped message =>
    cases h
    exact ⟨fun a' he => (by cases he), fun d hd => (by rcases hd with hd | hd <;> cases hd)⟩

section Runs

variable (hg : graph.Validated tables)

include hg

omit [Values V] in
/-- **No call panics.** -/
theorem Graph.Validated.new_ok (id : FunctionId) (arguments : List V) :
    ∃ r, Machine.new graph id arguments = .ok r := by
  unfold Machine.new
  cases hfind : graph.functions.find? (·.id == id) with
  | none => exact ⟨_, rfl⟩
  | some f =>
    obtain ⟨_, _, signature, definitions, live, hf⟩ := hg.validated hfind
    obtain ⟨first, hfirst, _⟩ := hf.entry
    simp only [Function.fetch, hfirst, demand, ok_bind]
    split
    · exact ⟨_, rfl⟩
    · exact ⟨_, rfl⟩

omit [Values V] in
theorem Graph.Validated.arity {id : FunctionId} {arguments : List V} {m : Machine V}
    (h : Machine.new graph id arguments = .ok (.ok m)) :
    ∃ f signature, graph.functions.find? (·.id == id) = some f ∧ tables.signatures[f.signature]? = some signature ∧
      arguments.length = signature.parameters.length := by
  rw [Machine.new] at h
  cases hfind : graph.functions.find? (·.id == id) with
  | none =>
    rw [hfind] at h
    cases h
  | some f =>
    obtain ⟨_, _, signature, definitions, live, hf⟩ := hg.validated hfind
    obtain ⟨first, hfirst, _, hparameters⟩ := hf.entry
    simp only [hfind, Function.fetch, hfirst, demand, ok_bind] at h
    split at h
    · next hlength => exact ⟨f, signature, rfl, hf.signed, by rw [← hlength, ← hparameters, List.length_map]⟩
    · cases h

/-- **Every state that is reached is sound.** -/
theorem Graph.Validated.sound_of_reaches {m : Machine V} {pending : Option CallTarget}
    (h : Reaches HasType graph tables m pending) : m.Sound HasType graph tables pending := by
  induction h with
  | @start function arguments m hnew htyped =>
    obtain ⟨f, signature, hfind, hsigned, hlength⟩ := hg.arity hnew
    have hargs : List.Forall₂ HasType arguments signature.parameters :=
      List.forall₂_iff_zip.2 ⟨hlength, fun {x type} h => htyped f signature hfind hsigned (x, type) h⟩
    obtain ⟨a, ha, hid, hsound⟩ := hg.enter hfind hsigned hargs
    cases hnew.symm.trans ha
    exact ⟨hsound, signature.result, ⟨f, signature, hid ▸ hfind, hsigned, rfl⟩, trivial⟩
  | @poll m m' pending σ execute quantum s s' reply _ hpres hpoll ih =>
    obtain ⟨reply', m'', s'', hpoll', hsound, _⟩ := hg.poll_sound ih hpres quantum s
    cases hpoll.symm.trans hpoll'
    exact hsound
  | @resume m m' pending value reply _ hvalue hresume ih =>
    obtain ⟨reply', m'', hresume', hsound⟩ := hg.resume_sound ih hvalue
    cases hresume.symm.trans hresume'
    exact hsound
  | cancel _ _ => exact rfl

end Runs

/-- Every value has every representation: no condition on executors, arguments and responses. -/
def anyType (_ : V) (_ : TypeId) : Prop := True

/-- **A validated graph never gets stuck.**  An entry takes every list of as many arguments as its signature has
parameters; in every state that polls of any quanta, resumes and cancels reach, with any executors, arguments and
responses, no poll and no resume panics and no call is refused; and where executors, arguments and responses keep to
the declared representations, so does everything the machine binds. -/
theorem validated_never_stuck {rounds : ℕ} (h : graph.validate tables rounds = .ok ()) :
    (∀ f ∈ graph.functions, ∀ signature, tables.signatures[f.signature]? = some signature → ∀ arguments : List V,
      arguments.length = signature.parameters.length → ∃ m, Machine.new graph f.id arguments = .ok (.ok m)) ∧
    (∀ (m : Machine V) (pending : Option CallTarget), Reaches anyType graph tables m pending →
      (∀ (σ : Type) (execute : Execute V σ) (quantum : ℕ) (s : σ), ∃ reply m' s',
        m.poll graph execute quantum s = .ok (reply, m', s') ∧ Legitimate reply) ∧
      (∀ value, ∃ reply m', m.resume graph value = .ok (reply, m')) ∧ m.Declared anyType graph) ∧
    ∀ (HasType : V → TypeId → Prop) (m : Machine V) (pending : Option CallTarget),
      Reaches HasType graph tables m pending → m.Declared HasType graph := by
  have hg := Graph.validated_of_validate h
  refine ⟨?_, ?_, fun HasType m pending hm => (hg.sound_of_reaches hm).declared⟩
  · intro f hf signature hsigned arguments hlength
    obtain ⟨n, hn⟩ := List.getElem?_of_mem hf
    have hfind : graph.functions.find? (·.id == f.id) = some f := by rw [hg.find_eq, (hg n f hn).1, hn]
    have hargs : List.Forall₂ (anyType (V := V)) arguments signature.parameters :=
      List.forall₂_iff_zip.2 ⟨hlength, fun _ => trivial⟩
    obtain ⟨a, ha, _⟩ := hg.enter hfind hsigned hargs
    exact ⟨_, ha⟩
  · intro m pending hm
    have hsound := hg.sound_of_reaches hm
    refine ⟨fun σ execute quantum s => ?_, fun value => ?_, hsound.declared⟩
    · have hpres : execute.Preserves anyType graph := fun _ _ _ _ _ _ _ _ _ _ _ _ => trivial
      obtain ⟨reply, m', s', hpoll, _, hreply⟩ := hg.poll_sound hsound hpres quantum s
      exact ⟨reply, m', s', hpoll, hreply⟩
    · have hvalue : ∀ target type, pending = some target → responseType tables target = some type →
          anyType value type := fun _ _ _ _ => trivial
      obtain ⟨reply, m', hresume, _⟩ := hg.resume_sound hsound hvalue
      exact ⟨reply, m', hresume⟩

/-- A text, of the file it is defined in. -/
def textValue (value : ValueId) : Definition := ⟨value, 0, "plain", ⟨"echo.blot", 0, 1⟩⟩

def echo : Function where
  id := 0
  name := "echo"
  signature := 0
  entry := 0
  suspends := true
  framed := true
  reuse := none
  span := ⟨"echo.blot", 0, 1⟩
  continuations := [
    { id := 0, parameters := [textValue 0], captures := [], instructions := [], span := ⟨"echo.blot", 0, 1⟩,
      transition := .call (.host "Console" "print") 0 [0] ⟨1, [.result]⟩ true },
    { id := 1, parameters := [textValue 1], captures := [textValue 0], instructions := [],
      span := ⟨"echo.blot", 0, 1⟩, transition := .return 0 }]

/-- The tables of `echo`. -/
def echoTables : Tables where
  types := [.text]
  signatures := [⟨[0], 0, ["Console"]⟩]
  staticStores := []
  capabilities := [⟨"Console", [⟨"print", 0, true⟩]⟩]
  links := []

/-- `echo` where its request is open, and where it has been answered. -/
def echoAsked : Machine WireConstant := ⟨.waiting ⟨0, 1, [none], [(0, .text "hello")]⟩, []⟩

def echoAnswered : Machine WireConstant := ⟨.ready ⟨0, 1, [(0, .text "hello"), (1, .text "again")]⟩, []⟩
/-- `echo` comes to its request and, answered, to its second continuation. -/
theorem echo_reaches {HasType : WireConstant → TypeId → Prop} (htext : ∀ text type, HasType (.text text) type) :
    Reaches HasType ⟨[echo]⟩ echoTables echoAsked (some (.host "Console" "print")) ∧
      Reaches HasType ⟨[echo]⟩ echoTables echoAnswered (some (.host "Console" "print")) := by
  have hstart := @Reaches.start _ _ HasType ⟨[echo]⟩ echoTables 0 [WireConstant.text "hello"] _ rfl
    fun _ _ _ _ p hp => List.mem_singleton.1 (List.of_mem_zip hp).1 ▸ htext "hello" p.2
  have hexecutes : Execute.Preserves HasType ⟨[echo]⟩ fun _ _ (s : Unit) => (.ok (.text ""), s) := by
    rintro f hf c hc i hi _ s x s' _ hx
    cases hx
    exact htext _ _
  have hasked := @Reaches.poll _ _ _ _ _ _ _ _ Unit _ 1 () () _ hstart hexecutes rfl
  exact ⟨hasked, @Reaches.resume _ _ _ _ _ _ _ _ (.text "again") _ hasked (fun _ _ _ _ => htext _ _) rfl⟩

theorem validated_never_stuck_echo :
    (∃ m, Machine.new ⟨[echo]⟩ echo.id [WireConstant.text "hello"] = .ok (.ok m)) ∧
      (∀ value, ∃ reply m', echoAsked.resume ⟨[echo]⟩ value = .ok (reply, m')) ∧
      (∃ reply m', echoAnswered.poll ⟨[echo]⟩ (fun _ _ s => (.ok .unit, s)) 1 () = .ok (reply, m', ()) ∧
        Legitimate reply) ∧
      echoAnswered.Declared (fun value _ => ∃ text, value = .text text) ⟨[echo]⟩ := by
  have h : Graph.validate ⟨[echo]⟩ echoTables 3 = .ok () := by decide
  obtain ⟨hnew, hsafe, hdeclared⟩ := validated_never_stuck (V := WireConstant) h
  have hany := @echo_reaches anyType fun _ _ => trivial
  obtain ⟨reply, m', _, hpoll, hreply⟩ := (hsafe _ _ hany.2).1 Unit (fun _ _ s => (.ok .unit, s)) 1 ()
  exact ⟨hnew echo (by simp) ⟨[0], 0, ["Console"]⟩ rfl [.text "hello"] rfl, (hsafe _ _ hany.1).2.1,
    ⟨reply, m', hpoll, hreply⟩, hdeclared _ _ _ (echo_reaches fun text _ => ⟨text, rfl⟩).2⟩

end Blot.Suspension
