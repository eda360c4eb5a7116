import Blot.Suspension.Lowered
import Blot.Suspension.Safety

/-!
# Lowering preserves behaviour

The machine on the lowered graph, and the direct execution of the blocks, show the host the same.  What the machine
holds of an activation is a part of the one store of the direct activation (`Within`): the captures of a continuation
are what is left of it.  A turn of the machine is a run of the operations up to the next call or to the end of the
block.

* `Ready`, `Awaits` — an activation, and a destination of the machine, against the direct ones;
* `transfer_meets` — a transition of the machine and the end of a block;
* `lower_preserves` — the observations are the same.
-/

namespace Blot.Suspension

open Blot.Hir Blot.Support Blot.Support.Lockstep

variable {V σ : Type} {module : StagedModule} {graph : Graph}

/-! ### Places -/

inductive At (module : StagedModule) (graph : Graph) (id : FunctionId) :
    Direct.Position → List Instruction → Transition → Prop
  | staged {function : StagedFunction} {entries : Entries} {g : Function} {operations : List StagedOperation}
      {terminator : StagedTerminator} {instructions : List Instruction} {transition : Transition} :
      graph.functions.find? (·.id == id) = some g → Lowered module function entries g →
      Carries module function entries g.continuations operations terminator instructions transition →
      At module graph id (.staged function operations terminator) instructions transition
  | checked {f g : Function} {instructions : List Instruction} {transition transition' : Transition} :
      graph.functions.find? (·.id == id) = some g → Copied f g → transition'.unmarked = transition.unmarked →
      At module graph id (.checked f instructions transition) instructions transition'

/-- An activation of the machine at the start of a continuation, against a direct one. -/
structure Ready (module : StagedModule) (graph : Graph) (a : Activation V) (values : Table ValueId V)
    (position : Direct.Position) : Prop where
  within : Within a.values values
  place : ∃ g c, graph.functions.find? (·.id == a.function) = some g ∧ g.continuations[a.continuation]? = some c ∧
    At module graph a.function position c.instructions c.transition

/-- A destination of the machine, against a direct activation that waits for a result. -/
inductive Awaits (module : StagedModule) (graph : Graph) (d : Destination V) : Table ValueId V × Direct.Await → Prop
  | bind {values : Table ValueId V} {value : ValueId} {position : Direct.Position} {g : Function} {c : Continuation} :
      graph.functions.find? (·.id == d.function) = some g → g.continuations[d.continuation]? = some c →
      d.arguments = [none] → c.parameters.map (·.value) = [value] → Within d.captures values →
      At module graph d.function position c.instructions c.transition →
      Awaits module graph d (values, .bind value position)
  | edge {values : Table ValueId V} {f g : Function} {edge : Edge} :
      graph.functions.find? (·.id == d.function) = some g → Copied f g → edge.target = d.continuation →
      collect (readArgument values) edge.arguments = .ok d.arguments → Within d.captures values →
      Awaits module graph d (values, .edge f edge)

/-! ### Edges -/

/-- An edge of a checked function is followed with its one store. -/
theorem follow_copied {f g : Function} (hcopy : Copied f g) {d : Destination V}
    (hfind : graph.functions.find? (·.id == d.function) = some g) {edge : Edge} (htarget : edge.target = d.continuation)
    {store : Table ValueId V} (harguments : collect (readArgument store) edge.arguments = .ok d.arguments)
    (hwithin : Within d.captures store) {result : Option V} {a : Activation V} (h : graph.arrive d result = .ok a) :
    ∃ values position, Direct.follow f store edge result = .ok (.running values position) ∧
      Ready module graph a values position := by
  obtain ⟨hfunction, hcontinuation, successor, hs, hbind⟩ := arrive_eq_ok hfind h
  obtain ⟨values, hvalues, hwithin'⟩ := hwithin.bindParameters hbind
  -- the continuation of the checked function, of which this one is a copy
  have hi : d.continuation < f.continuations.length := by
    rw [hcopy.continuations.length_eq]
    exact (List.getElem?_eq_some_iff.1 hs).1
  obtain ⟨successor', hs', hsame⟩ := SameAt.of_forall₂ hcopy.continuations _ _ (List.getElem?_eq_getElem hi)
  cases hs.symm.trans hs'
  refine ⟨values, .checked f f.continuations[d.continuation].instructions f.continuations[d.continuation].transition,
    ?_,
    hwithin', g, successor, hfunction ▸ hfind, hcontinuation ▸ hs, ?_⟩
  · simp only [Direct.follow, Function.fetch, htarget, List.getElem?_eq_getElem hi, demand, ok_bind, harguments]
    rw [← hsame.parameters, hvalues]
    rfl
  · rw [hsame.instructions]
    exact .checked (hfunction ▸ hfind) hcopy hsame.transition

theorem collect_values {values : Table ValueId V} {ids : List ValueId} {arguments : List (Option V)}
    (h : collect (readArgument values) (ids.map .value) = .ok arguments) :
    ∃ xs, arguments = xs.map some ∧ collect (readValue values) ids = .ok xs := by
  induction ids generalizing arguments with
  | nil =>
    cases h
    exact ⟨[], rfl, rfl⟩
  | cons id ids ih =>
    simp only [List.map_cons, collect, readArgument, bind_eq_ok, pure_eq_ok] at h
    obtain ⟨_, ⟨x, hx, rfl⟩, arguments', hrest, rfl⟩ := h
    obtain ⟨xs, rfl, hxs⟩ := ih hrest
    exact ⟨x :: xs, rfl, by simp [collect, hx, hxs]⟩

section Moves

variable {function : StagedFunction} {entries : Entries} {g : Function}

/-- **An edge of a staged function is the entry of a block.** -/
theorem enter_lowered (hlowered : Lowered module function entries g) {a a' : Activation V} {d : Destination V}
    (hfind : graph.functions.find? (·.id == a.function) = some g) {target : ℕ} {arguments : List ℕ} {edge : Edge}
    (hedge : lowerEdge function entries target arguments = .ok edge) (hfits : g.Fits edge)
    (hdestination : graph.destination a edge = .ok d) (harrive : graph.arrive d none = .ok a')
    {store : Table ValueId V} (hwithin : Within a.values store) :
    ∃ values position, Direct.enter function store target arguments = .ok (.running values position) ∧
      Ready module graph a' values position := by
  simp only [lowerEdge, bind_eq_ok, demand_eq_ok, pure_eq_ok] at hedge
  obtain ⟨cid, hcid, rfl⟩ := hedge
  obtain ⟨hfunction, hcontinuation, harguments, successor, captures, hs, hcaptures, hd⟩ :=
    destination_eq_ok hfind hdestination
  obtain ⟨block, c, hblock, hc, hparameters, hcarries⟩ := hlowered.block target cid hcid
  cases hs.symm.trans hc
  obtain ⟨xs, hxs, hread⟩ := collect_values harguments
  obtain ⟨hfunction', hcontinuation', _, hs', hbind⟩ := arrive_eq_ok (hfunction ▸ hfind) harrive
  rw [hcontinuation] at hs' hcontinuation'
  cases hs.symm.trans hs'
  have hlength : block.parameters.length = xs.length := by
    obtain ⟨_, hs', hlength⟩ := hfits
    cases hs.symm.trans hs'
    rw [hparameters, List.length_map, List.length_map] at hlength
    exact hlength.trans (collect_length hread).symm
  rw [hxs, hd] at hbind
  obtain ⟨values, hvalues, hwithin'⟩ := (hwithin.captures hcaptures).bindParameters hbind
  rw [bindParameters_extend _ (by rw [hparameters, List.length_map, hlength])] at hvalues
  cases hvalues
  have hnames : successor.parameters.map (·.value) = block.parameters.map (·.value) := by
    rw [hparameters, List.map_map]
    rfl
  refine ⟨_, .staged function block.operations block.terminator, ?_, hwithin', g, successor, ?_, ?_, ?_⟩
  · simp only [Direct.enter, hblock, demand, ok_bind, hwithin.collect hread, if_pos hlength, hnames]
    rfl
  · rw [hfunction', hfunction, hfind]
  · rw [hcontinuation', hc]
  · exact .staged (by rw [hfunction', hfunction, hfind]) hlowered hcarries

theorem Awaits.take {d : Destination V} {values : Table ValueId V} {await : Direct.Await}
    (h : Awaits module graph d (values, await)) {x : V} {a : Activation V} (harrive : graph.arrive d (some x) = .ok a) :
    ∃ values' position, await.take values x = .ok (.running values' position) ∧
      Ready module graph a values' position := by
  cases h with
  | @bind _ value position g c hfind hc hargument hparameter hwithin hat =>
    obtain ⟨hfunction, hcontinuation, successor, hs, hbind⟩ := arrive_eq_ok hfind harrive
    cases hs.symm.trans hc
    obtain ⟨p, hp, hpv⟩ : ∃ p, c.parameters = [p] ∧ p.value = value := by
      obtain ⟨p, l, hp, hpv, hl⟩ := List.map_eq_cons_iff.1 hparameter
      rw [List.map_eq_nil_iff] at hl
      exact ⟨p, by rw [hp, hl], hpv⟩
    rw [hp, hargument] at hbind
    simp only [List.zip_cons_cons, List.zip_nil_left, foldlM_cons_eq_ok, foldlM_nil_eq_ok, bindParameter, bind_eq_ok,
      demand_eq_ok, pure_eq_ok, Option.none_or, Option.some.injEq] at hbind
    obtain ⟨_, ⟨y, rfl, rfl⟩, hvalues⟩ := hbind
    refine ⟨values.insert value x, position, rfl, ?_, g, c, hfunction ▸ hfind, hcontinuation ▸ hc, hfunction ▸ hat⟩
    rw [← hvalues, hpv]
    exact hwithin.insert value x
  | @edge _ f g edge hfind hcopy htarget harguments hwithin =>
    exact follow_copied hcopy hfind htarget harguments hwithin harrive

/-- **A call enters the same function.** -/
theorem call_origin (horigin : ∀ id, Origin module id (graph.functions.find? (·.id == id))) {id : FunctionId}
    {xs : List V} {r : Except String (Machine V)} (h : Machine.new graph id xs = .ok r) :
    (∃ message, r = .error message ∧ Direct.call module id xs = .ok (.error message)) ∨
      ∃ a values position, r = .ok ⟨.ready a, []⟩ ∧ Direct.call module id xs = .ok (.ok (.running values position)) ∧
        Ready module graph a values position := by
  have ho := horigin id
  unfold Machine.new at h
  cases hfound : graph.functions.find? (·.id == id) with
  | none =>
    rw [hfound] at h ho
    cases h
    cases ho with
    | absent hstaged hchecked => exact Or.inl ⟨_, rfl, by simp [Direct.call, hstaged, hchecked]⟩
  | some g =>
    rw [hfound] at h ho
    cases ho with
    | @staged function entries _ hstaged hlowered =>
      obtain ⟨block, c, hblock, hc, hparameters, hcarries⟩ := hlowered.block _ _ hlowered.entry
      have hnames : c.parameters.map (·.value) = block.parameters.map (·.value) := by
        rw [hparameters, List.map_map]
        rfl
      simp only [Function.fetch, hc, demand, ok_bind] at h
      split at h
      · next hlength =>
        cases h
        have hlength' : block.parameters.length = xs.length := by rw [← hlength, hparameters, List.length_map]
        refine Or.inr ⟨_, _, .staged function block.operations block.terminator, rfl, ?_, .refl _, g, c, hfound, hc,
          .staged hfound hlowered hcarries⟩
        simp only [Direct.call, hstaged, hblock, demand, ok_bind, if_pos hlength', hnames]
        rfl
      · next hlength =>
        cases h
        refine Or.inl ⟨_, rfl, ?_⟩
        have hlength' : block.parameters.length ≠ xs.length := by
          rw [hparameters, List.length_map] at hlength
          exact hlength
        simp only [Direct.call, hstaged, hblock, demand, ok_bind, if_neg hlength']
        rfl
    | @checked f _ hstaged hchecked hcopy =>
      simp only [bind_eq_ok, Function.fetch, demand_eq_ok] at h
      obtain ⟨c, hc, h⟩ := h
      have hi : g.entry < f.continuations.length := by
        rw [hcopy.continuations.length_eq]
        exact (List.getElem?_eq_some_iff.1 hc).1
      obtain ⟨c', hc', hsame⟩ := SameAt.of_forall₂ hcopy.continuations _ _ (List.getElem?_eq_getElem hi)
      cases hc.symm.trans hc'
      have hfirst : f.continuations[f.entry]? = some f.continuations[g.entry] := by
        rw [← hcopy.entry, List.getElem?_eq_getElem hi]
      split at h
      · next hlength =>
        cases h
        refine Or.inr ⟨_, _, .checked f f.continuations[g.entry].instructions f.continuations[g.entry].transition, rfl,
          ?_,
          .refl _, g, c, hfound, hc, ?_⟩
        · simp only [Direct.call, hstaged, hchecked, Function.fetch, hfirst, demand, ok_bind]
          rw [← hsame.parameters, if_pos hlength]
          rfl
        · rw [hsame.instructions]
          exact .checked hfound hcopy hsame.transition
      · next hlength =>
        cases h
        refine Or.inl ⟨_, rfl, ?_⟩
        simp only [Direct.call, hstaged, hchecked, Function.fetch, hfirst, demand, ok_bind]
        rw [← hsame.parameters, if_neg hlength]
        rfl

/-- A turn of the machine against a direct move. -/
inductive Meet (module : StagedModule) (graph : Graph) : Turn V → Move (Direct.Run V) V → Prop
  | on {a : Activation V} {callers : List (Destination V)} {values : Table ValueId V} {position : Direct.Position}
      {below : List (Table ValueId V × Direct.Await)} :
      Ready module graph a values position → List.Forall₂ (Awaits module graph) callers below →
      Meet module graph (.on ⟨.ready a, callers⟩) (.on ⟨.running values position, below⟩)
  | request {d : Destination V} {callers : List (Destination V)} {values : Table ValueId V} {await : Direct.Await}
      {below : List (Table ValueId V × Direct.Await)} {target : CallTarget} {xs : List V} :
      Awaits module graph d (values, await) → List.Forall₂ (Awaits module graph) callers below →
      Meet module graph (.leave (.ok (.request target xs)) ⟨.waiting d, callers⟩)
        (.request target xs ⟨.waiting values await, below⟩)
  | returned (x : V) : Meet module graph (.on ⟨.returned x, []⟩) (.returned x)
  | trapped (message : String) (machine : Machine V) :
      Meet module graph (.leave (.ok (.trapped message)) machine) (.trapped message)
  | refused (message : String) (machine : Machine V) :
    Meet module graph (.leave (.error message) machine) (.refused message)

section Ends

variable (horigin : ∀ id, Origin module id (graph.functions.find? (·.id == id))) {a : Activation V}
  (hfind : graph.functions.find? (·.id == a.function) = some g) {store : Table ValueId V}
  (hwithin : Within a.values store) {callers : List (Destination V)} {below : List (Table ValueId V × Direct.Await)}
  (hbelow : List.Forall₂ (Awaits module graph) callers below)

include hfind hwithin hbelow

/-- An edge that the machine takes is the entry of a block. -/
theorem follow_meets (hlowered : Lowered module function entries g) {target : ℕ} {arguments : List ℕ} {edge : Edge}
    (hedge : lowerEdge function entries target arguments = .ok edge) (hfits : g.Fits edge) {turn : Turn V}
    (h : graph.follow a callers edge = .ok turn) :
    ∃ state, Direct.enter function store target arguments = .ok state ∧
    Meet module graph turn (.on ⟨state, below⟩) := by
  simp only [Graph.follow, bind_eq_ok, pure_eq_ok] at h
  obtain ⟨d, hd, a', ha', rfl⟩ := h
  obtain ⟨values, position, henter, hready⟩ := enter_lowered hlowered hfind hedge hfits hd ha' hwithin
  exact ⟨_, henter, .on hready hbelow⟩

theorem follow_copied_meets {f : Function} (hcopy : Copied f g) {edge : Edge} {turn : Turn V}
    (h : graph.follow a callers edge = .ok turn) :
    ∃ state, Direct.follow f store edge none = .ok state ∧ Meet module graph turn (.on ⟨state, below⟩) := by
  simp only [Graph.follow, bind_eq_ok, pure_eq_ok] at h
  obtain ⟨d, hd, a', ha', rfl⟩ := h
  obtain ⟨hfunction, hcontinuation, harguments, successor, captures, _, hcaptures, hdc⟩ := destination_eq_ok hfind hd
  obtain ⟨values, position, hfollow, hready⟩ := follow_copied hcopy (hfunction ▸ hfind) hcontinuation.symm
    (hwithin.arguments harguments) (hdc ▸ hwithin.captures hcaptures) ha'
  exact ⟨_, hfollow, .on hready hbelow⟩

omit hfind in
theorem giveBack_meets [Values V] {value : ValueId} {turn : Turn V}
    (h : graph.transfer a callers (.return value) = .ok turn) :
    ∃ move, Direct.giveBack store below value = .ok move ∧ Meet module graph turn move := by
  simp only [Graph.transfer, bind_eq_ok] at h
  obtain ⟨x, hx, h⟩ := h
  cases hbelow with
  | nil =>
    cases h
    exact ⟨.returned x, by simp [Direct.giveBack, hwithin.read hx], .returned x⟩
  | @cons d p callers below hd hbelow =>
    obtain ⟨stored, await⟩ := p
    simp only [bind_eq_ok, pure_eq_ok] at h
    obtain ⟨a', ha', rfl⟩ := h
    obtain ⟨values, position, htake, hready⟩ := hd.take ha'
    exact ⟨_, by simp [Direct.giveBack, hwithin.read hx, htake], .on hready hbelow⟩

include horigin

omit hfind in
theorem callOut_meets [Values V] {target : CallTarget} {signature : SignatureId} {arguments : List ValueId}
    {next : Edge}
    {suspends : Bool} {turn : Turn V} {await : Direct.Await}
    (h : graph.transfer a callers (.call target signature arguments next suspends) = .ok turn)
    (hawait : ∀ d, graph.destination a next = .ok d → Awaits module graph d (store, await)) :
    ∃ move, Direct.callOut module store below target arguments await = .ok move ∧ Meet module graph turn move := by
  simp only [Graph.transfer, bind_eq_ok] at h
  obtain ⟨xs, hxs, d, hd, h⟩ := h
  have hread := hwithin.collect hxs
  cases target with
  | function id =>
    simp only [bind_eq_ok] at h
    obtain ⟨r, hr, h⟩ := h
    rcases call_origin horigin hr with ⟨message, rfl, hcall⟩ | ⟨a', values, position, rfl, hcall, hready⟩
    · cases h
      exact ⟨.refused message, by simp [Direct.callOut, hread, hcall], .refused _ _⟩
    · cases h
      exact ⟨_, by simp [Direct.callOut, hread, hcall], .on hready (.cons (hawait d hd) hbelow)⟩
  | host capability operation | link unit name =>
    cases h
    exact ⟨_, by simp [Direct.callOut, hread], .request (hawait d hd) hbelow⟩

omit horigin hfind hwithin hbelow in
theorem find_lowered [Values V] {cases : List RuntimeSwitchCase} {lowered : List (WireConstant × Edge)}
    (h : collect (fun switchCase => do
      let edge ← lowerEdge function entries switchCase.target []
      pure (switchCase.value, edge)) cases = .ok lowered) {fallback : ℕ} {edge : Edge}
    (hfallback : lowerEdge function entries fallback [] = .ok edge) (x : V) :
    lowerEdge function entries
        (((cases.find? fun switchCase => Values.matches x switchCase.value).map (·.target)).getD fallback) [] =
      .ok (((lowered.find? fun entry => Values.matches x entry.1).map (·.2)).getD edge) := by
  induction cases generalizing lowered with
  | nil =>
    cases h
    exact hfallback
  | cons first cases ih =>
    simp only [collect, bind_eq_ok, pure_eq_ok] at h
    obtain ⟨_, ⟨e, he, rfl⟩, rest, hrest, rfl⟩ := h
    by_cases hmatch : Values.matches x first.value
    · simpa [List.find?_cons, hmatch] using he
    · simpa [List.find?_cons, hmatch] using ih hrest

omit horigin in
/-- **The transition of a terminator is the end of its block.** -/
theorem terminate_meets [Values V] (hlowered : Lowered module function entries g) {terminator : StagedTerminator}
    {transition : Transition} {span : RuntimeSpan}
    (hterminator : lowerTerminator function entries terminator = .ok (transition, span))
    (hfits : ∀ edge ∈ transition.edges, g.Fits edge)
    (huses : ∀ v ∈ transition.uses, ∃ x, readValue a.values v = .ok x) {turn : Turn V}
    (h : graph.transfer a callers transition = .ok turn) :
    ∃ move, Direct.terminate function store below terminator = .ok move ∧ Meet module graph turn move := by
  cases terminator with
  | branch target arguments span' =>
    simp only [lowerTerminator, bind_eq_ok, pure_eq_ok, Prod.mk.injEq] at hterminator
    obtain ⟨edge, hedge, rfl, _⟩ := hterminator
    obtain ⟨state, hstate, hmeet⟩ := follow_meets hfind hwithin hbelow hlowered hedge
      (hfits edge (by simp [Transition.edges])) h
    exact ⟨_, by simp [Direct.terminate, hstate], hmeet⟩
  | conditional condition consequent consequentArguments alternate alternateArguments span' =>
    simp only [lowerTerminator, bind_eq_ok, pure_eq_ok, Prod.mk.injEq] at hterminator
    obtain ⟨first, hfirst, second, hsecond, rfl, _⟩ := hterminator
    simp only [Graph.transfer, bind_eq_ok] at h
    obtain ⟨x, hx, h⟩ := h
    have hread := hwithin.read hx
    cases hcondition : Values.condition x with
    | error message =>
      rw [hcondition] at h
      cases h
      exact ⟨.refused message, by simp [Direct.terminate, hread, hcondition], .refused _ _⟩
    | ok b =>
      rw [hcondition] at h
      cases b with
      | true =>
        obtain ⟨state, hstate, hmeet⟩ := follow_meets hfind hwithin hbelow hlowered hfirst
          (hfits first (by simp [Transition.edges])) h
        exact ⟨_, by simp [Direct.terminate, hread, hcondition, hstate], hmeet⟩
      | false =>
        obtain ⟨state, hstate, hmeet⟩ := follow_meets hfind hwithin hbelow hlowered hsecond
          (hfits second (by simp [Transition.edges])) h
        exact ⟨_, by simp [Direct.terminate, hread, hcondition, hstate], hmeet⟩
  | switch selector cases fallback span' =>
    simp only [lowerTerminator, bind_eq_ok, pure_eq_ok, Prod.mk.injEq] at hterminator
    obtain ⟨lowered, hcases, edge, hfallback, rfl, _⟩ := hterminator
    obtain ⟨x, hx⟩ := huses selector (by simp [Transition.uses])
    have hchosen := find_lowered hcases hfallback x
    have hselect : selectCase a.values selector lowered edge =
        .ok (((lowered.find? fun entry => Values.matches x entry.1).map (·.2)).getD edge) := by
      unfold selectCase
      split
      · next hempty => simp [List.isEmpty_iff.1 hempty]
      · simp [hx]
    simp only [Graph.transfer, hselect, ok_bind] at h
    have hmem : ((lowered.find? fun entry => Values.matches x entry.1).map (·.2)).getD edge ∈
        (Transition.switch selector lowered edge).edges := by
      cases hfound : lowered.find? fun entry => Values.matches x entry.1 with
      | none => simp [Transition.edges]
      | some entry => exact List.mem_append_left _ (List.mem_map.2 ⟨entry, List.mem_of_find?_eq_some hfound, rfl⟩)
    obtain ⟨state, hstate, hmeet⟩ := follow_meets hfind hwithin hbelow hlowered hchosen (hfits _ hmem) h
    exact ⟨_, by simp [Direct.terminate, hwithin.read hx, hstate], hmeet⟩
  | «return» value span' =>
    simp only [lowerTerminator, pure_eq_ok, Prod.mk.injEq] at hterminator
    obtain ⟨rfl, _⟩ := hterminator
    exact giveBack_meets hwithin hbelow h
  | trap message span' =>
    simp only [lowerTerminator, pure_eq_ok, Prod.mk.injEq] at hterminator
    obtain ⟨rfl, _⟩ := hterminator
    cases h
    exact ⟨.trapped message, rfl, .trapped _ _⟩

theorem call_copied_meets [Values V] {f : Function} (hcopy : Copied f g) {target : CallTarget} {signature : SignatureId}
    {arguments : List ValueId} {next : Edge} {suspends : Bool} {turn : Turn V}
    (h : graph.transfer a callers (.call target signature arguments next suspends) = .ok turn) :
    ∃ move, Direct.callOut module store below target arguments (.edge f next) = .ok move ∧
      Meet module graph turn move := by
  refine callOut_meets horigin hwithin hbelow h fun d hd => ?_
  obtain ⟨hfunction, hcontinuation, harguments, _, captures, _, hcaptures, hdc⟩ := destination_eq_ok hfind hd
  exact .edge (hfunction ▸ hfind) hcopy hcontinuation.symm (hwithin.arguments harguments)
    (hdc ▸ hwithin.captures hcaptures)

/-- **The transition of a copy is that of the checked function.** -/
theorem transfer_meets [Values V] {f : Function} (hcopy : Copied f g) {transition transition' : Transition}
    (hsame : transition'.unmarked = transition.unmarked) {turn : Turn V}
    (h : graph.transfer a callers transition' = .ok turn) :
    ∃ move, Direct.transfer module f store below transition = .ok move ∧ Meet module graph turn move := by
  rcases Transition.eq_or_call hsame with rfl | ⟨target, signature, arguments, next, suspends, suspends', rfl, rfl⟩
  · cases transition' with
    | jump edge =>
      obtain ⟨state, hstate, hmeet⟩ := follow_copied_meets hfind hwithin hbelow hcopy h
      exact ⟨_, by simp [Direct.transfer, hstate], hmeet⟩
    | branch condition consequent alternate =>
      simp only [Graph.transfer, bind_eq_ok] at h
      obtain ⟨x, hx, h⟩ := h
      have hread := hwithin.read hx
      cases hcondition : Values.condition x with
      | error message =>
        rw [hcondition] at h
        cases h
        exact ⟨.refused message, by simp [Direct.transfer, hread, hcondition], .refused _ _⟩
      | ok b =>
        rw [hcondition] at h
        obtain ⟨state, hstate, hmeet⟩ := follow_copied_meets hfind hwithin hbelow hcopy h
        exact ⟨_, by simp [Direct.transfer, hread, hcondition, hstate], hmeet⟩
    | switch selector cases fallback =>
      simp only [Graph.transfer, bind_eq_ok] at h
      obtain ⟨edge, hedge, h⟩ := h
      have hselect : selectCase store selector cases fallback = .ok edge := by
        unfold selectCase at hedge ⊢
        split
        · next hempty => rwa [if_pos hempty] at hedge
        · next hempty =>
          rw [if_neg hempty] at hedge
          simp only [bind_eq_ok] at hedge ⊢
          obtain ⟨x, hx, hedge⟩ := hedge
          exact ⟨x, hwithin.read hx, hedge⟩
      obtain ⟨state, hstate, hmeet⟩ := follow_copied_meets hfind hwithin hbelow hcopy h
      exact ⟨_, by simp [Direct.transfer, hselect, hstate], hmeet⟩
    | call target signature arguments next suspends => exact call_copied_meets horigin hfind hwithin hbelow hcopy h
    | «return» value => exact giveBack_meets hwithin hbelow h
    | trap message =>
      cases h
      exact ⟨.trapped message, rfl, .trapped _ _⟩
  · exact call_copied_meets horigin hfind hwithin hbelow hcopy h

/-- **The end of a continuation is the end of the operations up to a call, or of the block.** -/
theorem At.meets [Values V] {position : Direct.Position} {transition : Transition}
    (hat : At module graph a.function position [] transition) (hfits : ∀ edge ∈ transition.edges, g.Fits edge)
    (huses : ∀ v ∈ transition.uses, ∃ x, readValue a.values v = .ok x) {turn : Turn V}
    (h : graph.transfer a callers transition = .ok turn) (execute : Execute V σ) (s : σ) :
    ∃ move, Direct.move module execute ⟨.running store position, below⟩ s = .ok (move, s) ∧
      Meet module graph turn move := by
  cases hat with
  | @staged function entries g' operations terminator _ _ hfind' hlowered hcarries =>
    cases hfind.symm.trans hfind'
    cases operations with
    | nil =>
      obtain ⟨_, span, hterminator⟩ := hcarries
      obtain ⟨move, hmove, hmeet⟩ := terminate_meets hfind hwithin hbelow hlowered hterminator hfits huses h
      exact ⟨move, by simp [Direct.move, hmove], hmeet⟩
    | cons operation operations =>
      rw [Carries] at hcarries
      split at hcarries
      · next hcall =>
        obtain ⟨_, target, signature, suspends, suspends', next, c, htarget, rfl, hc, hparameters, hcarries⟩ := hcarries
        have hawait : ∀ d, graph.destination a { target := next, arguments := [.result] } = .ok d →
            Awaits module graph d (store, .bind operation.result (.staged function operations terminator)) := by
          intro d hd
          obtain ⟨hfunction, hcontinuation, harguments, successor, captures, hs, hcaptures, hdc⟩ :=
            destination_eq_ok hfind hd
          cases hs.symm.trans hc
          refine .bind (hfunction ▸ hfind) (hcontinuation ▸ hc) ?_ hparameters (hdc ▸ hwithin.captures hcaptures) ?_
          · simp only [collect, readArgument, pure_eq, ok_bind, Except.ok.injEq] at harguments
            exact harguments.symm
          · exact .staged (hfunction ▸ hfind) hlowered hcarries
        obtain ⟨move, hmove, hmeet⟩ := callOut_meets horigin hwithin hbelow h hawait
        exact ⟨move, by simp [Direct.move, hcall, target_of_callTarget htarget, hmove], hmeet⟩
      · obtain ⟨rest, hrest, _⟩ := hcarries
        cases hrest
  | @checked f g' _ transition _ hfind' hcopy hsame =>
    cases hfind.symm.trans hfind'
    obtain ⟨move, hmove, hmeet⟩ := transfer_meets horigin hfind hwithin hbelow hcopy hsame h
    exact ⟨move, by simp [Direct.move, hmove], hmeet⟩

end Ends

end Moves

/-! ### Runs -/

section Runs

variable [Values V] {execute : Execute V σ} (responses : List V) (seen : List (Observation V))

/-- **The instructions of a continuation are the operations of the block**, one direct move each. -/
theorem At.runs {id : FunctionId} {position : Direct.Position} {instructions : List Instruction}
    {transition : Transition}
    (hat : At module graph id position instructions transition) {values store : Table ValueId V} {s s' : σ}
    {r : Except String (Table ValueId V)} (hrun : runInstructions execute instructions values s = .ok (r, s'))
    (hwithin : Within values store) (below : List (Table ValueId V × Direct.Await)) :
    (∃ values' store' position', r = .ok values' ∧
      Comes (Direct.party module execute).next ⟨⟨.running store position, below⟩, s, responses, seen⟩
        ⟨⟨.running store' position', below⟩, s', responses, seen⟩ ∧
      Within values' store' ∧ At module graph id position' [] transition) ∨
    ∃ message, r = .error message ∧
      Ends (Direct.party module execute).next ⟨⟨.running store position, below⟩, s, responses, seen⟩
        (seen ++ [.trapped message], .finished) := by
  induction instructions generalizing position values store s with
  | nil =>
    cases hrun
    exact Or.inl ⟨values, store, position, rfl, .refl, hwithin, hat⟩
  | cons i instructions ih =>
    simp only [runInstructions, bind_eq_ok] at hrun
    obtain ⟨xs, hxs, hrun⟩ := hrun
    have hread := hwithin.collect hxs
    -- the operation of this instruction, and the place after it
    obtain ⟨position', hnext, hmove⟩ : ∃ position', At module graph id position' instructions transition ∧
        (∀ x s', execute i xs s = (.ok x, s') → Direct.move module execute ⟨.running store position, below⟩ s =
          .ok (.on ⟨.running (store.insert i.definition.value x) position', below⟩, s')) ∧
        ∀ message s', execute i xs s = (.error message, s') →
          Direct.move module execute ⟨.running store position, below⟩ s = .ok (.trapped message, s') := by
      cases hat with
      | @staged function entries g operations terminator _ _ hfind hlowered hcarries =>
        cases operations with
        | nil => exact absurd hcarries.1 (by simp)
        | cons operation operations =>
          rw [Carries] at hcarries
          split at hcarries
          · exact absurd hcarries.1 (by simp)
          · next hcall =>
            obtain ⟨rest, he, hcarries⟩ := hcarries
            cases he
            refine ⟨.staged function operations terminator, .staged hfind hlowered hcarries, ?_⟩
            have hread' : collect (readValue store) operation.operands = .ok xs := hread
            constructor
            all_goals
              intro _ s' hexec
              simp only [Direct.move, if_neg hcall, hread', ok_bind, hexec]
              rfl
      | @checked f g _ transition' _ hfind hcopy hsame =>
        refine ⟨.checked f instructions transition', .checked hfind hcopy hsame, ?_⟩
        constructor
        all_goals
          intro _ s' hexec
          simp only [Direct.move, hread, ok_bind, hexec]
          rfl
    rcases hexec : execute i xs s with ⟨message | x, s''⟩
    · rw [hexec] at hrun
      have hmove := hmove.2 message s'' hexec
      cases hrun
      exact Or.inr ⟨message, rfl, ends_now (by simp [Party.next, Direct.party, hmove])⟩
    · rw [hexec] at hrun
      have hmove := hmove.1 x s'' hexec
      have hstep : Step (Direct.party module execute).next ⟨⟨.running store position, below⟩, s, responses, seen⟩
          ⟨⟨.running (store.insert i.definition.value x) position', below⟩, s'', responses, seen⟩ := by
        simp [Step, Party.next, Direct.party, hmove]
      rcases ih hnext hrun (hwithin.insert i.definition.value x) with
        ⟨values', store', position'', hr, hcomes, hwithin', hat'⟩ | ⟨message, hr, hends⟩
      · exact Or.inl ⟨values', store', position'', hr, .head hstep hcomes, hwithin', hat'⟩
      · exact Or.inr ⟨message, hr, (ends_step hstep).2 hends⟩

/-- A run of the machine and a direct run at the same place, with the same observations. -/
def Alike (module : StagedModule) (graph : Graph) (w : World (Machine V) V σ) (w' : World (Direct.Run V) V σ) : Prop :=
  w.store = w'.store ∧ w.responses = w'.responses ∧ w.seen = w'.seen ∧
    (∃ pending, w.machine.Sound anyType graph module.tables pending) ∧
    ∃ a callers values position below, w.machine = ⟨.ready a, callers⟩ ∧
      w'.machine = ⟨.running values position, below⟩ ∧ Ready module graph a values position ∧
      List.Forall₂ (Awaits module graph) callers below

variable (hg : graph.Validated module.tables)

include hg

/-- **A turn and a direct move that meet** have the same outcome, or go on alike. -/
theorem Meet.next {turn : Turn V} {move : Move (Direct.Run V) V} (hmeet : Meet module graph turn move)
    {m : Machine V} {r : Direct.Run V} {s s' s'' : σ} (hturn : m.turn graph execute s = .ok (turn, s'))
    (hmove : Direct.move module execute r s'' = .ok (move, s'))
    (hsound : turn.Sound anyType graph module.tables none) :
    (∃ o, Ends (Machine.turns graph execute).next ⟨m, s, responses, seen⟩ o ∧
      Ends (Direct.party module execute).next ⟨r, s'', responses, seen⟩ o) ∨
    ∃ w w', Step (Machine.turns graph execute).next ⟨m, s, responses, seen⟩ w ∧
      Step (Direct.party module execute).next ⟨r, s'', responses, seen⟩ w' ∧ Alike module graph w w' := by
  cases hmeet with
  | @on a callers values position below hready hbelow =>
    refine Or.inr ⟨⟨⟨.ready a, callers⟩, s', responses, seen⟩, ⟨⟨.running values position, below⟩, s', responses, seen⟩,
      ?_, ?_, rfl, rfl, rfl, ⟨none, hsound⟩, a, callers, values, position, below, rfl, rfl, hready, hbelow⟩
    · simp [Step, Party.next, Machine.turns, hturn]
    · simp [Step, Party.next, Direct.party, hmove]
  | @request d callers values await below target xs hawaits hbelow =>
    cases responses with
    | nil =>
      exact Or.inl ⟨(seen ++ [.request target xs], .suspended),
        ends_now (by simp [Party.next, Machine.turns, hturn, Move.ofReply]),
        ends_now (by simp [Party.next, Direct.party, hmove])⟩
    | cons response responses =>
      have hvalue : ∀ target' type, some target = some target' → responseType module.tables target' = some type →
          anyType response type := fun _ _ _ _ => trivial
      obtain ⟨reply, m', hresume, hsound'⟩ := hg.resume_sound hsound.1 hvalue
      obtain ⟨a, ha, hm⟩ : ∃ a, graph.arrive d (some response) = .ok a ∧ m' = ⟨.ready a, callers⟩ := by
        simp only [Machine.resume, bind_eq_ok, pure_eq_ok, Prod.mk.injEq] at hresume
        obtain ⟨a, ha, _, rfl⟩ := hresume
        exact ⟨a, ha, rfl⟩
      subst hm
      obtain ⟨values', position, htake, hready⟩ := hawaits.take ha
      refine Or.inr ⟨⟨⟨.ready a, callers⟩, s', responses, seen ++ [.request target xs]⟩,
        ⟨⟨.running values' position, below⟩, s', responses, seen ++ [.request target xs]⟩, ?_, ?_, rfl, rfl, rfl,
        ⟨_, hsound'⟩, a, callers, values', position, below, rfl, rfl, hready, hbelow⟩
      · simp [Step, Party.next, Machine.turns, hturn, Move.ofReply, Machine.accept, hresume]
      · simp [Step, Party.next, Direct.party, hmove, Direct.resume, htake]
  | returned x =>
    refine Or.inl ⟨(seen ++ [.returned x], .finished), ?_, ends_now (by simp [Party.next, Direct.party, hmove])⟩
    have hstep : Step (Machine.turns graph execute).next ⟨m, s, responses, seen⟩
        ⟨⟨.returned x, []⟩, s', responses, seen⟩ := by
      simp [Step, Party.next, Machine.turns, hturn]
    exact (ends_step hstep).2 (ends_now (by simp [Party.next, Machine.turns, Machine.turn, Move.ofReply]))
  | trapped message m' =>
    exact Or.inl ⟨(seen ++ [.trapped message], .finished),
      ends_now (by simp [Party.next, Machine.turns, hturn, Move.ofReply]),
      ends_now (by simp [Party.next, Direct.party, hmove])⟩
  | refused message m' =>
    exact Or.inl ⟨(seen, .refused message), ends_now (by simp [Party.next, Machine.turns, hturn, Move.ofReply]),
      ends_now (by simp [Party.next, Direct.party, hmove])⟩

/-- **Every turn of the machine is a direct run up to a call or the end of a block.** -/
theorem machine_simulates (horigin : ∀ id, Origin module id (graph.functions.find? (·.id == id))) :
    Simulates (Machine.turns graph execute).next (Direct.party module execute).next (Alike module graph) := by
  rintro ⟨m, s, responses, seen⟩ ⟨r, _, _, _⟩
    ⟨rfl, rfl, rfl, ⟨pending, hsound⟩, a, callers, store, position, below, rfl, rfl, hready, hbelow⟩
  obtain ⟨hwithin, g, c, hfind, hget, hat⟩ := hready
  have hsound' : Machine.Sound anyType graph module.tables none ⟨.ready a, callers⟩ := hsound
  obtain ⟨⟨f, c', hfind', hget', hholds⟩, _⟩ := hsound
  cases hfind.symm.trans hfind'
  cases hget.symm.trans hget'
  have hpres : execute.Preserves anyType graph := fun _ _ _ _ _ _ _ _ _ _ _ _ => trivial
  obtain ⟨_, _, _, available, _, hf, huses, _, _, result, s', hrun, hafter⟩ := hg.body_sound hfind hget hholds hpres s
  obtain ⟨turn, s₁, hturn, hturnsound⟩ := hg.turn_sound hsound' hpres s
  have hturn' := hturn
  rw [turn_of_run hfind hget hrun] at hturn'
  rcases hat.runs responses seen hrun hwithin below with
    ⟨values, store', position', rfl, hcomes, hwithin', hat'⟩ | ⟨message, rfl, hends⟩
  · simp only [bind_eq_ok, pure_eq_ok, Prod.mk.injEq] at hturn'
    obtain ⟨_, htransfer, rfl, rfl⟩ := hturn'
    have hreads : ∀ v ∈ c.transition.uses, ∃ x, readValue values v = .ok x := by
      intro v hv
      obtain ⟨type, htype⟩ := Option.isSome_iff_exists.1 (huses v hv)
      obtain ⟨x, hx, _⟩ := hafter values rfl v type htype
      exact ⟨x, by simp [readValue, hx, demand]⟩
    obtain ⟨move, hmove, hmeet⟩ := hat'.meets (a := { a with values }) horigin hfind hwithin' hbelow
      (hf.fits c (List.mem_of_getElem? hget)) hreads htransfer execute s'
    rcases hmeet.next responses seen hg hturn hmove hturnsound with
      ⟨o, ho, ho'⟩ | ⟨w, w', hw, hw', halike⟩
    · exact Or.inl ⟨o, ho, ends_comes hcomes ho'⟩
    · exact Or.inr ⟨w, w', .single hw, Relation.TransGen.tail' hcomes hw', halike⟩
  · cases hturn'
    exact Or.inl ⟨_, ends_now (by simp [Party.next, Machine.turns, hturn, Move.ofReply]), hends⟩

end Runs

/-- **Lowering preserves behaviour.**  Where lowering succeeds, an entry with its arguments is refused on both sides
with the same message, or the machine on the lowered graph, polled with any quanta, and the direct execution of the
staged blocks have the same outcomes: the same requests with their arguments, and the same end. -/
theorem lower_preserves [Values V] {rounds : ℕ} (h : Graph.lower module rounds = .ok graph) (entry : FunctionId)
    (arguments : List V) :
    (∃ message, Machine.new graph entry arguments = .ok (.error message) ∧
      Direct.call module entry arguments = .ok (.error message)) ∨
    ∃ machine state, Machine.new graph entry arguments = .ok (.ok machine) ∧
      Direct.call module entry arguments = .ok (.ok state) ∧
      ∀ (σ : Type) (execute : Execute V σ) (s : σ) (quanta : ℕ → ℕ) (responses : List V) (o : Outcome V),
        Ends (Machine.polls graph execute).next ⟨(machine, quanta), s, responses, []⟩ o ↔
          Ends (Direct.party module execute).next ⟨⟨state, []⟩, s, responses, []⟩ o := by
  obtain ⟨hg, horigin⟩ := Graph.origin h
  obtain ⟨r, hr⟩ := hg.new_ok entry arguments
  rcases call_origin horigin hr with ⟨message, rfl, hcall⟩ | ⟨a, values, position, rfl, hcall, hready⟩
  · exact Or.inl ⟨message, hr, hcall⟩
  · refine Or.inr ⟨_, _, hr, hcall, fun σ execute s quanta responses o => ?_⟩
    rw [polls_ends_iff]
    have hsound : Machine.Sound anyType graph module.tables none ⟨.ready a, []⟩ :=
      hg.sound_of_reaches (.start hr fun _ _ _ _ _ _ => trivial)
    exact (machine_simulates hg horigin).ends_iff
      ⟨rfl, rfl, rfl, ⟨none, hsound⟩, a, [], values, position, [], rfl, rfl, hready, .nil⟩

/-- Sends its text to the console and returns it, as it was staged. -/
def stagedEcho : StagedModule where
  types := [.text]
  signatures := [⟨[0], 0, ["Console"]⟩]
  staticStores := []
  functions := [
    { id := 0, name := "echo", signature := 0, reuse := none, entryBlock := 0, span := ⟨"echo.blot", 0, 1⟩,
      blocks := [
        { id := 0, parameters := [⟨0, 0, "plain", ⟨"echo.blot", 0, 1⟩⟩],
          operations := [
            { kind := "host.call", result := 1, typeId := 0, operands := [0], ownership := "plain",
              span := ⟨"echo.blot", 0, 1⟩, capability := some "Console", operation := some "print" }],
          terminator := .return 0 ⟨"echo.blot", 0, 1⟩ }] }]
  checkedFunctions := []
  capabilities := [⟨"Console", [⟨"print", 0, true⟩]⟩]
  links := []
  resumableRoots := []

theorem lower_preserves_echo :
    ∃ machine state, Machine.new ⟨[echo]⟩ 0 [WireConstant.text "hello"] = .ok (.ok machine) ∧
      Direct.call stagedEcho 0 [WireConstant.text "hello"] = .ok (.ok state) ∧
      ∀ (σ : Type) (execute : Execute WireConstant σ) (s : σ) (quanta : ℕ → ℕ) (responses : List WireConstant)
        (o : Outcome WireConstant),
        Ends (Machine.polls ⟨[echo]⟩ execute).next ⟨(machine, quanta), s, responses, []⟩ o ↔
          Ends (Direct.party stagedEcho execute).next ⟨⟨state, []⟩, s, responses, []⟩ o := by
  have hlower : Graph.lower stagedEcho 4 = .ok ⟨[echo]⟩ := by decide
  rcases lower_preserves hlower 0 [WireConstant.text "hello"] with ⟨message, hnew, _⟩ | h
  · cases hnew
  · exact h

end Blot.Suspension
