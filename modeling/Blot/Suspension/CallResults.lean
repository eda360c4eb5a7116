import Blot.Suspension.Safety

/-!
# Calls whose result is returned (`Function::returns_call_result`)

From the edge of a call the search follows the jumps, and with them the one value that carries the result.

* `Function.returnsCallResult` — the search, which ends within one round more than there are continuations;
* `Graph.Jumps`, `Graph.Gives` — an activation that only jumps, and one that only returns a value;
* `call_result_is_returned` — where the search says yes, the machine goes from the result of the call to the return of
  this very value, by jumps alone.
-/

namespace Blot.Suspension

open Blot.Hir Blot.Support

/-- The argument is the one that carries the result: its own place at first, and then the value it was given to. -/
def carries (carried : Option ValueId) : Argument → Bool
  | .result => carried.isNone
  | .value value => carried == some value

def Edge.carrier (edge : Edge) (carried : Option ValueId) (parameters : List Definition) : Option ValueId :=
  ((parameters.zip edge.arguments).find? fun entry => carries carried entry.2).map (·.1.value)

/-- The loop of `returns_call_result`. -/
def Function.returnsCarried (f : Function) :
    ℕ → Edge → Option ValueId → Ascending ContinuationId → Except Failure Bool
  | 0, _, _, _ => .error .unfinished
  | n + 1, edge, carried, visited =>
    if edge.target ∈ visited then pure false
    else do
      let continuation ← demand f.continuations[edge.target]? .panicked
      if continuation.instructions.isEmpty then
        match edge.carrier carried continuation.parameters with
        | none => pure false
        | some parameter =>
          match continuation.transition with
          | .return value => pure (value == parameter)
          | .jump next => f.returnsCarried n next (some parameter) (visited.insert edge.target)
          | _ => pure false
      else pure false

def Function.returnsCallResult (f : Function) (rounds : ℕ) (next : Edge) : Except Failure Bool :=
  f.returnsCarried rounds next none .empty

/-! ### The search ends -/

section Search

variable {f : Function}

def Function.unvisited (f : Function) (visited : Ascending ContinuationId) : List ContinuationId :=
  (List.range f.continuations.length).filter (· ∉ visited)

theorem Function.unvisited_insert_lt {visited : Ascending ContinuationId} {id : ContinuationId}
    (hid : id < f.continuations.length) (hnew : id ∉ visited) :
    (f.unvisited (visited.insert id)).length < (f.unvisited visited).length := by
  have hsub : f.unvisited (visited.insert id) = (f.unvisited visited).filter (· ≠ id) := by
    unfold Function.unvisited
    rw [List.filter_filter]
    refine List.filter_congr fun a _ => ?_
    simp
  rw [hsub]
  refine List.length_filter_lt_length_iff_exists.2 ⟨id, ?_, by simp⟩
  exact List.mem_filter.2 ⟨List.mem_range.2 hid, by simpa using hnew⟩

/-- **The search ends**: a round more than there are continuations left is enough, whatever the jumps are. -/
theorem Function.returnsCarried_ends {n : ℕ} {edge : Edge} {carried : Option ValueId}
    {visited : Ascending ContinuationId} (hn : (f.unvisited visited).length < n) :
    f.returnsCarried n edge carried visited ≠ .error .unfinished := by
  induction n generalizing edge carried visited with
  | zero => omega
  | succ n ih =>
    rw [Function.returnsCarried]
    split
    · simp
    · next hnew =>
      cases hc : f.continuations[edge.target]? with
      | none => simp [demand]
      | some c =>
        simp only [demand, ok_bind]
        split
        · split
          · simp
          · split
            · simp
            · have hlt := Function.unvisited_insert_lt (List.getElem?_eq_some_iff.1 hc).1 hnew
              exact ih (by omega)
            · simp
        · simp

theorem Function.returnsCarried_ok {n : ℕ} {edge : Edge} {carried : Option ValueId} {visited : Ascending ContinuationId}
    (hfits : ∀ c ∈ f.continuations, ∀ edge ∈ c.transition.edges, f.Fits edge) (hedge : f.Fits edge)
    (hn : (f.unvisited visited).length < n) : ∃ b, f.returnsCarried n edge carried visited = .ok b := by
  induction n generalizing edge carried visited with
  | zero => omega
  | succ n ih =>
    rw [Function.returnsCarried]
    split
    · exact ⟨false, rfl⟩
    · next hnew =>
      obtain ⟨c, hc, _⟩ := hedge
      simp only [hc, demand, ok_bind]
      split
      · split
        · exact ⟨false, rfl⟩
        · split
          · exact ⟨_, rfl⟩
          · next next ht =>
            have hlt := Function.unvisited_insert_lt (List.getElem?_eq_some_iff.1 hc).1 hnew
            refine ih (hfits c (List.mem_of_getElem? hc) next ?_) (by omega)
            simp [ht, Transition.edges]
          · exact ⟨false, rfl⟩
      · exact ⟨false, rfl⟩

theorem Function.returnsCarried_mono {n m : ℕ} (hle : n ≤ m) {edge : Edge} {carried : Option ValueId}
    {visited : Ascending ContinuationId} {b : Bool} (h : f.returnsCarried n edge carried visited = .ok b) :
    f.returnsCarried m edge carried visited = .ok b := by
  induction n generalizing m edge carried visited with
  | zero => cases h
  | succ n ih =>
    obtain ⟨m, rfl⟩ := Nat.exists_eq_add_one_of_ne_zero (n := m) (by omega)
    have hle : n ≤ m := by omega
    rw [Function.returnsCarried] at h ⊢
    split at h
    · next hseen => rw [if_pos hseen, ← h]
    · next hnew =>
      rw [if_neg hnew]
      cases hc : f.continuations[edge.target]? with
      | none => simp [hc, demand] at h
      | some c =>
        simp only [hc, demand, ok_bind] at h ⊢
        split at h
        · next hnil =>
          rw [if_pos hnil]
          split at h
          · exact h
          · split at h
            · exact h
            · exact ih hle h
            · exact h
        · next hsome => rw [if_neg hsome, ← h]

end Search

/-! ### What the machine does -/

section Machine

variable {V σ : Type} {graph : Graph} {tables : Tables} {f : Function}

/-- An activation without instructions that jumps. -/
def Graph.Jumps (graph : Graph) (a a' : Activation V) : Prop :=
  ∃ f c edge d, graph.find a.function = .ok f ∧ f.fetch a.continuation = .ok c ∧ c.instructions = [] ∧
    c.transition = .jump edge ∧ graph.destination a edge = .ok d ∧ graph.arrive d none = .ok a'

def Graph.Gives (graph : Graph) (a : Activation V) (x : V) : Prop :=
  ∃ f c value, graph.find a.function = .ok f ∧ f.fetch a.continuation = .ok c ∧ c.instructions = [] ∧
    c.transition = .return value ∧ readValue a.values value = .ok x

/-- A jump is a turn of the machine, and it does nothing else. -/
theorem Graph.Jumps.turn [Values V] {a a' : Activation V} (h : graph.Jumps a a') (callers : List (Destination V))
    (execute : Execute V σ) (s : σ) :
    Machine.turn graph execute ⟨.ready a, callers⟩ s = .ok (.on ⟨.ready a', callers⟩, s) := by
  obtain ⟨f, c, edge, d, hf, hc, hnil, ht, hd, ha⟩ := h
  simp [Machine.turn, hf, hc, hnil, runInstructions, ht, Graph.transfer, Graph.follow, hd, ha]

theorem Graph.Gives.turn [Values V] {a : Activation V} {x : V} (h : graph.Gives a x) (execute : Execute V σ) (s : σ) :
    Machine.turn graph execute ⟨.ready a, []⟩ s = .ok (.on ⟨.returned x, []⟩, s) ∧
      ∀ (d : Destination V) (callers : List (Destination V)) (a' : Activation V), graph.arrive d (some x) = .ok a' →
        Machine.turn graph execute ⟨.ready a, d :: callers⟩ s = .ok (.on ⟨.ready a', callers⟩, s) := by
  obtain ⟨f, c, value, hf, hc, hnil, ht, hx⟩ := h
  constructor
  · simp [Machine.turn, hf, hc, hnil, runInstructions, ht, Graph.transfer, hx]
  · intro d callers a' ha
    simp [Machine.turn, hf, hc, hnil, runInstructions, ht, Graph.transfer, hx, ha]

/-- A turn after which the machine goes on, the executor as it was. -/
def Machine.Silent [Values V] (graph : Graph) (execute : Execute V σ) (s : σ) (m m' : Machine V) : Prop :=
  m.turn graph execute s = .ok (.on m', s)

/-- The arguments that carry the result have the value `x`, where the open ones are `result`. -/
def Destination.Carries (d : Destination V) (edge : Edge) (carried : Option ValueId) (result : Option V) (x : V) :
    Prop :=
  ∀ (i : ℕ) (argument : Argument) (y : Option V), edge.arguments[i]? = some argument → d.arguments[i]? = some y →
    carries carried argument = true → y.or result = some x

theorem sound_of_destination {a : Activation V} {edge : Edge} {d : Destination V} {definitions : Definitions}
    {available : Available} {transition : Transition} {result : Option TypeId}
    (hfind : graph.functions.find? (·.id == a.function) = some f) (hfits : f.Fits edge)
    (hvalid : f.validateEdge definitions available transition result edge = .ok ())
    (hd : graph.destination a edge = .ok d) : d.Sound anyType graph result := by
  obtain ⟨hfunction, hcontinuation, harguments, successor, entries, hs, hcaptures, hentries⟩ :=
    destination_eq_ok hfind hd
  obtain ⟨successor', hs', hlength⟩ := hfits
  cases hs.symm.trans hs'
  simp only [Function.validateEdge, hs, bind_eq_ok, demand_eq_ok, each_eq_ok] at hvalid
  obtain ⟨_, hsucc, _, hchecked, _⟩ := hvalid
  cases hsucc
  refine ⟨f, successor, hfunction ▸ hfind, hcontinuation ▸ hs, ?_, ?_⟩
  · have hpairs := collect_eq_ok.1 harguments
    refine List.forall₂_iff_zip.2 ⟨hlength.trans hpairs.length_eq, fun {p x} hmem => ⟨fun _ _ => trivial, ?_⟩⟩
    rintro rfl
    -- the argument at this place is the open one
    obtain ⟨i, hi, hget⟩ := List.mem_iff_getElem.1 hmem
    simp only [List.length_zip, lt_inf_iff] at hi
    rw [List.getElem_zip, Prod.mk.injEq] at hget
    have hi' : i < edge.arguments.length := hlength ▸ hi.1
    have hread := hpairs.get hi' hi.2
    rw [List.get_eq_getElem, List.get_eq_getElem, hget.2] at hread
    have hcheck := hchecked (edge.arguments[i], successor.parameters[i]) (by
      rw [List.mem_iff_getElem]
      exact ⟨i, by simp [hi', hi.1], by simp⟩)
    cases hargument : edge.arguments[i] with
    | value v =>
      rw [hargument] at hread
      simp [readArgument] at hread
    | result =>
      rw [hargument] at hcheck
      simp only [validateArgument, bind_eq_ok, demand_eq_ok, require_eq_ok, beq_iff_eq] at hcheck
      obtain ⟨type, htype, _, _, rfl⟩ := hcheck
      rw [htype, hget.1]
  · intro capture hcapture
    rw [hentries]
    obtain ⟨p, hp, hread⟩ := collect_of_mem hcaptures hcapture
    obtain ⟨x, hx, -⟩ := bind_eq_ok.1 hread
    exact ⟨x, (lookup_captures hcaptures hcapture).trans (demand_eq_ok.1 hx), trivial⟩

theorem lookup_carrier {edge : Edge} {carried : Option ValueId} {d : Destination V} {result : Option V} {x : V}
    (hcarries : d.Carries edge carried result x) {parameters : List Definition} {parameter : ValueId}
    (hparameter : edge.carrier carried parameters = some parameter) (hlength : parameters.length = d.arguments.length)
    {values : Table ValueId V} (hnodup : (parameters.map (·.value)).Nodup)
    (hbind : (parameters.zip d.arguments).foldlM (bindParameter result) d.captures = .ok values) :
    values.lookup parameter = some x := by
  simp only [Edge.carrier, Option.map_eq_some_iff] at hparameter
  obtain ⟨⟨p, argument⟩, hfound, rfl⟩ := hparameter
  have hcarried := List.find?_some hfound
  obtain ⟨i, hi, hget⟩ := List.mem_iff_getElem.1 (List.mem_of_find?_eq_some hfound)
  simp only [List.length_zip, lt_inf_iff] at hi
  rw [List.getElem_zip, Prod.mk.injEq] at hget
  have hi' : i < d.arguments.length := hlength ▸ hi.1
  have hmem : (p, d.arguments[i]) ∈ parameters.zip d.arguments := by
    rw [List.mem_iff_getElem]
    exact ⟨i, by simp [hi', hi.1], by simp [hget.1]⟩
  rw [(bindParameters_lookup hnodup hbind).1 _ hmem]
  refine hcarries i argument d.arguments[i] ?_ (List.getElem?_eq_getElem hi') hcarried
  rw [List.getElem?_eq_getElem hi.2, hget.2]

variable (hg : graph.Validated tables)

include hg

/-- **The walk of the search is the run of the machine.**  The induction is on the rounds: what the search carries has
the value `x` in every activation that the machine comes to. -/
theorem Graph.Validated.returns_carried {n : ℕ} {edge : Edge} {carried : Option ValueId}
    {visited : Ascending ContinuationId} (h : f.returnsCarried n edge carried visited = .ok true) {d : Destination V}
    (hfind : graph.functions.find? (·.id == d.function) = some f) (htarget : d.continuation = edge.target)
    {expected : Option TypeId} (hsound : d.Sound anyType graph expected) {result : Option V}
    (hresult : ∀ type, expected = some type → ∃ y, result = some y ∧ anyType y type) {x : V}
    (hcarries : d.Carries edge carried result x) :
    ∃ a a', graph.arrive d result = .ok a ∧ Relation.ReflTransGen graph.Jumps a a' ∧ graph.Gives a' x := by
  induction n generalizing edge carried visited d expected result with
  | zero => cases h
  | succ n ih =>
    obtain ⟨a, ha, hfunction, hasound⟩ := hg.arrive hsound hresult
    obtain ⟨_, hcontinuation, successor, hs, hbind⟩ := arrive_eq_ok hfind ha
    obtain ⟨f', c, hfind', hget, hholds⟩ := hasound
    rw [hfunction] at hfind'
    cases hfind.symm.trans hfind'
    rw [hcontinuation] at hget
    cases hs.symm.trans hget
    rw [htarget] at hs
    rw [Function.returnsCarried] at h
    split at h
    · cases h
    simp only [hs, demand, ok_bind] at h
    split at h
    swap
    · cases h
    next hnil =>
    rw [List.isEmpty_iff] at hnil
    split at h
    · cases h
    next parameter hparameter =>
    have hfindA : graph.functions.find? (·.id == a.function) = some f := hfunction ▸ hfind
    have hgetA : f.continuations[a.continuation]? = some successor := by rw [hcontinuation, htarget, hs]
    have hgraph : graph.find a.function = .ok f := by simp [Graph.find, hfindA, demand]
    have hfetch : f.fetch a.continuation = .ok successor := by simp [Function.fetch, hgetA, demand]
    -- the parameter that the search goes on with has the value
    have hx : a.values.lookup parameter = some x := by
      obtain ⟨_, _, _, definitions, live, hf⟩ := hg.validated hfind
      obtain ⟨start, _, _, hstart, _⟩ := hf.body (List.mem_of_getElem? hs)
      obtain ⟨_, hnodup, _⟩ := Continuation.declared_inputs hstart
      rw [Continuation.inputs, List.map_append] at hnodup
      obtain ⟨g, s, hfg, hsg, hsuit, _⟩ := hsound
      cases hfind.symm.trans hfg
      rw [htarget] at hsg
      cases hs.symm.trans hsg
      exact lookup_carrier hcarries hparameter hsuit.length_eq (List.nodup_append.1 hnodup).1 hbind
    split at h
    · next value ht =>
      simp only [pure_eq, Except.ok.injEq, beq_iff_eq] at h
      exact ⟨a, a, ha, .refl, f, successor, value, hgraph, hfetch, hnil, ht, by simp [readValue, h, hx, demand]⟩
    · next next ht =>
      -- no instruction is executed, so any executor will do
      have hpres : Execute.Preserves anyType graph fun _ _ (s : Unit) => ((.error "" : Except String V), s) :=
        fun _ _ _ _ _ _ _ _ _ _ _ _ => trivial
      obtain ⟨_, definitions, live, available, expected', hf, _, htransition, hedges, r, s', hrun, hafter⟩ :=
        hg.body_sound hfindA hgetA hholds hpres ()
      rw [hnil] at hrun
      simp only [runInstructions, pure_eq, Except.ok.injEq, Prod.mk.injEq] at hrun
      have hcov := hafter a.values hrun.1.symm
      simp only [ht, Graph.validateTransition, pure_eq_ok] at htransition
      subst htransition
      have hmem : next ∈ successor.transition.edges := by simp [ht, Transition.edges]
      obtain ⟨d', hd', hfunction', hsound'⟩ := destination_sound hfindA
        (hf.fits successor (List.mem_of_getElem? hgetA) next hmem) (hedges next hmem) hcov
      obtain ⟨_, htarget', harguments, _⟩ := destination_eq_ok hfindA hd'
      have hcarries' : d'.Carries next (some parameter) none x := by
        intro i argument y hargument hy hcarried
        cases argument with
        | result => cases hcarried
        | value v =>
          obtain rfl : parameter = v := by simpa [carries] using hcarried
          obtain ⟨hi, hargument⟩ := List.getElem?_eq_some_iff.1 hargument
          obtain ⟨hi', hy⟩ := List.getElem?_eq_some_iff.1 hy
          have hread := (collect_eq_ok.1 harguments).get hi hi'
          rw [List.get_eq_getElem, List.get_eq_getElem, hargument, hy] at hread
          simp only [readArgument, readValue, hx, demand, ok_bind, pure_eq_ok] at hread
          rw [← hread]
          rfl
      obtain ⟨a₁, a₂, ha₁, hjumps, hgives⟩ := ih h (hfunction' ▸ hfindA) htarget' hsound'
        (fun type htype => by cases htype) hcarries'
      exact ⟨a, a₂, ha, .head ⟨f, successor, next, d', hgraph, hfetch, hnil, ht, hd', ha₁⟩ hjumps, hgives⟩
    · cases h

end Machine

/-- **A call whose result is returned.**  In a function of a validated graph the search from any edge ends.  Where it
says yes for the edge of a call, the machine that resumes this edge with any value goes from there to the return of
this very value: whatever the executor, its state and the callers are, each turn on the way is a jump from a
continuation without instructions, and the last one is a return that gives the value to the caller, or as the result. -/
theorem call_result_is_returned {V : Type} [Values V] {graph : Graph} {tables : Tables} {rounds : ℕ}
    (h : graph.validate tables rounds = .ok ()) {f : Function} (hf : f ∈ graph.functions) :
    (∀ (edge : Edge), ∀ n > f.continuations.length, f.returnsCallResult n edge ≠ .error .unfinished) ∧
    ∀ c ∈ f.continuations, ∀ target signature arguments next suspends,
      c.transition = .call target signature arguments next suspends →
      (∃ b, ∀ n > f.continuations.length, f.returnsCallResult n next = .ok b) ∧
      ∀ n, f.returnsCallResult n next = .ok true →
        ∀ (a : Activation V) (d : Destination V), a.function = f.id → graph.destination a next = .ok d → ∀ x : V,
          ∃ a₁ a₂, graph.arrive d (some x) = .ok a₁ ∧ Relation.ReflTransGen graph.Jumps a₁ a₂ ∧ graph.Gives a₂ x ∧
            ∀ (σ : Type) (execute : Execute V σ) (s : σ),
              (∀ callers, Relation.ReflTransGen (Machine.Silent graph execute s)
                ⟨.ready a₁, callers⟩ ⟨.ready a₂, callers⟩) ∧
              Machine.Silent graph execute s ⟨.ready a₂, []⟩ ⟨.returned x, []⟩ ∧
              ∀ d' callers a', graph.arrive d' (some x) = .ok a' →
                Machine.Silent graph execute s ⟨.ready a₂, d' :: callers⟩ ⟨.ready a', callers⟩ := by
  have hg := Graph.validated_of_validate h
  have hwhole : (f.unvisited .empty).length = f.continuations.length := by
    simp [Function.unvisited]
  refine ⟨fun edge n hn => Function.returnsCarried_ends (by omega), ?_⟩
  intro c hc target signature arguments next suspends ht
  obtain ⟨i, hi⟩ := List.getElem?_of_mem hf
  obtain ⟨hid, _, definitions, live, hvalidated⟩ := hg i f hi
  have hfind : graph.functions.find? (·.id == f.id) = some f := by rw [hid, hg.find_eq, hi]
  have hmem : next ∈ c.transition.edges := by simp [ht, Transition.edges]
  have hfits := hvalidated.fits c hc next hmem
  constructor
  · have hends : ∃ b, f.returnsCarried (f.continuations.length + 1) next none .empty = .ok b :=
      Function.returnsCarried_ok hvalidated.fits hfits (by omega)
    obtain ⟨b, hb⟩ := hends
    exact ⟨b, fun n hn => Function.returnsCarried_mono hn hb⟩
  · intro n hn a d ha hd x
    obtain ⟨_, _, _, _, _, _, _, hedges⟩ := hvalidated.body hc
    have hfindA : graph.functions.find? (·.id == a.function) = some f := ha ▸ hfind
    obtain ⟨hfunction, htarget, harguments, _⟩ := destination_eq_ok hfindA hd
    have hsound := sound_of_destination hfindA hfits (hedges next hmem) hd
    have hcarries : d.Carries next none (some x) x := by
      intro j argument y hargument hy hcarried
      cases argument with
      | value v => simp [carries] at hcarried
      | result =>
        obtain ⟨hj, hargument⟩ := List.getElem?_eq_some_iff.1 hargument
        obtain ⟨hj', hy⟩ := List.getElem?_eq_some_iff.1 hy
        have hread := (collect_eq_ok.1 harguments).get hj hj'
        rw [List.get_eq_getElem, List.get_eq_getElem, hargument, hy] at hread
        simp only [readArgument, pure_eq_ok] at hread
        rw [← hread]
        rfl
    obtain ⟨a₁, a₂, ha₁, hjumps, hgives⟩ := hg.returns_carried hn (hfunction ▸ hfindA) htarget hsound
      (fun _ _ => ⟨x, rfl, trivial⟩) hcarries
    refine ⟨a₁, a₂, ha₁, hjumps, hgives, fun σ execute s => ⟨fun callers => ?_, (hgives.turn execute s).1, ?_⟩⟩
    · exact hjumps.lift (fun a => (⟨.ready a, callers⟩ : Machine V)) fun _ _ hjump => hjump.turn callers execute s
    · exact (hgives.turn execute s).2

/-- Sends its text to the console, and hands the answer on to a continuation that returns it. -/
def relay : Function :=
  { echo with
    name := "relay"
    continuations := [
      { id := 0, parameters := [textValue 0], captures := [], instructions := [], span := ⟨"echo.blot", 0, 1⟩,
        transition := .call (.host "Console" "print") 0 [0] ⟨1, [.result]⟩ true },
      { id := 1, parameters := [textValue 1], captures := [], instructions := [], span := ⟨"echo.blot", 0, 1⟩,
        transition := .jump ⟨2, [.value 1]⟩ },
      { id := 2, parameters := [textValue 2], captures := [], instructions := [], span := ⟨"echo.blot", 0, 1⟩,
        transition := .return 2 }] }

theorem call_result_is_returned_relay :
    ∃ a₁ a₂ : Activation WireConstant,
      Graph.arrive ⟨[relay]⟩ ⟨0, 1, [none], []⟩ (some (.text "done")) = .ok a₁ ∧
        Relation.ReflTransGen (Graph.Jumps ⟨[relay]⟩) a₁ a₂ ∧ Graph.Gives ⟨[relay]⟩ a₂ (.text "done") := by
  have h : Graph.validate ⟨[relay]⟩ echoTables 4 = .ok () := by decide
  have hreturned : relay.returnsCallResult 4 ⟨1, [.result]⟩ = .ok true := by decide
  have hcall : ∃ c ∈ relay.continuations,
      c.transition = .call (.host "Console" "print") 0 [0] ⟨1, [.result]⟩ true :=
    ⟨_, List.mem_cons_self, rfl⟩
  obtain ⟨c, hc, ht⟩ := hcall
  obtain ⟨a₁, a₂, ha₁, hjumps, hgives, _⟩ := (call_result_is_returned h (List.mem_singleton_self relay)).2
    c hc _ _ _ _ _ ht |>.2 4 hreturned ⟨0, 0, [(0, WireConstant.text "hello")]⟩ ⟨0, 1, [none], []⟩ rfl rfl
      (WireConstant.text "done")
  exact ⟨a₁, a₂, ha₁, hjumps, hgives⟩

end Blot.Suspension
