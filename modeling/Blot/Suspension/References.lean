import Blot.Suspension.Flags
import Blot.Suspension.Owning

/-!
# The interpreter runs as the machine that owns references

Each reference stands for the value that it was made for: the values are listed in the order of their references.  A state
of the interpreter is owned when the owner machine is at the same continuation with the same callers, and holds under each
name a reference for the value that the interpreter has there.

* `Has` — a name and a reference have one value;
* `owned_turn` — a turn of the interpreter is a turn of the owner machine, or ends the run;
* `runs_are_owned` — every state of a run is owned, until a trap.
-/

namespace Blot.Suspension

open Blot.Hir Blot.Support

variable {V σ : Type} {made : List V} {values values' : Table ValueId V} {graph : Graph}

/-- The value under a name is the one that the reference was made for. -/
def Has (made : List V) (values : Table ValueId V) (v : ValueId) (r : ℕ) : Prop :=
  ∃ x, values.lookup v = some x ∧ made[r]? = some x

def Carried (made : List V) (values : Table ValueId V) (held : Table ValueId ℕ) : Prop :=
  ∀ p ∈ held, Has made values p.1 p.2

/-- A destination of the interpreter, and the references for it. -/
structure Destination.Owned (graph : Graph) (made : List V) (d : Destination V) (p : Pending) : Prop where
  function : p.function = d.function
  continuation : p.continuation = d.continuation
  arguments : List.Forall₂ (Option.Rel fun x r => made[r]? = some x) d.arguments p.arguments
  captures : ∀ f successor, graph.functions.find? (·.id == d.function) = some f →
    f.continuations[d.continuation]? = some successor →
      List.Forall₂ (fun capture r => Has made d.captures capture.value r) successor.captures p.captures

inductive State.Owned (graph : Graph) (made : List V) : State V → Stage → Table ValueId ℕ → Prop
  | ready {a : Activation V} {held : Table ValueId ℕ} : Carried made a.values held →
      State.Owned graph made (.ready a) (.ready a.function a.continuation) held
  | waiting {d : Destination V} {p : Pending} {held : Table ValueId ℕ} : d.Owned graph made p →
      State.Owned graph made (.waiting d) (.waiting p) held
  | returned {x : V} {r : ℕ} {held : Table ValueId ℕ} : made[r]? = some x →
      State.Owned graph made (.returned x) (.returned r) held

/-- **A state of the interpreter is owned**: the owner machine is where the interpreter is. -/
structure Machine.Owned (graph : Graph) (made : List V) (m : Machine V) (o : Owner) : Prop where
  supply : o.account.supply = made.length
  state : m.state.Owned graph made o.stage o.account.held
  callers : List.Forall₂ (Destination.Owned graph made) m.callers o.callers

/-- A trap, or a poll that went wrong: nothing is owned any more. -/
def Machine.Ended (m : Machine V) : Prop := (∃ message, m.state = .trapped message) ∨ m.state = .running

/-! ### More references -/

section More

variable (later : List V)

theorem getElem?_more {r : ℕ} {x : V} (h : made[r]? = some x) : (made ++ later)[r]? = some x := by
  rw [List.getElem?_append_left (List.getElem?_eq_some_iff.1 h).1, h]

theorem Has.more {v : ValueId} {r : ℕ} (h : Has made values v r) : Has (made ++ later) values v r := by
  obtain ⟨x, hx, hr⟩ := h
  exact ⟨x, hx, getElem?_more later hr⟩

theorem Destination.Owned.more {d : Destination V} {p : Pending} (h : d.Owned graph made p) :
    d.Owned graph (made ++ later) p := by
  refine ⟨h.function, h.continuation, h.arguments.imp fun x r hr => ?_, fun f successor hf hs =>
    (h.captures f successor hf hs).imp fun _ _ hc => hc.more later⟩
  cases hr with
  | none => exact .none
  | some hr => exact .some (getElem?_more later hr)

end More

/-! ### The account -/

/-- The arguments of a call that are read have references. -/
theorem given_has {arguments : List ValueId} {xs : List V} {rs : List ℕ}
    (hxs : List.Forall₂ (fun v x => readValue values v = .ok x) arguments xs)
    (h : List.Forall₂ (Has made values) arguments rs) : List.Forall₂ (fun x r => made[r]? = some x) xs rs := by
  induction hxs generalizing rs with
  | nil =>
    cases h
    exact .nil
  | cons hx _ ih =>
    cases h with
    | cons hv h =>
      obtain ⟨y, hy, hmade⟩ := hv
      cases (demand_eq_ok.1 hx).symm.trans hy
      exact .cons hmade (ih h)

section Account

variable {a a' : Account ValueId}

theorem release_held {v : ValueId} (h : a.release Fault.absentValue v = .ok a') :
    a'.supply = a.supply ∧ a'.held ⊆ a.held := by
  obtain ⟨r, -, heq⟩ := bind_eq_ok.1 h
  cases heq
  exact ⟨rfl, fun p hp => (List.mem_filter.1 hp).1⟩

theorem releaseAll_held {vs : List ValueId} (h : vs.foldlM (Account.release Fault.absentValue) a = .ok a') :
    a'.supply = a.supply ∧ a'.held ⊆ a.held := by
  induction vs generalizing a with
  | nil =>
    cases foldlM_nil_eq_ok.1 h
    exact ⟨rfl, List.Subset.refl _⟩
  | cons v vs ih =>
    obtain ⟨next, hnext, hrest⟩ := foldlM_cons_eq_ok.1 h
    obtain ⟨hsupply, hheld⟩ := release_held hnext
    obtain ⟨hsupply', hheld'⟩ := ih hrest
    exact ⟨hsupply'.trans hsupply, fun p hp => hheld (hheld' hp)⟩

/-- A destination whose key has moved gets a new reference, for the same value. -/
theorem allot_has {held : Table ValueId ℕ} {destinations seen : List ValueId} {supply supply' : ℕ} {rs : List ℕ}
    (hsupply : supply = made.length) (hheld : Carried made values held)
    (h : Account.allot Fault.absentValue held seen destinations supply = .ok (rs, supply')) :
    ∃ more, supply' = (made ++ more).length ∧ List.Forall₂ (Has (made ++ more) values) destinations rs := by
  induction destinations generalizing seen supply made rs with
  | nil =>
    cases h
    exact ⟨[], by simpa using hsupply, .nil⟩
  | cons v destinations ih =>
    obtain ⟨r, hr, hnext⟩ := bind_eq_ok.1 h
    have hv := hheld (v, r) (Table.mem_of_lookup (demand_eq_ok.1 hr))
    split at hnext
    · obtain ⟨⟨rs', last⟩, hrest, heq⟩ := bind_eq_ok.1 hnext
      cases heq
      obtain ⟨x, hx, hmade⟩ := hv
      obtain ⟨more, hlast, hall⟩ := ih (show supply + 1 = (made ++ [x]).length by simp [hsupply])
        (fun p hp => (hheld p hp).more [x]) hrest
      rw [List.append_assoc] at hlast hall
      refine ⟨[x] ++ more, hlast, .cons ⟨x, hx, ?_⟩ hall⟩
      simp [hsupply]
    · obtain ⟨⟨rs', last⟩, hrest, heq⟩ := bind_eq_ok.1 hnext
      cases heq
      obtain ⟨more, hlast, hall⟩ := ih hsupply hheld hrest
      exact ⟨more, hlast, .cons (hv.more more) hall⟩

theorem transfer_has {roots destinations : List ValueId} {rs : List ℕ} (hsupply : a.supply = made.length)
    (hheld : Carried made values a.held)
    (h : a.transfer Fault.absentValue roots destinations = .ok (rs, a')) :
    ∃ more, a'.supply = (made ++ more).length ∧ List.Forall₂ (Has (made ++ more) values) destinations rs := by
  obtain ⟨⟨rs', supply⟩, hallot, hrest⟩ := bind_eq_ok.1 h
  obtain ⟨next, hnext, heq⟩ := bind_eq_ok.1 hrest
  cases heq
  obtain ⟨more, hlength, hall⟩ := allot_has hsupply hheld hallot
  exact ⟨more, (releaseAll_held hnext).1.trans hlength, hall⟩

/-- **The instructions** put a reference for each result; a read is of a value whose reference is held. -/
theorem runInstructions_owned {execute : Execute V σ} {roots : Ascending ValueId} {instructions : List Instruction}
    {s s' : σ} (hsupply : a.supply = made.length) (hheld : Carried made values a.held)
    (hrun : runInstructions execute instructions values s = .ok (.ok values', s'))
    (h : (instructions.zip (scanDrops instructions roots).1).foldlM ownInstruction a = .ok a') :
    ∃ more, a'.supply = (made ++ more).length ∧ Carried (made ++ more) values' a'.held := by
  induction instructions generalizing a made values s with
  | nil =>
    cases hrun
    cases foldlM_nil_eq_ok.1 h
    exact ⟨[], by simpa using hsupply, by simpa using hheld⟩
  | cons i instructions ih =>
    rw [scanDrops, List.zip_cons_cons] at h
    obtain ⟨next, hnext, hrest⟩ := foldlM_cons_eq_ok.1 h
    obtain ⟨arguments, -, hexecute⟩ := bind_eq_ok.1 hrun
    obtain ⟨-, -, hdrops⟩ := bind_eq_ok.1 hnext
    obtain ⟨hnextSupply, hnextHeld⟩ := releaseAll_held hdrops
    split at hexecute
    · next x s₁ _ =>
      have hput : Carried (made ++ [x]) (values.insert i.definition.value x) (a.put i.definition.value).held := by
        intro p hp
        rcases List.mem_cons.1 hp with rfl | hp
        · exact ⟨x, by rw [Table.lookup_insert, if_pos rfl], by simp [hsupply]⟩
        · obtain ⟨hmem, hne⟩ := List.mem_filter.1 hp
          obtain ⟨y, hy, hmade⟩ := (hheld p hmem).more [x]
          exact ⟨y, by rw [Table.lookup_insert, if_neg (by simpa using hne), hy], hmade⟩
      have hlength : next.supply = (made ++ [x]).length := hnextSupply.trans (by simp [Account.put, hsupply])
      obtain ⟨more, hlength, hcarried⟩ := ih hlength (fun p hp => hput p (hnextHeld hp)) hexecute hrest
      rw [List.append_assoc] at hlength hcarried
      exact ⟨[x] ++ more, hlength, hcarried⟩
    · cases hexecute

/-- A function is entered with references for its arguments. -/
theorem enter_carried {parameters : List ValueId} {xs : List V} {rs : List ℕ} (hnodup : parameters.Nodup)
    (hlength : parameters.length = xs.length) (h : List.Forall₂ (fun x r => made[r]? = some x) xs rs) :
    Carried made (Table.extend [] (parameters.zip xs)) (parameters.zip rs) := by
  have hkeys : ((parameters.zip xs).map (·.1)).Nodup := by
    rw [List.map_fst_zip (Nat.le_of_eq hlength)]
    exact hnodup
  have hzip : ∀ p ∈ parameters.zip rs, ∃ x, (p.1, x) ∈ parameters.zip xs ∧ made[p.2]? = some x := by
    clear hnodup hlength hkeys
    induction h generalizing parameters with
    | nil => simp
    | @cons x r xs rs hr _ ih =>
      cases parameters with
      | nil => simp
      | cons v parameters =>
        intro p hp
        rcases List.mem_cons.1 hp with rfl | hp
        · exact ⟨x, List.mem_cons_self, hr⟩
        · obtain ⟨y, hy, hmade⟩ := ih p hp
          exact ⟨y, List.mem_cons_of_mem _ hy, hmade⟩
  intro p hp
  obtain ⟨x, hx, hmade⟩ := hzip p hp
  rw [Has, Table.extend_of_nodup [] _ (by simpa using hkeys), List.nil_append]
  exact ⟨x, Table.lookup_of_mem hkeys hx, hmade⟩

end Account

/-! ### Edges -/

section Edges

variable {d : Destination V} {p : Pending}

/-- The references of an edge are for the arguments that the interpreter reads. -/
theorem fillArguments_owned {arguments : List Argument} {xs : List (Option V)} {rest : List ValueId} {rs : List ℕ}
    (hxs : List.Forall₂ (fun argument x => readArgument values argument = .ok x) arguments xs)
    (h : List.Forall₂ (Has made values) (arguments.filterMap Argument.value? ++ rest) rs) :
    List.Forall₂ (Option.Rel fun x r => made[r]? = some x) xs (fillArguments arguments rs) ∧
      List.Forall₂ (Has made values) rest (rs.drop (arguments.filterMap Argument.value?).length) := by
  induction hxs generalizing rs with
  | nil => exact ⟨.nil, h⟩
  | @cons argument x arguments xs hx _ ih =>
    cases argument with
    | result =>
      cases hx
      obtain ⟨hall, hrest⟩ := ih h
      exact ⟨.cons .none hall, hrest⟩
    | value v =>
      obtain ⟨y, hy, heq⟩ := bind_eq_ok.1 hx
      cases heq
      change List.Forall₂ _ (v :: (arguments.filterMap Argument.value? ++ rest)) rs at h
      cases h with
      | @cons _ r _ rs hv h =>
        obtain ⟨hall, hrest⟩ := ih h
        obtain ⟨z, hz, hmade⟩ := hv
        cases (demand_eq_ok.1 hy).symm.trans hz
        exact ⟨.cons (.some hmade) hall, hrest⟩

theorem pend_owned {a : Activation V} {f : Function} {edge : Edge}
    (hfind : graph.functions.find? (·.id == a.function) = some f) (hd : graph.destination a edge = .ok d)
    {destinations : List ValueId} (hdestinations : f.edgeDestinations edge = .ok destinations) {rs : List ℕ}
    (hrs : List.Forall₂ (Has made a.values) destinations rs) : d.Owned graph made (edge.pend a.function rs) := by
  obtain ⟨hfunction, hcontinuation, harguments, successor, entries, hs, hentries, hcaptures⟩ := destination_eq_ok hfind hd
  obtain ⟨successor', hs', rfl⟩ := edgeDestinations_eq_ok.1 hdestinations
  obtain rfl := Option.some.inj (hs.symm.trans hs')
  obtain ⟨hall, hrest⟩ := fillArguments_owned (collect_eq_ok.1 harguments) hrs
  refine ⟨hfunction.symm, hcontinuation.symm, hall, fun f' successor' hf' hs' => ?_⟩
  rw [hfunction] at hf'
  obtain rfl := Option.some.inj (hfind.symm.trans hf')
  rw [hcontinuation] at hs'
  obtain rfl := Option.some.inj (hs.symm.trans hs')
  refine forall₂_imp_of_mem (List.forall₂_map_left_iff.1 hrest) fun capture r hcapture hhas => ?_
  obtain ⟨x, hx, hmade⟩ := hhas
  exact ⟨x, by rw [hcaptures, lookup_captures hentries hcapture, hx], hmade⟩

/-- Parameters that are bound are held. -/
theorem bindParameters_owned {parameters : List Definition} {result : Option V} {reference : Option ℕ}
    (hresult : Option.Rel (fun x r => made[r]? = some x) result reference) {xs : List (Option V)}
    {rs : List (Option ℕ)} (hxs : List.Forall₂ (Option.Rel fun x r => made[r]? = some x) xs rs)
    (hbound : ∀ entry ∈ parameters.zip xs, values.lookup entry.1.value = entry.2.or result) {references : List ℕ}
    (hown : collect (ownArgument reference) (parameters.zip rs) = .ok references) :
    Carried made values ((parameters.map (·.value)).zip references) := by
  induction parameters generalizing xs rs references with
  | nil => exact List.forall_mem_nil _
  | cons parameter parameters ih =>
    cases hxs with
    | nil =>
      cases hown
      exact List.forall_mem_nil _
    | @cons x r xs rs hx hxs =>
      obtain ⟨k, hk, hrest⟩ := bind_eq_ok.1 hown
      obtain ⟨ks, hks, heq⟩ := bind_eq_ok.1 hrest
      cases heq
      obtain ⟨hparameter, hbound⟩ := List.forall_mem_cons.1 hbound
      refine List.forall_mem_cons.2 ⟨?_, ih hxs hbound hks⟩
      have hrel : Option.Rel (fun x r => made[r]? = some x) (x.or result) (r.or reference) := by
        cases hx with
        | none => exact hresult
        | some h => exact .some h
      rw [demand_eq_ok.1 hk, ← hparameter] at hrel
      generalize hvalue : values.lookup parameter.value = value at hrel
      cases hrel with
      | some hmade => exact ⟨_, hvalue, hmade⟩

/-- **A destination that is arrived at** is entered by the owner machine. -/
theorem settle_owned {result : Option V} {reference : Option ℕ} {callers : List Pending} {a : Account ValueId}
    {next : Activation V} {o : Owner} (h : d.Owned graph made p)
    (hresult : Option.Rel (fun x r => made[r]? = some x) result reference)
    (hcontinuation : ∀ f successor, graph.functions.find? (·.id == d.function) = some f →
      f.continuations[d.continuation]? = some successor →
        p.arguments.length = successor.parameters.length ∧ (successor.inputs.map (·.value)).Nodup)
    (harrive : graph.arrive d result = .ok next) (hsettle : graph.settle p reference callers a = .ok o) :
    o.callers = callers ∧ o.account.supply = a.supply ∧
      State.Owned graph made (.ready next) o.stage o.account.held := by
  simp only [Graph.arrive, Graph.settle, Graph.find, Function.fetch, bind_eq_ok, demand_eq_ok, pure_eq_ok, h.function,
    h.continuation] at harrive hsettle
  obtain ⟨f, hf, successor, hs, values, hvalues, rfl⟩ := harrive
  obtain ⟨f', hf', successor', hs', references, hreferences, rfl⟩ := hsettle
  obtain rfl := Option.some.inj (hf.symm.trans hf')
  obtain rfl := Option.some.inj (hs.symm.trans hs')
  obtain ⟨hlength, hnodup⟩ := hcontinuation f successor hf hs
  rw [Continuation.inputs, List.map_append] at hnodup
  obtain ⟨hparameters, -, hapart⟩ := List.nodup_append.1 hnodup
  obtain ⟨hbound, hothers⟩ := bindParameters_lookup hparameters hvalues
  have hcarried := bindParameters_owned hresult h.arguments hbound hreferences
  refine ⟨rfl, rfl, .ready fun entry hentry => ?_⟩
  have hcount : (successor.parameters.map (·.value)).length = references.length := by
    rw [collect_length hreferences, List.length_map, List.length_zip, hlength, Nat.min_self]
  rw [Account.enter, Continuation.inputs, List.map_append, List.zip_append hcount] at hentry
  rcases List.mem_append.1 hentry with hentry | hentry
  · exact hcarried entry hentry
  · have hhas := List.forall₂_iff_zip.1 (List.forall₂_map_left_iff.2 (h.captures f successor hf hs))
    obtain ⟨x, hx, hmade⟩ := hhas.2 hentry
    have hnot : entry.1 ∉ successor.parameters.map (·.value) := fun hm =>
      hapart _ hm _ (List.of_mem_zip hentry).1 rfl
    exact ⟨x, by rw [hothers _ hnot, hx], hmade⟩

end Edges

/-! ### Turns -/

section Turns

variable [Values V] {a : Activation V} {f : Function} {account : Account ValueId} {callers : List (Destination V)}
  {pendings : List Pending} {turn : Turn V} {o : Owner}

omit [Values V] in
theorem more_callers (hcallers : List.Forall₂ (Destination.Owned graph made) callers pendings) (later : List V) :
    List.Forall₂ (Destination.Owned graph (made ++ later)) callers pendings :=
  hcallers.imp fun _ _ h => h.more later

def Turn.machine : Turn V → Machine V
  | .on machine => machine
  | .leave _ machine => machine

/-- What a transition needs of the account: references for what the interpreter holds. -/
structure Stands (graph : Graph) (made : List V) (f : Function) (a : Activation V) (callers : List (Destination V))
    (account : Account ValueId) (pendings : List Pending) : Prop where
  function : graph.functions.find? (·.id == a.function) = some f
  supply : account.supply = made.length
  carried : Carried made a.values account.held
  callers : List.Forall₂ (Destination.Owned graph made) callers pendings

variable (h : Stands graph made f a callers account pendings)

include h

omit [Values V] in
/-- **An edge that the interpreter follows.** -/
theorem Stands.follow {edge : Edge} (hfits : f.Fits edge)
    (hnodup : ∀ successor, f.continuations[edge.target]? = some successor → (successor.inputs.map (·.value)).Nodup)
    {roots : List ValueId} (hfollow : graph.follow a callers edge = .ok turn)
    (hpass : (do
      let destinations ← f.edgeDestinations edge
      let (rs, account) ← account.transfer Fault.absentValue roots destinations
      graph.settle (edge.pend a.function rs) none pendings account) = .ok o) :
    ∃ later, turn.machine.Owned graph (made ++ later) o := by
  obtain ⟨d, hd, hrest⟩ := bind_eq_ok.1 hfollow
  obtain ⟨next, harrive, heq⟩ := bind_eq_ok.1 hrest
  cases heq
  obtain ⟨destinations, hdestinations, hrest⟩ := bind_eq_ok.1 hpass
  obtain ⟨⟨rs, account'⟩, htransfer, hsettle⟩ := bind_eq_ok.1 hrest
  obtain ⟨later, hsupply, hrs⟩ := transfer_has h.supply h.carried htransfer
  have howned := pend_owned h.function hd hdestinations hrs
  obtain ⟨hfunction, hcontinuation, -⟩ := destination_eq_ok h.function hd
  obtain ⟨hcallers, hsupply', hstate⟩ := settle_owned howned .none (fun f' successor hf hs => by
    rw [hfunction] at hf
    obtain rfl := Option.some.inj (h.function.symm.trans hf)
    rw [hcontinuation] at hs
    obtain ⟨successor', hs', hlength⟩ := hfits
    obtain rfl := Option.some.inj (hs.symm.trans hs')
    exact ⟨(fillArguments_length _ _).trans hlength.symm, hnodup successor hs⟩) harrive hsettle
  exact ⟨later, hsupply'.trans hsupply, hstate, hcallers ▸ more_callers h.callers later⟩

/-- **A transition of the interpreter** is one of the owner machine, with some choice of an edge. -/
theorem Stands.transfer {transition : Transition} (hfits : ∀ edge ∈ transition.edges, f.Fits edge)
    (hnodup : ∀ edge ∈ transition.edges, ∀ successor, f.continuations[edge.target]? = some successor →
      (successor.inputs.map (·.value)).Nodup)
    (hpendings : ∀ p ∈ pendings, ∀ g successor, graph.functions.find? (·.id == p.function) = some g →
      g.continuations[p.continuation]? = some successor →
        p.arguments.length = successor.parameters.length ∧ (successor.inputs.map (·.value)).Nodup)
    (hentries : ∀ g first, g ∈ graph.functions → g.continuations[g.entry]? = some first →
      (first.parameters.map (·.value)).Nodup)
    {roots : List ValueId} (htransfer : graph.transfer a callers transition = .ok turn) :
    turn.machine.Ended ∨ ∃ choice, ∀ o, graph.pass a.function f roots choice pendings account transition = .ok o →
      ∃ later, turn.machine.Owned graph (made ++ later) o := by
  have hbranch (edge : Edge) (hedge : edge ∈ transition.edges) (hturn : graph.follow a callers edge = .ok turn) :
      ∃ choice, ∀ o, (do
        let _ ← collect (account.read Fault.absentValue) transition.uses
        let edge ← demand (transition.edgeAt choice) (.absentContinuation choice)
        let destinations ← f.edgeDestinations edge
        let (rs, account) ← account.transfer Fault.absentValue roots destinations
        graph.settle (edge.pend a.function rs) none pendings account) = .ok o →
          ∃ later, turn.machine.Owned graph (made ++ later) o := by
    obtain ⟨choice, hchoice⟩ := List.getElem?_of_mem hedge
    refine ⟨choice, fun o ho => ?_⟩
    obtain ⟨_, -, hrest⟩ := bind_eq_ok.1 ho
    rw [Transition.edgeAt, hchoice] at hrest
    exact h.follow (hfits edge hedge) (hnodup edge hedge) hturn hrest
  cases transition with
  | jump edge => exact .inr (hbranch edge (List.mem_singleton_self _) htransfer)
  | branch condition consequent alternate =>
    obtain ⟨x, -, hcondition⟩ := bind_eq_ok.1 htransfer
    split at hcondition
    · exact .inr (hbranch _ (by simp only [Transition.edges]; split <;> simp) hcondition)
    · cases hcondition
      exact .inl (.inr rfl)
  | switch selector cases fallback =>
    obtain ⟨edge, hedge, hturn⟩ := bind_eq_ok.1 htransfer
    exact .inr (hbranch edge (selectCase_mem hedge) hturn)
  | call target signature arguments next suspends =>
    obtain ⟨xs, hxs, hrest⟩ := bind_eq_ok.1 htransfer
    obtain ⟨d, hd, hcall⟩ := bind_eq_ok.1 hrest
    have hrequest (o : Owner) (ho : (do
        let destinations ← f.edgeDestinations next
        let (rs, account) ← account.transfer Fault.absentValue roots destinations
        pure (Owner.mk (.waiting (next.pend a.function rs)) pendings account)) = .ok o) :
        ∃ later, Machine.Owned graph (made ++ later) ⟨.waiting d, callers⟩ o := by
      obtain ⟨destinations, hdestinations, ho⟩ := bind_eq_ok.1 ho
      obtain ⟨⟨rs, account'⟩, htransfer, heq⟩ := bind_eq_ok.1 ho
      cases heq
      obtain ⟨later, hsupply, hrs⟩ := transfer_has h.supply h.carried htransfer
      exact ⟨later, hsupply, .waiting (pend_owned h.function hd hdestinations hrs), more_callers h.callers later⟩
    cases target with
    | host capability operation | link unit name =>
      cases hcall
      refine .inr ⟨0, fun o ho => ?_⟩
      obtain ⟨-, -, ho⟩ := bind_eq_ok.1 ho
      exact hrequest o ho
    | function callee =>
      obtain ⟨answer, hnew, hturn⟩ := bind_eq_ok.1 hcall
      cases answer with
      | error message =>
        cases hturn
        exact .inl (.inr rfl)
      | ok called =>
        cases hturn
        obtain ⟨g, first, hg, hfirst, hlength, rfl⟩ := Machine.of_new hnew
        refine .inr ⟨0, fun o ho => ?_⟩
        obtain ⟨-, -, ho⟩ := bind_eq_ok.1 ho
        obtain ⟨destinations, hdestinations, ho⟩ := bind_eq_ok.1 ho
        obtain ⟨⟨rs, account'⟩, htransfer, ho⟩ := bind_eq_ok.1 ho
        simp only [Graph.find, Function.fetch, bind_eq_ok, demand_eq_ok, pure_eq_ok] at ho
        obtain ⟨g', hg', first', hfirst', rfl⟩ := ho
        obtain rfl := Option.some.inj (hg.symm.trans hg')
        obtain rfl := Option.some.inj (hfirst.symm.trans hfirst')
        obtain ⟨later, hsupply, hrs⟩ := transfer_has h.supply h.carried htransfer
        have hflip : List.Forall₂ (flip (Has (made ++ later) a.values)) rs (destinations ++ arguments) := hrs.flip
        have hnext := (List.forall₂_take_append rs destinations arguments hflip).flip
        have harguments := (List.forall₂_drop_append rs destinations arguments hflip).flip
        refine ⟨later, hsupply, .ready (enter_carried (hentries g first (List.mem_of_find?_eq_some hg) hfirst)
          (by rw [List.length_map, hlength]) ?_), .cons (pend_owned h.function hd hdestinations hnext)
            (more_callers h.callers later)⟩
        exact given_has (collect_eq_ok.1 hxs) harguments
  | «return» value =>
    obtain ⟨x, hx, hreturn⟩ := bind_eq_ok.1 htransfer
    refine .inr ⟨0, fun o ho => ?_⟩
    obtain ⟨⟨r, account'⟩, htake, hpass⟩ := bind_eq_ok.1 ho
    obtain ⟨r', hr, heq⟩ := bind_eq_ok.1 htake
    cases heq
    obtain ⟨y, hy, hmade⟩ := h.carried _ (Table.mem_of_lookup (demand_eq_ok.1 hr))
    cases (demand_eq_ok.1 hx).symm.trans hy
    have hcallers := h.callers
    cases hcallers with
    | nil =>
      cases hreturn
      cases hpass
      exact ⟨[], by simpa using h.supply, .returned (by simpa using hmade), .nil⟩
    | cons howned hcallers =>
      obtain ⟨next, harrive, heq⟩ := bind_eq_ok.1 hreturn
      cases heq
      obtain ⟨hsame, hsupply, hstate⟩ := settle_owned howned (.some hmade) (fun g successor hg hs =>
        hpendings _ List.mem_cons_self g successor (howned.function ▸ hg) (howned.continuation ▸ hs)) harrive hpass
      refine ⟨[], ?_, ?_, ?_⟩
      · simpa using hsupply.trans h.supply
      · exact (List.append_nil made).symm ▸ hstate
      · rw [List.append_nil, hsame]
        exact hcallers
  | trap message =>
    cases htransfer
    exact .inl (.inl ⟨message, rfl⟩)

end Turns

/-! ### Runs -/

section Runs

variable [Values V] (hfilled : ∀ f ∈ graph.functions, f.Filled)
  (hpasses : ∀ f ∈ graph.functions, ∀ c ∈ f.continuations, graph.Passes c) {m m' : Machine V} {o : Owner}

omit [Values V] in
include hfilled in
/-- What a sound owner machine keeps for a continuation. -/
theorem Pending.Sound.inputs {p : Pending} {opened : ℕ} (hp : p.Sound graph opened) {f : Function}
    {successor : Continuation} (hf : graph.functions.find? (·.id == p.function) = some f)
    (hs : f.continuations[p.continuation]? = some successor) :
    p.arguments.length = successor.parameters.length ∧ (successor.inputs.map (·.value)).Nodup := by
  obtain ⟨f', successor', hf', hs', hreached, hlength, -⟩ := hp
  obtain rfl := Option.some.inj (hf.symm.trans hf')
  obtain rfl := Option.some.inj (hs.symm.trans hs')
  exact ⟨hlength, inputs_nodup hfilled hf hs hreached⟩

include hfilled hpasses

/-- **A turn of the interpreter is a turn of the owner machine**, or ends the run. -/
theorem owned_turn (ho : o.Sound graph)
    (h : m.Owned graph made o) {execute : Execute V σ} {s s' : σ} {turn : Turn V}
    (hturn : m.turn graph execute s = .ok (turn, s')) :
    turn.machine.Ended ∨ ∃ choice o' later, o.turn graph choice = .ok o' ∧
      turn.machine.Owned graph (made ++ later) o' := by
  obtain ⟨state, callers⟩ := m
  obtain ⟨stage, pendings, account⟩ := o
  have hstate := h.state
  cases hstate with
  | waiting hd =>
    cases hturn
    exact .inr ⟨0, _, [], rfl, (List.append_nil made).symm ▸ h⟩
  | returned hx =>
    cases hturn
    exact .inr ⟨0, _, [], rfl, (List.append_nil made).symm ▸ h⟩
  | @ready a _ hcarried =>
    simp only [Machine.turn, Graph.find, Function.fetch, bind_eq_ok, demand_eq_ok] at hturn
    obtain ⟨f, hfind, c, hc, ⟨outcome, s''⟩, hrun, hturn⟩ := hturn
    cases outcome with
    | error message =>
      cases hturn
      exact .inl (.inl ⟨message, rfl⟩)
    | ok values =>
      obtain ⟨turn', htransfer, heq⟩ := bind_eq_ok.1 hturn
      cases heq
      obtain ⟨f', c', hfind', hc', hreached, -⟩ := ho.stage
      obtain rfl := Option.some.inj (hfind.symm.trans hfind')
      obtain rfl := Option.some.inj (hc.symm.trans hc')
      have hf := List.mem_of_find?_eq_some hfind
      -- what the owner machine does before the transition does not depend on the choice of an edge
      obtain ⟨l, start, account', hl, hstart, haccount, hpass⟩ : ∃ l start account', f.lifetimes c = .ok l ∧
          l.entryDrops.foldlM (Account.release Fault.absentValue) account = .ok start ∧
          (c.instructions.zip l.instructionDrops).foldlM ownInstruction start = .ok account' ∧
          ∀ choice, ∃ o', Owner.turn graph choice ⟨.ready a.function a.continuation, pendings, account⟩ = .ok o' ∧
            graph.pass a.function f l.transitionRoots.elements choice pendings account' c.transition = .ok o' := by
        have hall (choice : ℕ) := ho.turn hfilled hpasses choice
        simp only [Owner.turn, Graph.find, Function.fetch, demand_eq_ok.2 hfind, demand_eq_ok.2 hc, ok_bind,
          bind_eq_ok] at hall ⊢
        obtain ⟨-, ⟨l, hl, start, hstart, account', haccount, -⟩, -⟩ := hall 0
        refine ⟨l, start, account', hl, hstart, haccount, fun choice => ?_⟩
        obtain ⟨o', ⟨l', hl', start', hstart', account'', haccount', hpass⟩, -⟩ := hall choice
        obtain rfl := Except.ok.inj (hl.symm.trans hl')
        obtain rfl := Except.ok.inj (hstart.symm.trans hstart')
        obtain rfl := Except.ok.inj (haccount.symm.trans haccount')
        exact ⟨o', ⟨l, hl, start, hstart, account', haccount, hpass⟩, hpass⟩
      obtain ⟨roots, -, heq⟩ := bind_eq_ok.1 hl
      cases heq
      obtain ⟨hsupply, hheld⟩ := releaseAll_held hstart
      obtain ⟨more, hmore, hcarried'⟩ := runInstructions_owned (hsupply.trans h.supply) (fun p hp => hcarried p (hheld hp))
        hrun haccount
      have hstands : Stands graph (made ++ more) f { a with values } callers account' pendings :=
        ⟨hfind, hmore, hcarried', more_callers h.callers more⟩
      rcases hstands.transfer ((hfilled f hf).fits c (List.mem_of_getElem? hc))
        (fun edge hedge successor hs => inputs_nodup hfilled hfind hs (hreached.edge hc hedge))
        (fun p hp g successor hg hs => (ho.callers p hp).inputs hfilled hg hs)
        (fun g first hg hfirst => by
          have hinputs := (List.nodup_append.1 ((hfilled g hg).holdings_nodup .entry hfirst)).1
          rw [Continuation.inputs, List.map_append] at hinputs
          exact (List.nodup_append.1 hinputs).1) htransfer with hended | ⟨choice, hchoice⟩
      · exact .inl hended
      · obtain ⟨o', ho', hpass'⟩ := hpass choice
        obtain ⟨later, howned⟩ := hchoice o' hpass'
        exact .inr ⟨choice, o', more ++ later, ho', by rwa [← List.append_assoc]⟩

omit hfilled hpasses in
/-- A run that has ended stays so. -/
theorem Machine.Ended.poll (h : m.Ended) {execute : Execute V σ} {quantum : ℕ} {s s' : σ}
    {reply : Except String (Observation V)} (hpoll : m.poll graph execute quantum s = .ok (reply, m', s')) : m'.Ended := by
  cases quantum with
  | zero =>
    cases hpoll
    exact h
  | succ quantum =>
    obtain ⟨state, callers⟩ := m
    rcases h with ⟨message, rfl⟩ | rfl
    · cases hpoll
      exact .inl ⟨message, rfl⟩
    · cases hpoll
      exact .inr rfl

/-- **A poll of the interpreter** is a sequence of turns of the owner machine. -/
theorem owned_poll {id : FunctionId}
    (ho : Owner.Reaches graph id o) (h : m.Owned graph made o) {execute : Execute V σ} {quantum : ℕ} {s s' : σ}
    {reply : Except String (Observation V)} (hpoll : m.poll graph execute quantum s = .ok (reply, m', s')) :
    m'.Ended ∨ ∃ o' later, Owner.Reaches graph id o' ∧ m'.Owned graph (made ++ later) o' := by
  induction quantum generalizing m o made s with
  | zero =>
    cases hpoll
    exact .inr ⟨o, [], ho, (List.append_nil made).symm ▸ h⟩
  | succ quantum ih =>
    obtain ⟨⟨turn, s''⟩, hturn, hrest⟩ := bind_eq_ok.1 hpoll
    have hstep := owned_turn hfilled hpasses (Owner.sound_of_reaches hfilled hpasses ho) h hturn
    cases turn with
    | on machine =>
      rcases hstep with hended | ⟨choice, o', later, ho', howned⟩
      · exact .inl (hended.poll hrest)
      · exact (ih (ho.turn ho') howned hrest).imp_right fun ⟨o'', later', ho'', howned'⟩ =>
          ⟨o'', later ++ later', ho'', by rwa [← List.append_assoc]⟩
    | leave reply' machine =>
      cases hrest
      exact hstep.imp_right fun ⟨choice, o', later, ho', howned⟩ => ⟨o', later, ho.turn ho', howned⟩

omit [Values V] in
/-- **A request that settles**: the response gets a reference. -/
theorem owned_resume {id : FunctionId}
    (ho : Owner.Reaches graph id o) (h : m.Owned graph made o) {value : V} {reply : Except String Unit}
    (hresume : m.resume graph value = .ok (reply, m')) :
    ∃ o' later, Owner.Reaches graph id o' ∧ m'.Owned graph (made ++ later) o' := by
  have hsound := Owner.sound_of_reaches hfilled hpasses ho
  obtain ⟨state, callers⟩ := m
  obtain ⟨stage, pendings, account⟩ := o
  have hstate := h.state
  cases hstate with
  | ready hcarried =>
    cases hresume
    exact ⟨_, [], ho, (List.append_nil made).symm ▸ h⟩
  | returned hx =>
    cases hresume
    exact ⟨_, [], ho, (List.append_nil made).symm ▸ h⟩
  | @waiting d p _ hd =>
    obtain ⟨next, harrive, heq⟩ := bind_eq_ok.1 hresume
    cases heq
    obtain ⟨o', ho', -⟩ := hsound.resume hfilled
    have hmade : (made ++ [value])[account.supply]? = some value := by
      rw [h.supply, List.getElem?_concat_length]
    obtain ⟨hcallers, hsupply, hready⟩ := settle_owned (hd.more [value]) (.some hmade) (fun g successor hg hs =>
      hsound.stage.1.inputs hfilled (hd.function ▸ hg) (hd.continuation ▸ hs)) harrive ho'
    refine ⟨o', [value], ho.resume ho', ?_, hready, hcallers ▸ more_callers h.callers [value]⟩
    rw [hsupply, List.length_append]
    exact congrArg Nat.succ h.supply

omit [Values V] hpasses in
/-- A run starts with references for its arguments. -/
theorem owned_start {function : FunctionId} {arguments : List V}
    (h : Machine.new graph function arguments = .ok (.ok m)) :
    ∃ o, Owner.start graph function = .ok o ∧ m.Owned graph arguments o := by
  obtain ⟨f, first, hfind, hfirst, hlength, rfl⟩ := Machine.of_new h
  have hinputs := inputs_nodup hfilled hfind hfirst .entry
  rw [Continuation.inputs, List.map_append] at hinputs
  have hrange : List.Forall₂ (fun x r => arguments[r]? = some x) arguments (List.range arguments.length) := by
    rw [List.forall₂_iff_get]
    simp
  have hcarried := enter_carried (List.nodup_append.1 hinputs).1 (by rw [List.length_map, hlength]) hrange
  refine ⟨_, by simp [Owner.start, Graph.find, Function.fetch, hfind, hfirst, demand]; rfl, ?_, .ready ?_, .nil⟩
  · exact hlength
  · rw [← hlength] at hcarried
    exact hcarried

/-- **Every state of a run is owned**, until a trap. -/
theorem owned_of_runs (hm : Runs graph m) :
    m.Ended ∨ ∃ id o made, Owner.Reaches graph id o ∧ m.Owned graph made o := by
  induction hm with
  | @start function arguments _ hstart =>
    obtain ⟨o, ho, howned⟩ := owned_start hfilled hstart
    exact .inr ⟨function, o, arguments, .start ho, howned⟩
  | poll _ hpoll ih =>
    rcases ih with hended | ⟨id, o, made, ho, howned⟩
    · exact .inl (hended.poll hpoll)
    · exact (owned_poll hfilled hpasses ho howned hpoll).imp_right fun ⟨o', later, ho', howned'⟩ =>
        ⟨id, o', made ++ later, ho', howned'⟩
  | @resume m _ _ _ _ hresume ih =>
    rcases ih with hended | ⟨id, o, made, ho, howned⟩
    · obtain ⟨state, callers⟩ := m
      rcases hended with ⟨message, rfl⟩ | rfl
      · cases hresume
        exact .inl (.inl ⟨message, rfl⟩)
      · cases hresume
        exact .inl (.inr rfl)
    · obtain ⟨o', later, ho', howned'⟩ := owned_resume hfilled hpasses ho howned hresume
      exact .inr ⟨id, o', made ++ later, ho', howned'⟩
  | cancel _ _ => exact .inl (.inl ⟨_, rfl⟩)

end Runs

end Blot.Suspension
