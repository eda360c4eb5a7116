import Blot.Hir.Flow
import Blot.Suspension.Direct

/-!
# A function of a module is replaced

What a run does next is what its innermost activation does by itself, and what that makes of the callers.  Where the
activations of two functions go together, a module shows the host the same with the one and with the other.

* `Deed` — what an activation does next, whatever called it; `move_eq` takes the moves of a run apart;
* `Replaces` — activations of two functions that go together; a call of the old function may be a jump of the new one,
  whose caller then waits only to give the result on;
* `Replaces.ends_iff` — the outcomes are the same.
-/

namespace Blot.Suspension.Direct

open Blot.Hir Blot.Support Blot.Support.Lockstep

variable {V σ : Type}

/-! ### What an activation does -/

/-- What an activation does next, whatever called it. -/
inductive Deed (V : Type) where
  | on (state : State V)
  | call (target : CallTarget) (arguments : List V) (values : Table ValueId V) (await : Await)
  | returned (value : V)
  | trapped (message : String)
  | refused (message : String)

def callDeed (values : Table ValueId V) (target : CallTarget) (arguments : List ValueId) (await : Await) :
    Except Fault (Deed V) := do
  let xs ← collect (readValue values) arguments
  pure (.call target xs values await)

def returnDeed (values : Table ValueId V) (value : ValueId) : Except Fault (Deed V) := do
  let x ← readValue values value
  pure (.returned x)

def Deed.carry (module : StagedModule) (callers : List (Table ValueId V × Await)) :
    Deed V → Except Fault (Move (Run V) V)
  | .on state => pure (.on ⟨state, callers⟩)
  | .call (.function function) xs values await => do
    match ← Direct.call module function xs with
    | .ok callee => pure (.on ⟨callee, (values, await) :: callers⟩)
    | .error message => pure (.refused message)
  | .call target xs values await => pure (.request target xs ⟨.waiting values await, callers⟩)
  | .returned x =>
    match callers with
    | [] => pure (.returned x)
    | (values, await) :: callers => do
      let state ← await.take values x
      pure (.on ⟨state, callers⟩)
  | .trapped message => pure (.trapped message)
  | .refused message => pure (.refused message)

variable [Values V]

def terminateDeed (function : StagedFunction) (values : Table ValueId V) :
    StagedTerminator → Except Fault (Deed V)
  | .branch target arguments _ => do
    let state ← enter function values target arguments
    pure (.on state)
  | .conditional condition consequent consequentArguments alternate alternateArguments _ => do
    let x ← readValue values condition
    match Values.condition x with
    | .ok true => do
      let state ← enter function values consequent consequentArguments
      pure (.on state)
    | .ok false => do
      let state ← enter function values alternate alternateArguments
      pure (.on state)
    | .error message => pure (.refused message)
  | .switch selector cases fallback _ => do
    let x ← readValue values selector
    let chosen := ((cases.find? fun switchCase => Values.matches x switchCase.value).map (·.target)).getD fallback
    let state ← enter function values chosen []
    pure (.on state)
  | .return value _ => returnDeed values value
  | .trap message _ => pure (.trapped message)

def transferDeed (function : Function) (values : Table ValueId V) : Transition → Except Fault (Deed V)
  | .jump edge => do
    let state ← follow function values edge none
    pure (.on state)
  | .branch condition consequent alternate => do
    let x ← readValue values condition
    match Values.condition x with
    | .ok b => do
      let state ← follow function values (if b then consequent else alternate) none
      pure (.on state)
    | .error message => pure (.refused message)
  | .switch selector cases fallback => do
    let edge ← selectCase values selector cases fallback
    let state ← follow function values edge none
    pure (.on state)
  | .call target _ arguments next _ => callDeed values target arguments (.edge function next)
  | .return value => returnDeed values value
  | .trap message => pure (.trapped message)

def deed (execute : Execute V σ) (state : State V) (s : σ) : Except Fault (Deed V × σ) :=
  match state with
  | .waiting _ _ => pure (.refused "pending request must settle before polling", s)
  | .running values (.staged function [] terminator) => do
    let d ← terminateDeed function values terminator
    pure (d, s)
  | .running values (.staged function (operation :: operations) terminator) =>
    if isCall operation then do
      let target ← target operation
      let d ← callDeed values target operation.operands
        (.bind operation.result (.staged function operations terminator))
      pure (d, s)
    else do
      let xs ← collect (readValue values) operation.operands
      match execute (instruction operation) xs s with
      | (.ok x, s) =>
        pure (.on (.running (values.insert operation.result x) (.staged function operations terminator)), s)
      | (.error message, s) => pure (.trapped message, s)
  | .running values (.checked function [] transition) => do
    let d ← transferDeed function values transition
    pure (d, s)
  | .running values (.checked function (i :: instructions) transition) => do
    let xs ← collect (readValue values) i.operands
    match execute i xs s with
    | (.ok x, s) =>
      pure (.on (.running (values.insert i.definition.value x) (.checked function instructions transition)), s)
    | (.error message, s) => pure (.trapped message, s)

section Carry

variable (module : StagedModule) (callers : List (Table ValueId V × Await))

omit [Values V] in
theorem callOut_eq (values : Table ValueId V) (target : CallTarget) (arguments : List ValueId) (await : Await) :
    callOut module values callers target arguments await =
      callDeed values target arguments await >>= Deed.carry module callers := by
  unfold callOut callDeed
  rcases collect (readValue values) arguments with fault | xs
  · rfl
  · cases target <;> rfl

omit [Values V] in
theorem giveBack_eq (values : Table ValueId V) (value : ValueId) :
    giveBack values callers value = returnDeed values value >>= Deed.carry module callers := by
  unfold giveBack returnDeed
  rcases readValue values value with fault | x
  · rfl
  · rcases callers with _ | ⟨⟨values', await⟩, callers⟩ <;> rfl

theorem terminate_eq (function : StagedFunction) (values : Table ValueId V) (terminator : StagedTerminator) :
    terminate function values callers terminator =
      terminateDeed function values terminator >>= Deed.carry module callers := by
  cases terminator with
  | branch target arguments span =>
    simp only [terminate, terminateDeed]
    rcases enter function values target arguments with fault | state <;> rfl
  | conditional condition consequent consequentArguments alternate alternateArguments span =>
    simp only [terminate, terminateDeed]
    rcases readValue values condition with fault | x
    · rfl
    · simp only [ok_bind]
      rcases Values.condition x with message | (_ | _)
      · rfl
      · rcases enter function values alternate alternateArguments with fault | state <;> rfl
      · rcases enter function values consequent consequentArguments with fault | state <;> rfl
  | switch selector cases fallback span =>
    simp only [terminate, terminateDeed]
    rcases readValue values selector with fault | x
    · rfl
    · simp only [ok_bind]
      rcases enter function values _ [] with fault | state <;> rfl
  | «return» value span => exact giveBack_eq module callers values value
  | trap message span => rfl

theorem transfer_eq (function : Function) (values : Table ValueId V) (transition : Transition) :
    transfer module function values callers transition =
      transferDeed function values transition >>= Deed.carry module callers := by
  cases transition with
  | jump edge =>
    simp only [transfer, transferDeed]
    rcases follow function values edge none with fault | state <;> rfl
  | branch condition consequent alternate =>
    simp only [transfer, transferDeed]
    rcases readValue values condition with fault | x
    · rfl
    · simp only [ok_bind]
      rcases Values.condition x with message | b
      · rfl
      · simp only []
        rcases follow function values (if b then consequent else alternate) none with fault | state <;> rfl
  | switch selector cases fallback =>
    simp only [transfer, transferDeed]
    rcases selectCase values selector cases fallback with fault | edge
    · rfl
    · simp only [ok_bind]
      rcases follow function values edge none with fault | state <;> rfl
  | call target signature arguments next suspends => exact callOut_eq module callers values target arguments _
  | «return» value => exact giveBack_eq module callers values value
  | trap message => rfl

/-- **A move of a run** is what its innermost activation does. -/
theorem move_eq (execute : Execute V σ) (state : State V) (s : σ) :
    move module execute ⟨state, callers⟩ s =
      deed execute state s >>= fun p => p.1.carry module callers >>= fun m => pure (m, p.2) := by
  rcases state with ⟨values, ⟨function, _ | ⟨operation, operations⟩, terminator⟩ |
    ⟨function, _ | ⟨i, instructions⟩, transition⟩⟩ | ⟨values, await⟩
  · simp only [move, deed, terminate_eq module callers]
    rcases terminateDeed function values terminator with fault | d <;> rfl
  · simp only [move, deed]
    split
    · simp only [callOut_eq]
      rcases target operation with fault | t
      · rfl
      · simp only [ok_bind]
        rcases callDeed values t operation.operands _ with fault | d <;> rfl
    · rcases collect (readValue values) operation.operands with fault | xs
      · rfl
      · simp only [ok_bind]
        rcases execute (instruction operation) xs s with ⟨message | x, s'⟩ <;> rfl
  · simp only [move, deed, transfer_eq module callers]
    rcases transferDeed function values transition with fault | d <;> rfl
  · simp only [move, deed]
    rcases collect (readValue values) i.operands with fault | xs
    · rfl
    · simp only [ok_bind]
      rcases execute i xs s with ⟨message | x, s'⟩ <;> rfl
  · rfl

theorem store_of_returned {execute : Execute V σ} {state : State V} {s s' : σ} {x : V}
    (h : deed execute state s = .ok (.returned x, s')) : s' = s := by
  rcases state with ⟨values, ⟨function, _ | ⟨operation, operations⟩, terminator⟩ |
    ⟨function, _ | ⟨i, instructions⟩, transition⟩⟩ | ⟨values, await⟩
  · simp only [deed, bind_eq_ok, pure_eq_ok, Prod.mk.injEq] at h
    obtain ⟨_, _, _, rfl⟩ := h
    rfl
  · simp only [deed] at h
    split at h
    · simp only [bind_eq_ok, pure_eq_ok, Prod.mk.injEq] at h
      obtain ⟨_, _, _, _, _, rfl⟩ := h
      rfl
    · simp only [bind_eq_ok] at h
      obtain ⟨xs, _, h⟩ := h
      split at h <;> cases h
  · simp only [deed, bind_eq_ok, pure_eq_ok, Prod.mk.injEq] at h
    obtain ⟨_, _, _, rfl⟩ := h
    rfl
  · simp only [deed, bind_eq_ok] at h
    obtain ⟨xs, _, h⟩ := h
    split at h <;> cases h
  · cases h

end Carry

/-! ### Places of a staged function -/

/-- A place in an activation of a staged function: its values, the operations to come and the end of the block. -/
structure Place (V : Type) where
  values : Table ValueId V
  operations : List StagedOperation
  terminator : StagedTerminator

section Place

variable (p : Place V) (f : StagedFunction)

def Place.position : Position := .staged f p.operations p.terminator

def Place.state : State V := .running p.values (p.position f)

def Place.frame (r : ValueId) : Table ValueId V × Await := (p.values, .bind r (p.position f))

def Place.bind (r : ValueId) (x : V) : Place V := { p with values := p.values.insert r x }

omit [Values V] in
@[simp] theorem Place.take_bind (r : ValueId) (x : V) :
    (Await.bind r (p.position f)).take p.values x = .ok ((p.bind r x).state f) := rfl

end Place

def start (f : StagedFunction) (arguments : List V) : Except Fault (Except String (State V)) := do
  let block ← demand (f.blocks.find? (·.id == f.entryBlock)) (.absentContinuation f.entryBlock)
  if block.parameters.length = arguments.length then
    pure (.ok (.running (Table.extend [] ((block.parameters.map (·.value)).zip arguments))
      (.staged f block.operations block.terminator)))
  else pure (.error "interpreter entry arity differs from its arguments")

omit [Values V] in
theorem call_of_find {module : StagedModule} {id : FunctionId} {f : StagedFunction}
    (h : module.functions.find? (·.id == id) = some f) (arguments : List V) :
    call module id arguments = start f arguments := by
  unfold call start
  rw [h]

/-- Moves within an activation that leave the executor as it is. -/
def Quiet (execute : Execute V σ) (f : StagedFunction) (s : σ) : Place V → Place V → Prop :=
  Relation.ReflTransGen fun p q => deed execute (p.state f) s = .ok (.on (q.state f), s)

section Runs

variable {module : StagedModule} {execute : Execute V σ} {f : StagedFunction}

theorem step_on {state state' : State V} {s s' : σ} (h : deed execute state s = .ok (.on state', s'))
    (callers : List (Table ValueId V × Await)) (responses : List V) (seen : List (Observation V)) :
    Step (party module execute).next ⟨⟨state, callers⟩, s, responses, seen⟩
      ⟨⟨state', callers⟩, s', responses, seen⟩ := by
  simp [Step, Party.next, party, move_eq, h, Deed.carry]

theorem Quiet.comes {p q : Place V} {s : σ} (h : Quiet execute f s p q) (callers : List (Table ValueId V × Await))
    (responses : List V) (seen : List (Observation V)) :
    Comes (party module execute).next ⟨⟨p.state f, callers⟩, s, responses, seen⟩
      ⟨⟨q.state f, callers⟩, s, responses, seen⟩ := by
  induction h with
  | refl => exact .refl
  | tail _ hstep ih => exact ih.tail (step_on hstep callers responses seen)

end Runs

/-! ### Activations that go together -/

section Together

variable (f g : StagedFunction) (R : Place V → Place V → Prop) (Tail : ValueId → Place V → Prop)

inductive StatesAlike : State V → State V → Prop where
  | same (state : State V) : StatesAlike state state
  | act {p q : Place V} (h : R p q) : StatesAlike (p.state f) (q.state g)

inductive CallsAlike : Except Fault (Except String (State V)) → Except Fault (Except String (State V)) → Prop where
  | fault (e e' : Fault) : CallsAlike (.error e) (.error e')
  | refused (message : String) : CallsAlike (.ok (.error message)) (.ok (.error message))
  | on {state state' : State V} (h : StatesAlike f g R state state') : CallsAlike (.ok (.ok state)) (.ok (.ok state'))

inductive FramesAlike : Table ValueId V × Await → Table ValueId V × Await → Prop where
  | same (frame : Table ValueId V × Await) : FramesAlike frame frame
  | act {p q : Place V} {r : ValueId} (h : ∀ x, R (p.bind r x) (q.bind r x)) : FramesAlike (p.frame f r) (q.frame g r)

/-- The callers; one that only waits to give a result on is missing on the other side. -/
inductive CallersAlike : List (Table ValueId V × Await) → List (Table ValueId V × Await) → Prop where
  | nil : CallersAlike [] []
  | cons {frame frame' : Table ValueId V × Await} {l l' : List (Table ValueId V × Await)}
      (hframe : FramesAlike f g R frame frame') (h : CallersAlike l l') : CallersAlike (frame :: l) (frame' :: l')
  | tail {p : Place V} {r : ValueId} {l l' : List (Table ValueId V × Await)} (htail : Tail r p)
      (h : CallersAlike l l') : CallersAlike (p.frame f r :: l) l'

inductive DeedsAlike : Deed V → Deed V → Prop where
  | on {state state' : State V} (h : StatesAlike f g R state state') : DeedsAlike (.on state) (.on state')
  | call (target : CallTarget) (xs : List V) {frame frame' : Table ValueId V × Await}
      (h : FramesAlike f g R frame frame') :
      DeedsAlike (.call target xs frame.1 frame.2) (.call target xs frame'.1 frame'.2)
  | returned (x : V) : DeedsAlike (.returned x) (.returned x)
  | trapped (message : String) : DeedsAlike (.trapped message) (.trapped message)
  | refused (message : String) : DeedsAlike (.refused message) (.refused message)

omit [Values V] in
theorem CallsAlike.refl (result : Except Fault (Except String (State V))) : CallsAlike f g R result result := by
  rcases result with fault | message | state
  · exact .fault fault fault
  · exact .refused message
  · exact .on (.same state)

omit [Values V] in
theorem DeedsAlike.refl (d : Deed V) : DeedsAlike f g R d d := by
  cases d with
  | on state => exact .on (.same state)
  | call target xs values await => exact .call target xs (.same (values, await))
  | returned x => exact .returned x
  | trapped message => exact .trapped message
  | refused message => exact .refused message

omit [Values V] in
/-- A result arrives alike. -/
theorem FramesAlike.take {frame frame' : Table ValueId V × Await} (h : FramesAlike f g R frame frame') (x : V) :
    (∃ e, frame.2.take frame.1 x = .error e ∧ frame'.2.take frame'.1 x = .error e) ∨
      ∃ state state', frame.2.take frame.1 x = .ok state ∧ frame'.2.take frame'.1 x = .ok state' ∧
        StatesAlike f g R state state' := by
  cases h with
  | same frame =>
    rcases htake : frame.2.take frame.1 x with e | state
    · exact Or.inl ⟨e, rfl, rfl⟩
    · exact Or.inr ⟨state, state, rfl, rfl, .same state⟩
  | act h => exact Or.inr ⟨_, _, rfl, rfl, .act (h x)⟩

variable (execute : Execute V σ)

/-- What two activations do next, that keeps them together. -/
inductive Joins (s : σ) (p q : Place V) : Prop where
  | fault {e e' : Fault} (h : deed execute (p.state f) s = .error e) (h' : deed execute (q.state g) s = .error e')
  | deeds {a b : Deed V} {s' : σ} (h : deed execute (p.state f) s = .ok (a, s'))
      (h' : deed execute (q.state g) s = .ok (b, s')) (halike : DeedsAlike f g R a b)
  | jump {xs : List V} {r : ValueId} {rest p' q' : Place V}
      (h : deed execute (p.state f) s = .ok (.call (.function f.id) xs rest.values (.bind r (rest.position f)), s))
      (h' : deed execute (q.state g) s = .ok (.on (q'.state g), s)) (htail : Tail r rest)
      (hstart : start f xs = .ok (.ok (p'.state f))) (hact : R p' q')

/-- **A function that can stand for another one.** -/
structure Replaces : Prop where
  id_eq : g.id = f.id
  starts : ∀ xs, CallsAlike f g R (start f xs) (start g xs)
  joins : ∀ p q, R p q → ∀ s, ∃ p' q', Quiet execute f s p p' ∧ Quiet execute g s q q' ∧
    Joins f g R Tail execute s p' q'

end Together

/-- A caller that only waits to give a result on does so: it comes to return what it was given, and nothing else
happens. -/
def GivesOn (module : StagedModule) (execute : Execute V σ) (f : StagedFunction) (Tail : ValueId → Place V → Prop)
    (w : World (Run V) V σ) : Prop :=
  ∀ state r p callers x, w.machine = ⟨state, p.frame f r :: callers⟩ →
    deed execute state w.store = .ok (.returned x, w.store) → Tail r p →
    ∃ p', Comes (party module execute).next { w with machine := ⟨(p.bind r x).state f, callers⟩ }
        { w with machine := ⟨Place.state p' f, callers⟩ } ∧
      deed execute (p'.state f) w.store = .ok (.returned x, w.store)

/-! ### Runs with the two functions -/

section Simulation

variable {module : StagedModule} {f g : StagedFunction} {R : Place V → Place V → Prop} {Tail : ValueId → Place V → Prop}
variable {execute : Execute V σ}

/-- Runs of the module with the one function and with the other, at places that go together. -/
structure Beside (module : StagedModule) (f g : StagedFunction) (R : Place V → Place V → Prop)
    (Tail : ValueId → Place V → Prop) (execute : Execute V σ) (w₀ w w' : World (Run V) V σ) : Prop where
  comes : Comes (party module execute).next w₀ w
  store : w.store = w'.store
  responses : w.responses = w'.responses
  seen : w.seen = w'.seen
  states : StatesAlike f g R w.machine.state w'.machine.state
  callers : CallersAlike f g R Tail w.machine.callers w'.machine.callers

variable (h : Replaces f g R Tail execute) (hfind : module.functions.find? (·.id == f.id) = some f)

include h hfind

/-- Every call is answered alike. -/
theorem Replaces.calls (id : FunctionId) (xs : List V) :
    CallsAlike f g R (call module id xs) (call (module.replace g) id xs) := by
  cases hid : module.functions.find? (·.id == id) with
  | none =>
    have hid' : (module.replace g).functions.find? (·.id == id) = none := by
      rw [module.find_replace, hid]
      rfl
    have hcall : call (module.replace g) id xs = call module id xs := by
      unfold call
      rw [hid, hid']
      rfl
    exact hcall ▸ .refl f g R _
  | some k =>
    have hid' := module.find_replace g id
    rw [hid] at hid'
    by_cases hk : k.id = g.id
    · -- the function of this id is the one that is replaced
      have hkid : k.id = id := by simpa using List.find?_some hid
      have hkf : k = f := by
        have hfid : id = f.id := by rw [← hkid, hk, h.id_eq]
        rw [hfid] at hid
        exact Option.some.inj (hid.symm.trans hfind)
      subst hkf
      rw [call_of_find hid, call_of_find (by rw [hid', Option.map_some, if_pos hk])]
      exact h.starts xs
    · rw [call_of_find hid, call_of_find (by rw [hid', Option.map_some, if_neg hk])]
      exact .refl f g R _

omit h hfind

/-- Two runs end alike, or both go on to places that go together. -/
def Onward (module : StagedModule) (f g : StagedFunction) (R : Place V → Place V → Prop)
    (Tail : ValueId → Place V → Prop) (execute : Execute V σ) (w₀ w w' : World (Run V) V σ) : Prop :=
  (∃ o, Ends (party module execute).next w o ∧ Ends (party (module.replace g) execute).next w' o) ∨
    ∃ d d', Goes (party module execute).next w d ∧ Goes (party (module.replace g) execute).next w' d' ∧
      Beside module f g R Tail execute w₀ d d'

section Onward

variable {w₀ : World (Run V) V σ} {state state' : State V} {callers callers' : List (Table ValueId V × Await)}
variable {s s' : σ} {responses : List V} {seen : List (Observation V)}

/-- A run that comes to a place goes on from it. -/
theorem Onward.of_comes {w w' d d' : World (Run V) V σ} (hw : Comes (party module execute).next w d)
    (hw' : Comes (party (module.replace g) execute).next w' d') (h : Onward module f g R Tail execute w₀ d d') :
    Onward module f g R Tail execute w₀ w w' := by
  rcases h with ⟨o, ho, ho'⟩ | ⟨e, e', he, he', hbeside⟩
  · exact Or.inl ⟨o, ends_comes hw ho, ends_comes hw' ho'⟩
  · exact Or.inr ⟨e, e', Relation.TransGen.trans_right hw he, Relation.TransGen.trans_right hw' he', hbeside⟩

/-- **A result is given back.**  Callers that only wait to give it on are passed over. -/
theorem Onward.returned (hgives : ∀ w, Comes (party module execute).next w₀ w → GivesOn module execute f Tail w)
    (hcallers : CallersAlike f g R Tail callers callers') {x : V}
    (hcomes : Comes (party module execute).next w₀ ⟨⟨state, callers⟩, s, responses, seen⟩)
    (hdeed : deed execute state s = .ok (.returned x, s)) (hdeed' : deed execute state' s = .ok (.returned x, s)) :
    Onward module f g R Tail execute w₀ ⟨⟨state, callers⟩, s, responses, seen⟩
      ⟨⟨state', callers'⟩, s, responses, seen⟩ := by
  induction hcallers generalizing state with
  | nil =>
    exact Or.inl ⟨(seen ++ [.returned x], .finished),
      ends_now (by simp [Party.next, party, move_eq, hdeed, Deed.carry]),
      ends_now (by simp [Party.next, party, move_eq, hdeed', Deed.carry])⟩
  | @cons frame frame' l l' hframe hl ih =>
    rcases hframe.take f g R x with ⟨e, he, he'⟩ | ⟨next, next', hnext, hnext', halike⟩
    · exact Or.inl ⟨(seen, .stuck), ends_now (by simp [Party.next, party, move_eq, hdeed, Deed.carry, he]),
        ends_now (by simp [Party.next, party, move_eq, hdeed', Deed.carry, he'])⟩
    · have hstep : Step (party module execute).next ⟨⟨state, frame :: l⟩, s, responses, seen⟩
          ⟨⟨next, l⟩, s, responses, seen⟩ := by
        simp [Step, Party.next, party, move_eq, hdeed, Deed.carry, hnext]
      have hstep' : Step (party (module.replace g) execute).next ⟨⟨state', frame' :: l'⟩, s, responses, seen⟩
          ⟨⟨next', l'⟩, s, responses, seen⟩ := by
        simp [Step, Party.next, party, move_eq, hdeed', Deed.carry, hnext']
      exact Or.inr ⟨_, _, .single hstep, .single hstep', hcomes.tail hstep, rfl, rfl, rfl, halike, hl⟩
  | @tail p r l l' htail hl ih =>
    obtain ⟨p', hp', hreturn⟩ := hgives _ hcomes state r p l x rfl hdeed htail
    have hstep : Step (party module execute).next ⟨⟨state, p.frame f r :: l⟩, s, responses, seen⟩
        ⟨⟨(p.bind r x).state f, l⟩, s, responses, seen⟩ := by
      simp [Step, Party.next, party, move_eq, hdeed, Deed.carry, Place.frame]
    have hgo : Comes (party module execute).next ⟨⟨state, p.frame f r :: l⟩, s, responses, seen⟩
        ⟨⟨p'.state f, l⟩, s, responses, seen⟩ := .head hstep hp'
    exact (ih (hcomes.trans hgo) hreturn).of_comes hgo .refl

include h hfind

/-- **Deeds alike lead on alike.** -/
theorem Onward.of_deeds (hgives : ∀ w, Comes (party module execute).next w₀ w → GivesOn module execute f Tail w)
    (hcallers : CallersAlike f g R Tail callers callers')
    (hcomes : Comes (party module execute).next w₀ ⟨⟨state, callers⟩, s, responses, seen⟩) {a b : Deed V}
    (hdeed : deed execute state s = .ok (a, s')) (hdeed' : deed execute state' s = .ok (b, s'))
    (hstore : ∀ x, a = .returned x → s' = s) (halike : DeedsAlike f g R a b) :
    Onward module f g R Tail execute w₀ ⟨⟨state, callers⟩, s, responses, seen⟩
      ⟨⟨state', callers'⟩, s, responses, seen⟩ := by
  cases halike with
  | @on next next' hstates =>
    have hstep : Step (party module execute).next ⟨⟨state, callers⟩, s, responses, seen⟩
        ⟨⟨next, callers⟩, s', responses, seen⟩ := step_on hdeed callers responses seen
    exact Or.inr ⟨_, _, .single hstep, .single (step_on hdeed' callers' responses seen), hcomes.tail hstep,
      rfl, rfl, rfl, hstates, hcallers⟩
  | @call target xs frame frame' hframe =>
    have hrequest (hnot : ∀ id, target ≠ .function id) :
        (Deed.call target xs frame.1 frame.2).carry module callers =
            .ok (.request target xs ⟨.waiting frame.1 frame.2, callers⟩) ∧
          (Deed.call target xs frame'.1 frame'.2).carry (module.replace g) callers' =
            .ok (.request target xs ⟨.waiting frame'.1 frame'.2, callers'⟩) := by
      cases target with
      | function id => exact absurd rfl (hnot id)
      | host capability operation => exact ⟨rfl, rfl⟩
      | link unit name => exact ⟨rfl, rfl⟩
    by_cases hfunction : ∃ id, target = .function id
    · obtain ⟨id, rfl⟩ := hfunction
      have hcall := h.calls hfind id xs
      generalize hm : call module id xs = answer at hcall
      generalize hm' : call (module.replace g) id xs = answer' at hcall
      cases hcall with
      | fault e e' =>
        exact Or.inl ⟨(seen, .stuck), ends_now (by simp [Party.next, party, move_eq, hdeed, Deed.carry, hm]),
          ends_now (by simp [Party.next, party, move_eq, hdeed', Deed.carry, hm'])⟩
      | refused message =>
        exact Or.inl ⟨(seen, .refused message),
          ends_now (by simp [Party.next, party, move_eq, hdeed, Deed.carry, hm]),
          ends_now (by simp [Party.next, party, move_eq, hdeed', Deed.carry, hm'])⟩
      | @on callee callee' hstates =>
        have hstep : Step (party module execute).next ⟨⟨state, callers⟩, s, responses, seen⟩
            ⟨⟨callee, frame :: callers⟩, s', responses, seen⟩ := by
          simp [Step, Party.next, party, move_eq, hdeed, Deed.carry, hm]
        have hstep' : Step (party (module.replace g) execute).next ⟨⟨state', callers'⟩, s, responses, seen⟩
            ⟨⟨callee', frame' :: callers'⟩, s', responses, seen⟩ := by
          simp [Step, Party.next, party, move_eq, hdeed', Deed.carry, hm']
        exact Or.inr ⟨_, _, .single hstep, .single hstep', hcomes.tail hstep, rfl, rfl, rfl, hstates,
          .cons hframe hcallers⟩
    · obtain ⟨hcarry, hcarry'⟩ := hrequest fun id he => hfunction ⟨id, he⟩
      cases responses with
      | nil =>
        exact Or.inl ⟨(seen ++ [.request target xs], .suspended),
          ends_now (by simp [Party.next, party, move_eq, hdeed, hcarry]),
          ends_now (by simp [Party.next, party, move_eq, hdeed', hcarry'])⟩
      | cons response responses =>
        rcases hframe.take f g R response with ⟨e, he, he'⟩ | ⟨next, next', hnext, hnext', hstates⟩
        · exact Or.inl ⟨(seen ++ [.request target xs], .stuck),
            ends_now (by simp [Party.next, party, move_eq, hdeed, hcarry, resume, he]),
            ends_now (by simp [Party.next, party, move_eq, hdeed', hcarry', resume, he'])⟩
        · have hstep : Step (party module execute).next ⟨⟨state, callers⟩, s, response :: responses, seen⟩
              ⟨⟨next, callers⟩, s', responses, seen ++ [.request target xs]⟩ := by
            simp [Step, Party.next, party, move_eq, hdeed, hcarry, resume, hnext]
          have hstep' : Step (party (module.replace g) execute).next
              ⟨⟨state', callers'⟩, s, response :: responses, seen⟩
              ⟨⟨next', callers'⟩, s', responses, seen ++ [.request target xs]⟩ := by
            simp [Step, Party.next, party, move_eq, hdeed', hcarry', resume, hnext']
          exact Or.inr ⟨_, _, .single hstep, .single hstep', hcomes.tail hstep, rfl, rfl, rfl, hstates, hcallers⟩
  | returned x =>
    cases hstore x rfl
    exact .returned hgives hcallers hcomes hdeed hdeed'
  | trapped message =>
    exact Or.inl ⟨(seen ++ [.trapped message], .finished),
      ends_now (by simp [Party.next, party, move_eq, hdeed, Deed.carry]),
      ends_now (by simp [Party.next, party, move_eq, hdeed', Deed.carry])⟩
  | refused message =>
    exact Or.inl ⟨(seen, .refused message), ends_now (by simp [Party.next, party, move_eq, hdeed, Deed.carry]),
      ends_now (by simp [Party.next, party, move_eq, hdeed', Deed.carry])⟩

end Onward

variable {w₀ : World (Run V) V σ}

include h hfind

/-- **Activations that go together keep the runs together.** -/
theorem Replaces.simulates (hgives : ∀ w, Comes (party module execute).next w₀ w → GivesOn module execute f Tail w) :
    Simulates (party module execute).next (party (module.replace g) execute).next
      (Beside module f g R Tail execute w₀) := by
  rintro ⟨⟨state, callers⟩, s, responses, seen⟩ ⟨⟨state', callers'⟩, _, _, _⟩
    ⟨hcomes, rfl, rfl, rfl, hstates, hcallers⟩
  cases hstates with
  | same state =>
    rcases hdeed : deed execute state s with e | ⟨d, s'⟩
    · exact Or.inl ⟨(seen, .stuck), ends_now (by simp [Party.next, party, move_eq, hdeed]),
        ends_now (by simp [Party.next, party, move_eq, hdeed])⟩
    · exact Onward.of_deeds h hfind hgives hcallers hcomes hdeed hdeed
        (fun x hx => store_of_returned (hx ▸ hdeed)) (.refl f g R d)
  | @act p q hact =>
    obtain ⟨p', q', hp, hq, hjoin⟩ := h.joins p q hact s
    have hp' : Comes (party module execute).next ⟨⟨p.state f, callers⟩, s, responses, seen⟩
        ⟨⟨p'.state f, callers⟩, s, responses, seen⟩ := hp.comes callers responses seen
    refine Onward.of_comes hp' (hq.comes callers' responses seen) ?_
    cases hjoin with
    | fault hdeed hdeed' =>
      exact Or.inl ⟨(seen, .stuck), ends_now (by simp [Party.next, party, move_eq, hdeed]),
        ends_now (by simp [Party.next, party, move_eq, hdeed'])⟩
    | @deeds a b s' hdeed hdeed' halike =>
      exact Onward.of_deeds h hfind hgives hcallers (hcomes.trans hp') hdeed hdeed'
        (fun x hx => store_of_returned (hx ▸ hdeed)) halike
    | @jump xs r rest p'' q'' hdeed hdeed' htail hstart hact' =>
      have hstep : Step (party module execute).next ⟨⟨p'.state f, callers⟩, s, responses, seen⟩
          ⟨⟨p''.state f, rest.frame f r :: callers⟩, s, responses, seen⟩ := by
        simp [Step, Party.next, party, move_eq, hdeed, Deed.carry, call_of_find hfind, hstart, Place.frame]
      exact Or.inr ⟨_, _, .single hstep, .single (step_on hdeed' callers' responses seen),
        (hcomes.trans hp').tail hstep, rfl, rfl, rfl, .act hact', .tail htail hcallers⟩

/-- **A replaced function makes no difference to what is observed.** -/
theorem Replaces.ends_iff {state state' : State V} (hstates : StatesAlike f g R state state') (s : σ)
    (responses : List V)
    (hgives : ∀ w, Comes (party module execute).next ⟨⟨state, []⟩, s, responses, []⟩ w →
      GivesOn module execute f Tail w)
    (o : Outcome V) :
    Ends (party module execute).next ⟨⟨state, []⟩, s, responses, []⟩ o ↔
      Ends (party (module.replace g) execute).next ⟨⟨state', []⟩, s, responses, []⟩ o :=
  (h.simulates hfind hgives).ends_iff ⟨.refl, rfl, rfl, rfl, hstates, .nil⟩

end Simulation

end Blot.Suspension.Direct
