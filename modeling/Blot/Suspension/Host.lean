import Blot.Suspension.Flags
import Blot.Suspension.Preservation
import Blot.Suspension.Simplified

/-!
# The machine and its host

What the host of a continuation machine may rely on.

* `dialogue_balanced` — requests and the responses that are taken alternate;
* `simplified_machine_agrees` — the machine of a module that was simplified shows what the module did before.
-/

namespace Blot.Suspension

open Blot.Hir Blot.Support Blot.Support.Lockstep Direct

variable {V : Type} [Values V]

/-! ### Requests and responses -/

section Dialogue

variable {graph : Graph} {owed : ℤ}

/-- Whether a poll asks the host for something. -/
def asks : Except String (Observation V) → ℤ
  | .ok (.request _ _) => 1
  | _ => 0

/-- How many requests wait for a response; a machine that was cancelled may leave one behind. -/
def State.Owes (owed : ℤ) : State V → Prop
  | .ready _ => owed = 0
  | .waiting _ => owed = 1
  | _ => 0 ≤ owed ∧ owed ≤ 1

/-- What a host reaches by polls, responses and cancellations, and the requests that were made less the responses that
were taken. -/
inductive Dialogue (graph : Graph) : Machine V → ℤ → Prop
  | start {function : FunctionId} {arguments : List V} {m : Machine V} :
      Machine.new graph function arguments = .ok (.ok m) → Dialogue graph m 0
  | poll {σ : Type} {execute : Execute V σ} {m m' : Machine V} {quantum : ℕ} {owed : ℤ} {s s' : σ}
      {reply : Except String (Observation V)} : Dialogue graph m owed →
      m.poll graph execute quantum s = .ok (reply, m', s') → Dialogue graph m' (owed + asks reply)
  | resume {m m' : Machine V} {owed : ℤ} {value : V} {reply : Except String Unit} : Dialogue graph m owed →
      m.resume graph value = .ok (reply, m') → Dialogue graph m' (owed - if reply.isOk then 1 else 0)
  | cancel {m : Machine V} {owed : ℤ} : Dialogue graph m owed → Dialogue graph Machine.cancel owed

/-- The same, of the machine that a turn leaves. -/
def Turn.Owes (owed : ℤ) : Turn V → Prop
  | .on m => m.state.Owes owed
  | .leave reply m => m.state.Owes (owed + asks reply)

theorem transfer_owes {a : Activation V} {callers : List (Destination V)} {transition : Transition} {turn : Turn V}
    (h : graph.transfer a callers transition = .ok turn) : turn.Owes 0 := by
  have hfollow : ∀ {edge}, graph.follow a callers edge = .ok turn → turn.Owes 0 := by
    intro edge h
    simp only [Graph.follow, bind_eq_ok, pure_eq_ok] at h
    obtain ⟨_, _, _, _, rfl⟩ := h
    rfl
  cases transition with
  | jump edge => exact hfollow h
  | branch condition consequent alternate =>
    obtain ⟨_, _, h⟩ := bind_eq_ok.1 h
    split at h
    · exact hfollow h
    · cases h
      exact ⟨le_rfl, zero_le_one⟩
  | switch selector cases fallback =>
    obtain ⟨_, _, h⟩ := bind_eq_ok.1 h
    exact hfollow h
  | call target signature arguments next suspends =>
    simp only [Graph.transfer, bind_eq_ok] at h
    obtain ⟨_, _, d, _, h⟩ := h
    cases target with
    | function callee =>
      obtain ⟨_, hnew, h⟩ := bind_eq_ok.1 h
      split at h <;> cases h
      · obtain ⟨_, rfl, _⟩ := stack_new hnew
        rfl
      · exact ⟨le_rfl, zero_le_one⟩
    | _ =>
      cases h
      rfl
  | «return» value =>
    obtain ⟨_, _, h⟩ := bind_eq_ok.1 h
    cases callers with
    | nil =>
      cases h
      exact ⟨le_rfl, zero_le_one⟩
    | cons d callers =>
      simp only [bind_eq_ok, pure_eq_ok] at h
      obtain ⟨_, _, rfl⟩ := h
      rfl
  | trap message =>
    cases h
    exact ⟨le_rfl, zero_le_one⟩

/-- A turn keeps the balance. -/
theorem turn_owes {σ : Type} {execute : Execute V σ} {m : Machine V} {s s' : σ} {turn : Turn V}
    (h : m.turn graph execute s = .ok (turn, s')) (hm : m.state.Owes owed) : turn.Owes owed := by
  obtain ⟨state, callers⟩ := m
  cases state with
  | ready a =>
    obtain rfl : owed = 0 := hm
    simp only [Machine.turn, bind_eq_ok] at h
    obtain ⟨_, _, _, _, ⟨outcome, _⟩, _, h⟩ := h
    cases outcome with
    | ok values =>
      simp only [bind_eq_ok, pure_eq_ok] at h
      obtain ⟨_, htransfer, he⟩ := h
      cases he
      exact transfer_owes htransfer
    | error message =>
      cases h
      exact ⟨le_rfl, zero_le_one⟩
  | _ =>
    cases h
    simpa [Turn.Owes, asks] using hm

theorem poll_owes {σ : Type} {execute : Execute V σ} {quantum : ℕ} {m m' : Machine V} {s s' : σ}
    {reply : Except String (Observation V)} (h : m.poll graph execute quantum s = .ok (reply, m', s'))
    (hm : m.state.Owes owed) : m'.state.Owes (owed + asks reply) := by
  induction quantum generalizing m s with
  | zero =>
    cases h
    simpa [asks] using hm
  | succ quantum ih =>
    obtain ⟨⟨turn, _⟩, hturn, h⟩ := bind_eq_ok.1 h
    have howes := turn_owes hturn hm
    cases turn with
    | on => exact ih h howes
    | leave =>
      cases h
      exact howes

/-- **Requests and responses alternate.**  Whatever the host calls and in whichever order, no request is made while one
is open, and each response that is taken answers it. -/
theorem dialogue_balanced {m : Machine V} (h : Dialogue graph m owed) : m.state.Owes owed := by
  induction h with
  | start hnew =>
    obtain ⟨_, rfl, _⟩ := stack_new hnew
    rfl
  | poll _ hpoll ih => exact poll_owes hpoll ih
  | @resume m _ _ _ _ _ hresume ih =>
    obtain ⟨state, callers⟩ := m
    cases state with
    | waiting d =>
      obtain ⟨_, _, hresume⟩ := bind_eq_ok.1 hresume
      cases hresume
      exact sub_eq_zero.2 ih
    | _ =>
      cases hresume
      simpa [Except.isOk, Except.toBool] using ih
  | @cancel m _ _ ih =>
    obtain ⟨state, callers⟩ := m
    cases state <;> simp only [State.Owes, Machine.cancel] at ih ⊢ <;> omega

theorem dialogue_balanced_echo : ∃ asked answered : Machine WireConstant,
    Dialogue ⟨[echo]⟩ asked 1 ∧ asked.state.Owes 1 ∧ Dialogue ⟨[echo]⟩ answered 0 ∧ answered.state.Owes 0 := by
  have hstart := @Dialogue.start WireConstant _ ⟨[echo]⟩ 0 [.text "hello"] _ rfl
  have hasked := @Dialogue.poll _ _ _ Unit (fun _ _ s => (.ok .unit, s)) _ _ 1 _ () () _ hstart rfl
  have hanswered := @Dialogue.resume _ _ _ _ _ _ .unit _ hasked rfl
  exact ⟨_, _, hasked, dialogue_balanced hasked, hanswered, dialogue_balanced hanswered⟩

end Dialogue

/-! ### From the staged module to the machine -/

/-- A round for one function of a module, where it may be made. -/
inductive Simplifies : StagedModule → StagedModule → Prop
  | round {module : StagedModule} {f g : StagedFunction} {rounds : ℕ} :
      module.functions.find? (·.id == f.id) = some f → RoundKeeps f →
      simplifyRound rounds f = .ok (.inl g) ∨ simplifyRound rounds f = .ok (.inr g) → Simplifies module (module.replace g)

/-- The functions of a module are well-formed, and their ids are their places. -/
def Orderly (module : StagedModule) : Prop := ∀ f ∈ module.functions, f.WellFormed ∧ f.Indexed

/-- What one round keeps. -/
theorem Simplifies.same {module module' : StagedModule} (h : Simplifies module module') (hmodule : Orderly module) :
    Orderly module' ∧ ∀ (truth : Truth V) entry arguments, SameOutcomes truth module module' entry arguments := by
  cases h with
  | @round f g rounds hfind hkeeps hround =>
    obtain ⟨hwell, hindexed⟩ := hmodule f (List.mem_of_find?_eq_some hfind)
    obtain ⟨g', n, hwell', hindexed', hsame, hlater⟩ := round_finishes hwell hindexed hkeeps
    obtain rfl : g = g' := by
      rcases hlater with hlater | ⟨-, hlater⟩ <;> rcases hround with hround | hround <;>
        simpa using round_unique hround (hlater n le_rfl)
    refine ⟨fun f' hf' => ?_, fun truth => hsame.outcomes V truth module hfind⟩
    obtain ⟨f₀, hf₀, rfl⟩ := List.mem_map.1 hf'
    split
    · exact ⟨hwell', hindexed'⟩
    · exact hmodule f₀ hf₀

theorem Simplifies.all_same {module module' : StagedModule} (h : Relation.ReflTransGen Simplifies module module')
    (hmodule : Orderly module) (truth : Truth V) (entry : FunctionId) (arguments : List V) :
    Orderly module' ∧ SameOutcomes truth module module' entry arguments := by
  induction h with
  | refl =>
    refine ⟨hmodule, ?_⟩
    rcases hcall : call module entry arguments with e | message | state
    · exact Or.inl ⟨e, e, hcall, hcall⟩
    · exact Or.inr (Or.inl ⟨message, hcall, hcall⟩)
    · exact Or.inr (Or.inr ⟨state, state, hcall, hcall, fun _ _ _ _ _ _ => Iff.rfl⟩)
  | tail _ step ih =>
    obtain ⟨hlater, hsame⟩ := step.same (V := V) ih.1
    exact ⟨hlater, ih.2.trans (hsame truth entry arguments)⟩

/-- **The compiled program shows what the staged one did.**  However many rounds were made, of whichever functions and in
whichever order, an entry of the machine of the simplified module is refused as in the module before them, or both runs
have the same outcomes, whatever the quanta of the polls. -/
theorem simplified_machine_agrees {module module' : StagedModule} {graph : Graph} {rounds : ℕ} (hmodule : Orderly module)
    (h : Relation.ReflTransGen Simplifies module module') (hlower : Graph.lower module' rounds = .ok graph)
    (truth : Truth V) (entry : FunctionId) (arguments : List V) :
    (∃ message, Machine.new graph entry arguments = .ok (.error message) ∧
      call module entry arguments = .ok (.error message)) ∨
    ∃ machine state, Machine.new graph entry arguments = .ok (.ok machine) ∧
      call module entry arguments = .ok (.ok state) ∧
      ∀ (σ : Type) (execute : Execute V σ), truth.Known execute → ∀ (s : σ) quanta responses (o : Outcome V),
        Ends (Machine.polls graph execute).next ⟨(machine, quanta), s, responses, []⟩ o ↔
          Ends (party module execute).next ⟨⟨state, []⟩, s, responses, []⟩ o := by
  obtain ⟨hg, horigin⟩ := Graph.origin hlower
  obtain ⟨r, hr⟩ := hg.new_ok entry arguments
  have hsame := (Simplifies.all_same h hmodule truth entry arguments).2
  rcases call_origin horigin hr with ⟨message, rfl, hcall⟩ | ⟨a, values, position, rfl, hcall, hready⟩
  · rcases hsame with ⟨_, _, _, hcall'⟩ | ⟨_, hbefore, hcall'⟩ | ⟨_, _, _, hcall', _⟩ <;> cases hcall.symm.trans hcall'
    exact Or.inl ⟨message, hr, hbefore⟩
  · rcases hsame with ⟨_, _, _, hcall'⟩ | ⟨_, _, hcall'⟩ | ⟨state, _, hbefore, hcall', hends⟩ <;>
      cases hcall.symm.trans hcall'
    refine Or.inr ⟨_, state, hr, hbefore, fun σ execute hknown s quanta responses o => ?_⟩
    have hsound : Machine.Sound anyType graph module'.tables none ⟨.ready a, []⟩ :=
      hg.sound_of_reaches (.start hr fun _ _ _ _ _ _ => trivial)
    rw [hends σ execute hknown, polls_ends_iff]
    exact (machine_simulates hg horigin).ends_iff
      ⟨rfl, rfl, rfl, ⟨none, hsound⟩, a, [], values, position, [], rfl, rfl, hready, .nil⟩

/-- A module that decides by two Booleans. -/
def decidedModule : StagedModule := { moduleOf decided with signatures := [⟨[0, 0], 0, []⟩] }

/-- Whatever the quanta, the machine of the simplified module returns what the module itself decides. -/
theorem simplified_machine_agrees_decided :
    ∃ graph machine, Graph.lower (decidedModule.replace decidedOnce) 9 = .ok graph ∧
      Machine.new graph 0 [WireConstant.boolean true, .boolean true] = .ok (.ok machine) ∧
      ∀ quanta, Ends (Machine.polls graph constants).next ⟨(machine, quanta), (), [], []⟩
        ([.returned (.boolean true)], .finished) := by
  have hstep : Simplifies decidedModule (decidedModule.replace decidedOnce) :=
    @Simplifies.round _ decided _ 9 (by decide) decided_roundKeeps (by decide)
  have hmodule : Orderly decidedModule := by
    intro f hf
    obtain rfl := List.mem_singleton.1 hf
    exact ⟨decided_wellFormed, by decide⟩
  have hknown : Truth.Known ⟨WireConstant.boolean, fun _ => rfl⟩ constants := by
    intro i _ s b _ hvalue
    simp [constants, hvalue]
  cases hlower : Graph.lower (decidedModule.replace decidedOnce) 9 with
  | error e =>
    have hok : (Graph.lower (decidedModule.replace decidedOnce) 9).toBool = true := by decide
    cases hlower ▸ hok
  | ok graph =>
    rcases simplified_machine_agrees hmodule (.single hstep) hlower ⟨WireConstant.boolean, fun _ => rfl⟩ 0
      [WireConstant.boolean true, .boolean true] with ⟨_, _, hcall⟩ | ⟨machine, state, hnew, hcall, hends⟩
    · cases hcall
    · cases hcall
      exact ⟨graph, machine, rfl, hnew, fun quanta => (hends Unit constants hknown () quanta [] _).2 ⟨20, by decide⟩⟩

end Blot.Suspension
