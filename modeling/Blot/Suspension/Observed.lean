import Blot.Support.Lockstep
import Blot.Suspension.Interpreter

/-!
# What a run shows

Two ways of running a program are compared by what the host sees: its requests with their arguments, in order, and how
the run ends.  The host answers from a list of responses, and a run that asks for one more is suspended for good.

* `Party.next` — one move, with the answer to a request;
* `Machine.polls` — the machine as its host drives it, with any quanta, and `polls_ends_iff`, which says that the
  quanta make no difference.
-/

namespace Blot.Suspension

open Blot.Support Blot.Support.Lockstep

variable {M V σ : Type}

/-- A move of a running program. -/
inductive Move (M V : Type) where
  | on (machine : M)
  | request (target : CallTarget) (arguments : List V) (machine : M)
  | returned (value : V)
  | trapped (message : String)
  | refused (message : String)

/-- A way of running: its moves, and how it takes the response to a request. -/
structure Party (M V σ : Type) where
  move : M → σ → Except Fault (Move M V × σ)
  resume : M → V → Except Fault M

/-- A run so far: the machine, the state of the executor, the responses to come and what was observed. -/
structure World (M V σ : Type) where
  machine : M
  store : σ
  responses : List V
  seen : List (Observation V)

/-- How a run ends; `suspended` when there is no response to its last request. -/
inductive Ending where
  | finished
  | suspended
  | refused (message : String)
  | stuck
  deriving DecidableEq, Repr

abbrev Outcome (V : Type) := List (Observation V) × Ending

def Party.next (p : Party M V σ) (w : World M V σ) : World M V σ ⊕ Outcome V :=
  match p.move w.machine w.store with
  | .ok (.on machine, store) => .inl { w with machine, store }
  | .ok (.request target arguments machine, store) =>
    let seen := w.seen ++ [.request target arguments]
    match w.responses with
    | [] => .inr (seen, .suspended)
    | response :: responses =>
      match p.resume machine response with
      | .ok machine => .inl ⟨machine, store, responses, seen⟩
      | .error _ => .inr (seen, .stuck)
  | .ok (.returned value, _) => .inr (w.seen ++ [.returned value], .finished)
  | .ok (.trapped message, _) => .inr (w.seen ++ [.trapped message], .finished)
  | .ok (.refused message, _) => .inr (w.seen, .refused message)
  | .error _ => .inr (w.seen, .stuck)

def Move.ofReply (machine : M) : Except String (Observation V) → Move M V
  | .ok (.request target arguments) => .request target arguments machine
  | .ok .yielded => .on machine
  | .ok (.returned value) => .returned value
  | .ok (.trapped message) => .trapped message
  | .error message => .refused message

def Machine.accept (graph : Graph) (machine : Machine V) (value : V) : Except Fault (Machine V) := do
  let (_, machine) ← machine.resume graph value
  pure machine

variable [Values V]

def Machine.turns (graph : Graph) (execute : Execute V σ) : Party (Machine V) V σ where
  move machine s := do
    match ← machine.turn graph execute s with
    | (.on machine, s) => pure (.on machine, s)
    | (.leave reply machine, s) => pure (.ofReply machine reply, s)
  resume machine value := machine.accept graph value

/-- The machine as its host drives it: polls, of which the `n`-th has the quantum `quanta n + 1`. -/
def Machine.polls (graph : Graph) (execute : Execute V σ) : Party (Machine V × (ℕ → ℕ)) V σ where
  move driven s := do
    let (reply, machine, s) ← driven.1.poll graph execute (driven.2 0 + 1) s
    pure (.ofReply (machine, fun n => driven.2 (n + 1)) reply, s)
  resume driven value := do
    let machine ← driven.1.accept graph value
    pure (machine, driven.2)

/-! ### The quanta make no difference -/

section Quanta

variable {graph : Graph} {execute : Execute V σ}

/-- A driven machine and the machine that takes the same turns. -/
def SameRun (w : World (Machine V × (ℕ → ℕ)) V σ) (w' : World (Machine V) V σ) : Prop :=
  w.machine.1 = w'.machine ∧ w.store = w'.store ∧ w.responses = w'.responses ∧ w.seen = w'.seen

/-- A poll goes on for its quantum, or takes turns up to the one that ends it. -/
theorem poll_turns (quantum : ℕ) (m : Machine V) (s : σ) (responses : List V) (seen : List (Observation V)) :
    (∃ m' s', m.poll graph execute quantum s = .ok (.ok .yielded, m', s') ∧
      Comes (Machine.turns graph execute).next ⟨m, s, responses, seen⟩ ⟨m', s', responses, seen⟩ ∧
      (0 < quantum → Goes (Machine.turns graph execute).next ⟨m, s, responses, seen⟩ ⟨m', s', responses, seen⟩)) ∨
    ∃ m₁ s₁, Comes (Machine.turns graph execute).next ⟨m, s, responses, seen⟩ ⟨m₁, s₁, responses, seen⟩ ∧
      ((∃ fault, m₁.turn graph execute s₁ = .error fault ∧ m.poll graph execute quantum s = .error fault) ∨
        ∃ reply m' s', m₁.turn graph execute s₁ = .ok (.leave reply m', s') ∧
          m.poll graph execute quantum s = .ok (reply, m', s')) := by
  induction quantum generalizing m s with
  | zero => exact Or.inl ⟨m, s, rfl, .refl, fun h => absurd h (by omega)⟩
  | succ quantum ih =>
    rcases hturn : m.turn graph execute s with fault | ⟨turn, s'⟩
    · exact Or.inr ⟨m, s, .refl, Or.inl ⟨fault, hturn, by rw [Machine.poll, hturn, error_bind]⟩⟩
    · cases turn with
      | leave reply m' =>
        exact Or.inr ⟨m, s, .refl, Or.inr ⟨reply, m', s', hturn, by rw [Machine.poll, hturn, ok_bind]; rfl⟩⟩
      | on m' =>
        have hstep : Step (Machine.turns graph execute).next ⟨m, s, responses, seen⟩ ⟨m', s', responses, seen⟩ := by
          simp [Step, Party.next, Machine.turns, hturn, pure, Except.pure]
        have hpoll : m.poll graph execute (quantum + 1) s = m'.poll graph execute quantum s' := by
          rw [Machine.poll, hturn, ok_bind]
        rw [hpoll]
        rcases ih m' s' with ⟨m'', s'', hy, hcomes, _⟩ | ⟨m₁, s₁, hcomes, hend⟩
        · exact Or.inl ⟨m'', s'', hy, .head hstep hcomes, fun _ => .head' hstep hcomes⟩
        · exact Or.inr ⟨m₁, s₁, .head hstep hcomes, hend⟩

theorem next_of_leave {driven : Machine V × (ℕ → ℕ)} {m₁ m' : Machine V} {s s₁ s' : σ}
    {reply : Except String (Observation V)}
    (hpoll : driven.1.poll graph execute (driven.2 0 + 1) s = .ok (reply, m', s'))
    (hturn : m₁.turn graph execute s₁ = .ok (.leave reply m', s')) (responses : List V) (seen : List (Observation V)) :
    (∃ w w', (Machine.polls graph execute).next ⟨driven, s, responses, seen⟩ = .inl w ∧
      (Machine.turns graph execute).next ⟨m₁, s₁, responses, seen⟩ = .inl w' ∧ SameRun w w') ∨
    ∃ o, (Machine.polls graph execute).next ⟨driven, s, responses, seen⟩ = .inr o ∧
      (Machine.turns graph execute).next ⟨m₁, s₁, responses, seen⟩ = .inr o := by
  rcases reply with message | o
  · exact Or.inr ⟨(seen, .refused message), by simp [Party.next, Machine.polls, hpoll, Move.ofReply],
      by simp [Party.next, Machine.turns, hturn, Move.ofReply]⟩
  · cases o with
    | request target arguments =>
      cases responses with
      | nil =>
        exact Or.inr ⟨(seen ++ [.request target arguments], .suspended),
          by simp [Party.next, Machine.polls, hpoll, Move.ofReply],
          by simp [Party.next, Machine.turns, hturn, Move.ofReply]⟩
      | cons response responses =>
        rcases haccept : m'.accept graph response with fault | m''
        · exact Or.inr ⟨(seen ++ [.request target arguments], .stuck),
            by simp [Party.next, Machine.polls, hpoll, Move.ofReply, haccept],
            by simp [Party.next, Machine.turns, hturn, Move.ofReply, haccept]⟩
        · exact Or.inl ⟨⟨(m'', fun n => driven.2 (n + 1)), s', responses, seen ++ [.request target arguments]⟩,
            ⟨m'', s', responses, seen ++ [.request target arguments]⟩,
            by simp [Party.next, Machine.polls, hpoll, Move.ofReply, haccept],
            by simp [Party.next, Machine.turns, hturn, Move.ofReply, haccept], rfl, rfl, rfl, rfl⟩
    | yielded =>
      exact Or.inl ⟨⟨(m', fun n => driven.2 (n + 1)), s', responses, seen⟩, ⟨m', s', responses, seen⟩,
        by simp [Party.next, Machine.polls, hpoll, Move.ofReply],
        by simp [Party.next, Machine.turns, hturn, Move.ofReply], rfl, rfl, rfl, rfl⟩
    | returned value =>
      exact Or.inr ⟨(seen ++ [.returned value], .finished), by simp [Party.next, Machine.polls, hpoll, Move.ofReply],
        by simp [Party.next, Machine.turns, hturn, Move.ofReply]⟩
    | trapped message =>
      exact Or.inr ⟨(seen ++ [.trapped message], .finished), by simp [Party.next, Machine.polls, hpoll, Move.ofReply],
        by simp [Party.next, Machine.turns, hturn, Move.ofReply]⟩

theorem polls_simulates : Simulates (Machine.polls graph execute).next (Machine.turns graph execute).next SameRun := by
  rintro ⟨driven, s, responses, seen⟩ ⟨m, _, _, _⟩ ⟨rfl, rfl, rfl, rfl⟩
  rcases @poll_turns _ _ _ graph execute (driven.2 0 + 1) driven.1 s responses seen with
    ⟨m', s', hpoll, _, hgoes⟩ | ⟨m₁, s₁, hcomes, ⟨fault, hturn, hpoll⟩ | ⟨reply, m', s', hturn, hpoll⟩⟩
  · refine Or.inr ⟨⟨(m', fun n => driven.2 (n + 1)), s', responses, seen⟩, ⟨m', s', responses, seen⟩, .single ?_,
      hgoes (by omega), rfl, rfl, rfl, rfl⟩
    simp [Step, Party.next, Machine.polls, hpoll, Move.ofReply]
  · refine Or.inl ⟨(seen, .stuck), ends_now (by simp [Party.next, Machine.polls, hpoll]), ?_⟩
    exact ends_comes hcomes (ends_now (by simp [Party.next, Machine.turns, hturn]))
  · rcases next_of_leave hpoll hturn responses seen with ⟨w, w', hw, hw', hsame⟩ | ⟨o, ho, ho'⟩
    · exact Or.inr ⟨w, w', .single hw, Relation.TransGen.tail' hcomes hw', hsame⟩
    · exact Or.inl ⟨o, ends_now ho, ends_comes hcomes (ends_now ho')⟩

/-- **The quanta make no difference to what is observed.** -/
theorem polls_ends_iff (m : Machine V) (quanta : ℕ → ℕ) (s : σ) (responses : List V) (seen : List (Observation V))
    (o : Outcome V) :
    Ends (Machine.polls graph execute).next ⟨(m, quanta), s, responses, seen⟩ o ↔
      Ends (Machine.turns graph execute).next ⟨m, s, responses, seen⟩ o :=
  polls_simulates.ends_iff ⟨rfl, rfl, rfl, rfl⟩

end Quanta

end Blot.Suspension
