import Blot.Eval.Computation

/-!
# Running computations (`Computation::attach_continuations`, `drive`, `run`)

Both evaluators are loops over a stack: of continuations in one, of frames in the other.  What they share is here: the
world a run reads and writes, how a continuation takes a result, and where a request goes.  A nested `drive` is a
handler on the stack, so a captured continuation is the part of the stack above it.
-/

namespace Blot.Eval

variable {X R K : Type}

structure Handler (X R : Type) where
  handles : Perform X → Bool
  clause : Perform X → ℕ → Store X R → Computation X R × Store X R
  onReturn : Value X → Store X R → Computation X R × Store X R

/-- `ComputationContinuation`, with the return of a call and the handlers -/
inductive Continuation (X R : Type) where
  | value (next : Value X → Store X R → Computation X R × Store X R)
  | result (next : Result X → Store X R → Computation X R × Store X R)
  | origin (module : String)
  | finish (completion : CallReturn X)
  | handler (handler : Handler X R)

def Continuation.handler? : Continuation X R → Option (Handler X R)
  | .handler h => some h
  | _ => none

def Continuation.take (S : Semantics X R) (r : Result X) (s : Store X R) :
    Continuation X R → Computation X R × Store X R
  | .origin _ => (.done r, s)
  | .result next => next r s
  | .value next =>
    match r with
    | .ok v => next v s
    | .error e => (.done (.error e), s)
  | .finish completion =>
    match r with
    | .ok v =>
      let (v, s) := S.finish completion v s
      (.value v, s)
    | .error e => (.done (.error e), s)
  | .handler h =>
    match r with
    | .ok v => h.onReturn v s
    | .error e => (.done (.error e), s)

/-- What a run reads and writes: the store, the captured continuations (`none` once called) and the requests that
reached the host, the last one first, each with the store it was made in. -/
structure World (X R K : Type) where
  store : Store X R
  captured : List (Option (List K))
  requests : List (Perform X × Store X R)

/-- The host: it answers a request in the light of all the requests so far, or leaves the run suspended. -/
abbrev Host (X R : Type) := List (Perform X × Store X R) → Option (Value X × Store X R)

inductive Outcome (X R : Type) where
  | finished (result : Result X) (store : Store X R) (requests : List (Perform X × Store X R))
  | suspended (requests : List (Perform X × Store X R))

namespace World

/-- The stack up to the innermost handler that discharges a request, that handler, and the stack below it. -/
def splitHandler (handler? : K → Option (Handler X R)) (request : Perform X) :
    List K → Option (List K × Handler X R × List K)
  | [] => none
  | frame :: frames =>
    let deeper := (splitHandler handler? request frames).map fun p => (frame :: p.1, p.2)
    match handler? frame with
    | some handler => if handler.handles request then some ([frame], handler, frames) else deeper
    | none => deeper

/-- A request: the innermost handler that discharges it runs its clause on the stack above it, captured together with
`resumption`, what the request returns to; without such a handler it goes to the host. -/
def perform (handler? : K → Option (Handler X R)) (host : Host X R) (request : Perform X)
    (resume : Value X → Store X R → Computation X R × Store X R) (resumption : K) (frames : List K)
    (w : World X R K) : (Computation X R × List K × World X R K) ⊕ Outcome X R :=
  match splitHandler handler? request frames with
  | some (segment, handler, rest) =>
    .inl (.step (handler.clause request w.captured.length), rest,
      { w with captured := w.captured ++ [some (resumption :: segment)] })
  | none =>
    let requests := (request, w.store) :: w.requests
    match host requests with
    | some (value, store) => .inl (.step (resume value), frames, { w with store := store, requests := requests })
    | none => .inr (.suspended requests)

/-- Calls a captured continuation (the `Value::Continuation` arm of `apply_with_expected`). -/
def resume (continuation : ℕ) (argument : Value X) (span : Span) (frames : List K) (w : World X R K) :
    Computation X R × List K × World X R K :=
  match w.captured[continuation]?.join with
  | some segment => (.value argument, segment ++ frames, { w with captured := w.captured.set continuation none })
  | none => (.error "BLOT_RESUME_TWICE" "`resume` is one-shot and has already been called." span, frames, w)

end World

end Blot.Eval
