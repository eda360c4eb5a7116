import Blot.Support.Lockstep
import Blot.Effects.Computation

/-!
# Effect trees

What a computation means: a term of the free monad over the requests, with the binds, the origins and the handlers as
they are written.  There are no queues here.  A tree is rewritten until it is a result or a request with the tree of
each response; a request passes a bind, an origin or a handler without a clause for it, which goes on around every
response.

* `Frame.after` — bind, both outcomes, origins and deep handlers, on a result or a request;
* `Tree.step` — the rewriting;
* `Tree.next` — a tree driven by a list of responses.
-/

namespace Blot.Effects

open Blot.Eval (Value Perform)

inductive Frame (X K : Type) where
  | bind (next : K)
  | both (next : K)
  | mark (origin : String)
  | handle (handler : Handler X)

/-- Effect trees.  The leaves besides results and requests run a code or call a function. -/
inductive Tree (X K : Type) where
  | pure (result : Result X)
  | ask (request : Perform X) (resume : Value X → Tree X K)
  | callback (next : K)
  | onValue (next : K) (value : Value X)
  | onResult (next : K) (result : Result X)
  | apply (call : Application X)
  | under (tree : Tree X K) (frame : Frame X K)

/-- What a tree comes to. -/
inductive Head (X K : Type) where
  | returned (result : Result X)
  | asks (request : Perform X) (resume : Value X → Tree X K)

variable {X K σ : Type}

/-- The world of the trees: a continuation says which tree follows a response. -/
abbrev TreeWorld (X K σ : Type) := World σ (Value X → Tree X K)

def Continuation.frame : Continuation K → Frame X K
  | .value next => .bind next
  | .result next => .both next
  | .origin path => .mark path

def Tree.queued (tree : Tree X K) (continuations : List (Continuation K)) : Tree X K :=
  continuations.foldl (fun tree continuation => .under tree continuation.frame) tree

section Step

variable (code : Code X K σ)

def Frame.after (frame : Frame X K) (head : Head X K) (w : TreeWorld X K σ) : Tree X K × TreeWorld X K σ :=
  match frame, head with
  | .bind next, .returned (.ok value) => (.onValue next value, w)
  | .bind _, .returned (.error error) => (.pure (.error error), w)
  | .both next, .returned result => (.onResult next result, w)
  | .mark origin, .returned result => (.pure (Result.at result origin), w)
  | .handle handler, .returned (.ok value) =>
    match handler.returns code value with
    | some call => (.apply call, w)
    | none => (.pure (.ok value), w)
  | .handle _, .returned (.error error) => (.pure (.error error), w)
  | .handle handler, .asks request resume =>
    -- the handler is installed again around the rest, whoever answers
    let rest := fun value => .under (resume value) (.handle handler)
    match handler.clause request with
    | some function =>
      let (continuation, w) := w.allocate rest
      (.apply (handler.call code function request continuation), w)
    | none => (.ask request rest, w)
  | frame, .asks request resume => (.ask request fun value => .under (resume value) frame, w)

def Tree.entered (tree : Built X K → Tree X K) (run : σ → Built X K × σ) (w : TreeWorld X K σ) :
    Tree X K × TreeWorld X K σ :=
  let (built, rest) := run w.rest
  (tree built, { w with rest := rest })

def Built.tree : Built X K → Tree X K
  | .value v => .pure (.ok v)
  | .error e => .pure (.error e)
  | .step next => .callback next
  | .perform request resume => .ask request (.onValue resume)
  | .apply call => .apply call
  | .andThen computation next => .under computation.tree (.bind next)
  | .mapResult computation next => .under computation.tree (.both next)
  | .at computation origin => .under computation.tree (.mark origin)
  | .attach computation continuations => computation.tree.queued continuations
  | .advance computation => computation.tree
  | .drive computation handler => .under computation.tree (.handle handler)

def Tree.step : Tree X K → TreeWorld X K σ → (Tree X K × TreeWorld X K σ) ⊕ (Head X K × TreeWorld X K σ)
  | .pure result, w => .inr (.returned result, w)
  | .ask request resume, w => .inr (.asks request resume, w)
  | .callback next, w => .inl (entered Built.tree (code.callback next) w)
  | .onValue next value, w => .inl (entered Built.tree (code.onValue next value) w)
  | .onResult next result, w => .inl (entered Built.tree (code.onResult next result) w)
  | .apply call, w =>
    match call.function with
    | .continuation continuation =>
      match w.take continuation with
      | (some resume, w) => .inl (resume call.argument, w)
      | (none, w) => .inl (.pure (.error (resumedTwice call.span)), w)
    | _ => .inl (entered Built.tree (code.apply call) w)
  | .under tree frame, w =>
    match tree.step w with
    | .inl (tree, w) => .inl (.under tree frame, w)
    | .inr (head, w) => .inl (frame.after code head w)

def Tree.rewrite (spot : Tree X K × TreeWorld X K σ) : (Tree X K × TreeWorld X K σ) ⊕ (Head X K × TreeWorld X K σ) :=
  spot.1.step code spot.2

/-- A tree that is driven: the responses to come, and the requests so far. -/
structure Driven (X K σ : Type) where
  tree : Tree X K
  world : TreeWorld X K σ
  responses : List (Value X)
  seen : List (Perform X)

def Tree.next (d : Driven X K σ) : Driven X K σ ⊕ Observation X σ :=
  match d.tree.step code d.world with
  | .inl (tree, world) => .inl { d with tree := tree, world := world }
  | .inr (.returned result, world) => .inr (d.seen, .finished result world.rest)
  | .inr (.asks request resume, world) =>
    match d.responses with
    | [] => .inr (d.seen ++ [request], .suspended world.rest)
    | response :: responses => .inl ⟨resume response, world, responses, d.seen ++ [request]⟩

end Step

/-! ### Reading a computation -/

def Callback.tree : Callback X K → Tree X K
  | .code next => .callback next
  | .value next v => .onValue next v
  | .result next r => .onResult next r
  | .drive next continuations handler => .under (next.tree.queued continuations) (.handle handler)

def Resumption.tree : Resumption X K → Value X → Tree X K
  | .code next, v => .onValue next v
  | .drive next continuations handler, v => .under ((next.tree v).queued continuations) (.handle handler)

def Computation.tree : Computation X K → Tree X K
  | .done result => .pure result
  | .step pending => pending.next.tree.queued pending.continuations
  | .perform request resume => .ask request fun v => (resume.next.tree v).queued resume.continuations

def World.read (w : World σ (Resumption X K)) : TreeWorld X K σ :=
  ⟨w.rest, w.cells.map fun cell => ⟨cell.used, cell.resume.map Resumption.tree⟩⟩

end Blot.Effects
