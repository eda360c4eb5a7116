import Blot.QCore.Normalizer
import Blot.Support.Settles

/-!
# The normalizer comes to an end

Each contraction takes one from the budget, and between contractions the terms get smaller: with enough rounds the
normalizer never runs out of them, whatever they are.

* `Normalizer.ends_value`, `Normalizer.ends_computation` — on every term, from every state.
-/

namespace Blot.QCore

open Blot.Support Attempt

/-! ### Substitution does not run out of rounds -/

/-- A run that does not end for want of rounds. -/
def Finishes {σ α : Type} (m : Attempt σ Failure α) : Prop := ∀ s, (m s).1 ≠ .error .unfinished

section Finishes

variable {σ α β : Type} {m : Attempt σ Failure α} {f : α → Attempt σ Failure β}

theorem finishes_pure {a : α} : Finishes (pure a : Attempt σ Failure α) := fun _ => nofun

theorem finishes_bind (hm : Finishes m) (hf : ∀ a, Finishes (f a)) : Finishes (m >>= f) := by
  intro s
  have h := hm s
  rw [bind_run]
  revert h
  cases m s with
  | mk outcome s' =>
    cases outcome with
    | error e => exact fun h h' => h (by cases h'; rfl)
    | ok a => exact fun _ => hf a s'

theorem finishes_allocate {source : ℕ} : Finishes (allocate source) := fun _ => nofun

theorem finishes_nextBindingDepth {depth : ℕ} {node : QCoreTypingNode} : Finishes (nextBindingDepth depth node) := by
  unfold nextBindingDepth
  split
  · exact finishes_pure
  · exact fun _ => nofun

variable {onVariable : Node → ℕ → ℕ → Attempt ℕ Failure PureValue}

mutual
theorem finishes_traverseValue (h : ∀ node index depth, Finishes (onVariable node index depth)) {depth : ℕ} :
    ∀ v : PureValue, Finishes (traverseValue onVariable depth v)
  | .boundVariable node index => h node index depth
  | .globalDefinition _ _ _ => finishes_bind finishes_allocate fun _ => finishes_pure
  | .universeValue _ _ => finishes_bind finishes_allocate fun _ => finishes_pure
  | .dependentPi _ domain codomain _ _ =>
    finishes_bind (finishes_traverseValue h domain) fun _ => finishes_bind finishes_nextBindingDepth fun _ =>
      finishes_bind (finishes_traverseValue h codomain) fun _ => finishes_bind finishes_allocate fun _ => finishes_pure
  | .dependentSigma _ first second =>
    finishes_bind (finishes_traverseValue h first) fun _ => finishes_bind finishes_nextBindingDepth fun _ =>
      finishes_bind (finishes_traverseValue h second) fun _ => finishes_bind finishes_allocate fun _ => finishes_pure
  | .lambda _ body =>
    finishes_bind finishes_nextBindingDepth fun _ => finishes_bind (finishes_traverseComputation h body) fun _ =>
      finishes_bind finishes_allocate fun _ => finishes_pure
  | .pair _ first second =>
    finishes_bind (finishes_traverseValue h first) fun _ => finishes_bind (finishes_traverseValue h second) fun _ =>
      finishes_bind finishes_allocate fun _ => finishes_pure
  | .firstProjection _ pair =>
    finishes_bind (finishes_traverseValue h pair) fun _ => finishes_bind finishes_allocate fun _ => finishes_pure
  | .secondProjection _ pair =>
    finishes_bind (finishes_traverseValue h pair) fun _ => finishes_bind finishes_allocate fun _ => finishes_pure
theorem finishes_traverseComputation (h : ∀ node index depth, Finishes (onVariable node index depth)) {depth : ℕ} :
    ∀ c : PureComputation, Finishes (traverseComputation onVariable depth c)
  | .returnValue _ value =>
    finishes_bind (finishes_traverseValue h value) fun _ => finishes_bind finishes_allocate fun _ => finishes_pure
  | .letValue _ value body =>
    finishes_bind (finishes_traverseValue h value) fun _ => finishes_bind finishes_nextBindingDepth fun _ =>
      finishes_bind (finishes_traverseComputation h body) fun _ =>
        finishes_bind finishes_allocate fun _ => finishes_pure
  | .bind _ first body =>
    finishes_bind (finishes_traverseComputation h first) fun _ => finishes_bind finishes_nextBindingDepth fun _ =>
      finishes_bind (finishes_traverseComputation h body) fun _ =>
        finishes_bind finishes_allocate fun _ => finishes_pure
  | .apply _ function argument =>
    finishes_bind (finishes_traverseValue h function) fun _ =>
      finishes_bind (finishes_traverseValue h argument) fun _ =>
        finishes_bind finishes_allocate fun _ => finishes_pure
end

end Finishes

theorem finishes_shiftVariable {amount : ℕ} (node : Node) (index cutoff : ℕ) :
    Finishes (shiftVariable amount node index cutoff) := by
  refine finishes_bind ?_ fun _ => finishes_bind finishes_allocate fun _ => finishes_pure
  unfold shiftIndex
  split
  · split
    · exact finishes_pure
    · exact fun _ => nofun
  · exact finishes_pure

theorem finishes_substituteComputation {c : PureComputation} {v : PureValue} {depth : ℕ} :
    Finishes (substituteComputation c v depth) := by
  refine finishes_traverseComputation (fun node index depth => ?_) c
  unfold substituteVariable
  split
  · exact finishes_traverseValue finishes_shiftVariable v
  · exact finishes_bind finishes_allocate fun _ => finishes_pure

/-! ### The budget goes down -/

namespace Normalizer

section Steps

variable {α : Type} {s : Normalizer} {node : QCoreTypingNode} {source : ℕ}

/-- The family settles, and the budget does not rise. -/
abbrev Ends (m : ℕ → Attempt Normalizer Failure α) (s : Normalizer) : Prop := Settles .unfinished remaining m s

theorem ends_onHeap {m : Attempt ℕ Failure α} (h : Finishes m) : Ends (fun _ => onHeap m) s :=
  settles_of_run (h s.next) (Nat.le_refl _)

theorem ends_node {make : Node → α} :
    Ends (fun _ => onHeap (allocate source) >>= fun node => pure (make node)) s :=
  settles_bind (ends_onHeap finishes_allocate) fun _ _ _ _ => settles_pure

theorem ends_reduce : Ends (fun _ => reduce node) s := by
  refine settles_of_run ?_ ?_
  · rw [reduce, bind_run_ok (get_run s)]
    split <;> nofun
  · rw [reduce, bind_run_ok (get_run s)]
    split
    · exact Nat.le_refl _
    · exact Nat.sub_le _ _

theorem reduce_lt {u : Unit} {s' : Normalizer} (h : reduce node s = (.ok u, s')) : s'.remaining < s.remaining := by
  rw [reduce, bind_run_ok (get_run s)] at h
  by_cases hzero : s.remaining = 0
  · rw [if_pos hzero] at h
    exact absurd h stop_ne_ok
  · rw [if_neg hzero] at h
    cases h
    exact Nat.sub_lt (Nat.pos_of_ne_zero hzero) Nat.one_pos

theorem ends_remember {T : Type} {table : Normalizer → List (ℕ × T × T)} {record : ℕ × T × T → Normalizer → Normalizer}
    {node : T → Node} {t : T} {m : ℕ → Attempt Normalizer Failure T}
    (hrecord : ∀ entry s, (record entry s).remaining = s.remaining) (h : Ends m s) :
    Ends (fun rounds => remember table record node t (m rounds)) s := by
  cases hlookup : (table s).lookup (node t).address with
  | some entry =>
    obtain ⟨input, normalized⟩ := entry
    have hrun : ∀ rounds, remember table record node t (m rounds) s =
        (if (node input).address = (node t).address then pure normalized else stop .asserted : Attempt _ _ _) s := by
      intro rounds
      rw [remember, bind_run_ok (get_run s), hlookup]
    refine ⟨0, _, fun rounds _ => hrun rounds, ?_, ?_⟩
    · split <;> nofun
    · split <;> exact Nat.le_refl _
  | none =>
    have hrun : ∀ rounds, remember table record node t (m rounds) s = (m rounds >>= fun normalized => do
        Attempt.modify (record ((node t).address, t, normalized))
        pure normalized) s := by
      intro rounds
      rw [remember, bind_run_ok (get_run s), hlookup]
    have hrest : ∀ r s', Ends (fun _ => do
        Attempt.modify (record ((node t).address, t, r))
        pure r) s' := fun r s' =>
      settles_bind (settles_of_run nofun (Nat.le_of_eq (hrecord _ s'))) fun _ _ _ _ => settles_pure
    obtain ⟨enough, result, hresult, hfinished⟩ := settles_bind h fun r s' _ _ => hrest r s'
    exact ⟨enough, result, fun rounds hle => (hrun rounds).trans (hresult rounds hle), hfinished⟩

end Steps

section Runs

variable {n : ℕ}

/-- Computations end from every state with less of the budget than `n`. -/
def EndsBelow (n : ℕ) : Prop :=
  ∀ s : Normalizer, s.remaining < n → ∀ c, Ends (fun rounds => computation rounds c) s

/-- A redex: what it contracts to has less of the budget. -/
theorem ends_contractum (hbelow : EndsBelow n) {node : QCoreTypingNode} {body : PureComputation} {v : PureValue}
    {s : Normalizer} (hs : s.remaining ≤ n) :
    Ends (fun rounds => do
      reduce node
      let body ← onHeap (substituteComputation body v 0)
      computation rounds body) s := by
  refine settles_bind ends_reduce fun u s₁ hrun _ => ?_
  obtain ⟨-, hreduce⟩ := hrun
  have hlt : s₁.remaining < n := Nat.lt_of_lt_of_le (reduce_lt hreduce) hs
  exact settles_bind (ends_onHeap finishes_substituteComputation) fun result s₂ _ hle =>
    hbelow s₂ (Nat.lt_of_le_of_lt hle hlt) result

mutual
theorem ends_value_of_below (hbelow : EndsBelow n) :
    ∀ (v : PureValue) (s : Normalizer), s.remaining ≤ n → Ends (fun rounds => value rounds v) s
  | .boundVariable _ _, _, _ => settles_of_succ (ends_remember (fun _ _ => rfl) ends_node)
  | .globalDefinition _ _ _, _, _ => settles_of_succ (ends_remember (fun _ _ => rfl) ends_node)
  | .universeValue _ _, _, _ => settles_of_succ (ends_remember (fun _ _ => rfl) ends_node)
  | .dependentPi _ domain codomain _ _, s, hs => by
    refine settles_of_succ (ends_remember (fun _ _ => rfl) ?_)
    refine settles_bind (ends_value_of_below hbelow domain s hs) fun _ s₁ _ hle => ?_
    exact settles_bind (ends_value_of_below hbelow codomain s₁ (Nat.le_trans hle hs)) fun _ _ _ _ => ends_node
  | .dependentSigma _ first second, s, hs => by
    refine settles_of_succ (ends_remember (fun _ _ => rfl) ?_)
    refine settles_bind (ends_value_of_below hbelow first s hs) fun _ s₁ _ hle => ?_
    exact settles_bind (ends_value_of_below hbelow second s₁ (Nat.le_trans hle hs)) fun _ _ _ _ => ends_node
  | .lambda _ body, s, hs => by
    refine settles_of_succ (ends_remember (fun _ _ => rfl) ?_)
    exact settles_bind (ends_computation_of_below hbelow body s hs) fun _ _ _ _ => ends_node
  | .pair _ first second, s, hs => by
    refine settles_of_succ (ends_remember (fun _ _ => rfl) ?_)
    refine settles_bind (ends_value_of_below hbelow first s hs) fun _ s₁ _ hle => ?_
    exact settles_bind (ends_value_of_below hbelow second s₁ (Nat.le_trans hle hs)) fun _ _ _ _ => ends_node
  | .firstProjection _ pair, s, hs => by
    refine settles_of_succ (ends_remember (fun _ _ => rfl) ?_)
    refine settles_bind (ends_value_of_below hbelow pair s hs) fun pair' s₁ _ _ => ?_
    split
    · exact settles_bind ends_reduce fun _ _ _ _ => settles_pure
    · exact ends_node
  | .secondProjection _ pair, s, hs => by
    refine settles_of_succ (ends_remember (fun _ _ => rfl) ?_)
    refine settles_bind (ends_value_of_below hbelow pair s hs) fun pair' s₁ _ _ => ?_
    split
    · exact settles_bind ends_reduce fun _ _ _ _ => settles_pure
    · exact ends_node
theorem ends_computation_of_below (hbelow : EndsBelow n) :
    ∀ (c : PureComputation) (s : Normalizer), s.remaining ≤ n → Ends (fun rounds => computation rounds c) s
  | .returnValue _ returned, s, hs => by
    refine settles_of_succ (ends_remember (fun _ _ => rfl) ?_)
    exact settles_bind (ends_value_of_below hbelow returned s hs) fun _ _ _ _ => ends_node
  | .letValue _ bound _, s, hs => by
    refine settles_of_succ (ends_remember (fun _ _ => rfl) ?_)
    refine settles_bind (ends_value_of_below hbelow bound s hs) fun _ s₁ _ hle => ?_
    exact ends_contractum hbelow (Nat.le_trans hle hs)
  | .bind _ first body, s, hs => by
    refine settles_of_succ (ends_remember (fun _ _ => rfl) ?_)
    refine settles_bind (ends_computation_of_below hbelow first s hs) fun first' s₁ _ hle => ?_
    split
    · exact ends_contractum hbelow (Nat.le_trans hle hs)
    · exact settles_bind (ends_computation_of_below hbelow body s₁ (Nat.le_trans hle hs)) fun _ _ _ _ => ends_node
  | .apply _ function argument, s, hs => by
    refine settles_of_succ (ends_remember (fun _ _ => rfl) ?_)
    refine settles_bind (ends_value_of_below hbelow function s hs) fun function' s₁ _ hle => ?_
    refine settles_bind (ends_value_of_below hbelow argument s₁ (Nat.le_trans hle hs)) fun argument' s₂ _ hle' => ?_
    split
    · exact ends_contractum hbelow (Nat.le_trans hle' (Nat.le_trans hle hs))
    · exact ends_node
end

end Runs

/-- **The normalizer comes to an end**, on every term and from every state. -/
theorem ends_computation (s : Normalizer) (c : PureComputation) : Ends (fun rounds => computation rounds c) s := by
  have hall : ∀ n, ∀ s : Normalizer, s.remaining < n → ∀ c, Ends (fun rounds => computation rounds c) s := by
    intro n
    induction n with
    | zero => exact fun s hs => absurd hs (Nat.not_lt_zero _)
    | succ n ih => exact fun s hs c => ends_computation_of_below ih c s (Nat.le_of_lt_succ hs)
  exact hall (s.remaining + 1) s (Nat.lt_succ_self _) c

theorem ends_value (s : Normalizer) (v : PureValue) : Ends (fun rounds => value rounds v) s :=
  ends_value_of_below (fun s _ c => ends_computation s c) v s (Nat.le_refl s.remaining)

end Normalizer

end Blot.QCore
