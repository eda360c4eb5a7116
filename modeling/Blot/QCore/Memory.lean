import Blot.QCore.Conversion
import Blot.Support.Worlds

/-!
# What stands in memory

A `Heap` says what has been built at each address.  A term `Stands` in it when each of its nodes is what the heap has at
its address, so that two nodes of one address are the same.

* `leads_traverseValue` — a walk builds a new term, which is the substitution of the terms without nodes;
* `leads_shiftValue`, `leads_substituteValue` — shifting and substitution.
-/

namespace Blot.QCore

open Blot.Support Blot.Support.Binding Attempt

/-- What has been built at each address. -/
structure Heap where
  cell : ℕ → Option (PureValue ⊕ PureComputation)

instance : Preorder Heap where
  le H H' := ∀ a x, H.cell a = some x → H'.cell a = some x
  le_refl _ _ _ h := h
  le_trans _ _ _ h h' a x hx := h' a x (h a x hx)

def Heap.Bounded (H : Heap) (next : ℕ) : Prop := ∀ a, next ≤ a → H.cell a = none

mutual
def PureValue.Stands (H : Heap) : PureValue → Prop
  | .boundVariable node index => H.cell node.address = some (.inl (.boundVariable node index))
  | .globalDefinition node definition semantics =>
    H.cell node.address = some (.inl (.globalDefinition node definition semantics))
  | .universeValue node level => H.cell node.address = some (.inl (.universeValue node level))
  | .dependentPi node domain codomain grade interval =>
    H.cell node.address = some (.inl (.dependentPi node domain codomain grade interval)) ∧ domain.Stands H ∧
      codomain.Stands H
  | .dependentSigma node first second =>
    H.cell node.address = some (.inl (.dependentSigma node first second)) ∧ first.Stands H ∧ second.Stands H
  | .lambda node body => H.cell node.address = some (.inl (.lambda node body)) ∧ body.Stands H
  | .pair node first second =>
    H.cell node.address = some (.inl (.pair node first second)) ∧ first.Stands H ∧ second.Stands H
  | .firstProjection node pair => H.cell node.address = some (.inl (.firstProjection node pair)) ∧ pair.Stands H
  | .secondProjection node pair => H.cell node.address = some (.inl (.secondProjection node pair)) ∧ pair.Stands H
/-- Each node of the computation is what the heap has at its address. -/
def PureComputation.Stands (H : Heap) : PureComputation → Prop
  | .returnValue node value => H.cell node.address = some (.inr (.returnValue node value)) ∧ value.Stands H
  | .letValue node value body =>
    H.cell node.address = some (.inr (.letValue node value body)) ∧ value.Stands H ∧ body.Stands H
  | .bind node first body =>
    H.cell node.address = some (.inr (.bind node first body)) ∧ first.Stands H ∧ body.Stands H
  | .apply node function argument =>
    H.cell node.address = some (.inr (.apply node function argument)) ∧ function.Stands H ∧ argument.Stands H
end

section Stands

variable {H H' : Heap} {next : ℕ}

mutual
theorem PureValue.Stands.mono (hle : H ≤ H') : ∀ {v : PureValue}, v.Stands H → v.Stands H'
  | .boundVariable _ _, h => hle _ _ h
  | .globalDefinition _ _ _, h => hle _ _ h
  | .universeValue _ _, h => hle _ _ h
  | .dependentPi _ _ _ _ _, ⟨h, hdomain, hcodomain⟩ => ⟨hle _ _ h, hdomain.mono hle, hcodomain.mono hle⟩
  | .dependentSigma _ _ _, ⟨h, hfirst, hsecond⟩ => ⟨hle _ _ h, hfirst.mono hle, hsecond.mono hle⟩
  | .lambda _ _, ⟨h, hbody⟩ => ⟨hle _ _ h, hbody.mono hle⟩
  | .pair _ _ _, ⟨h, hfirst, hsecond⟩ => ⟨hle _ _ h, hfirst.mono hle, hsecond.mono hle⟩
  | .firstProjection _ _, ⟨h, hpair⟩ => ⟨hle _ _ h, hpair.mono hle⟩
  | .secondProjection _ _, ⟨h, hpair⟩ => ⟨hle _ _ h, hpair.mono hle⟩
theorem PureComputation.Stands.mono (hle : H ≤ H') : ∀ {c : PureComputation}, c.Stands H → c.Stands H'
  | .returnValue _ _, ⟨h, hvalue⟩ => ⟨hle _ _ h, hvalue.mono hle⟩
  | .letValue _ _ _, ⟨h, hvalue, hbody⟩ => ⟨hle _ _ h, hvalue.mono hle, hbody.mono hle⟩
  | .bind _ _ _, ⟨h, hfirst, hbody⟩ => ⟨hle _ _ h, hfirst.mono hle, hbody.mono hle⟩
  | .apply _ _ _, ⟨h, hfunction, hargument⟩ => ⟨hle _ _ h, hfunction.mono hle, hargument.mono hle⟩
end

theorem PureValue.Stands.cell {v : PureValue} (h : v.Stands H) : H.cell v.node.address = some (.inl v) := by
  cases v with
  | boundVariable | globalDefinition | universeValue => exact h
  | dependentPi | dependentSigma | lambda | pair | firstProjection | secondProjection => exact h.1

theorem PureComputation.Stands.cell {c : PureComputation} (h : c.Stands H) :
    H.cell c.node.address = some (.inr c) := by
  cases c with
  | returnValue | letValue | bind | apply => exact h.1

/-- A node at the next address can be built. -/
theorem Heap.Bounded.extend (hbounded : H.Bounded next) (x : PureValue ⊕ PureComputation) :
    ∃ H', H ≤ H' ∧ H'.Bounded (next + 1) ∧ H'.cell next = some x := by
  refine ⟨⟨fun a => if a = next then some x else H.cell a⟩, fun a y hy => ?_, fun a ha => ?_, if_pos rfl⟩
  · have hne : a ≠ next := by
      rintro rfl
      rw [hbounded a (Nat.le_refl a)] at hy
      cases hy
    change (if a = next then some x else H.cell a) = some y
    rwa [if_neg hne]
  · change (if a = next then some x else H.cell a) = none
    rw [if_neg (Nat.ne_of_gt ha)]
    exact hbounded a (Nat.le_of_succ_le ha)

end Stands

/-! ### Building terms -/

section Build

variable {H : Heap} {source : ℕ} {P : Heap → PureValue → Prop} {Q : Heap → PureComputation → Prop}

theorem leads_value {make : Node → PureValue}
    (h : ∀ H' node, H ≤ H' → H'.cell node.address = some (.inl (make node)) → P H' (make node)) :
    Leads Heap.Bounded H (allocate source >>= fun node => pure (make node)) P := by
  intro next v next' hbounded hrun
  cases hrun
  obtain ⟨H', hle, hbounded', hcell⟩ := hbounded.extend (.inl (make ⟨next, source⟩))
  exact ⟨H', hle, hbounded', h H' ⟨next, source⟩ hle hcell⟩

theorem leads_computation {make : Node → PureComputation}
    (h : ∀ H' node, H ≤ H' → H'.cell node.address = some (.inr (make node)) → Q H' (make node)) :
    Leads Heap.Bounded H (allocate source >>= fun node => pure (make node)) Q := by
  intro next v next' hbounded hrun
  cases hrun
  obtain ⟨H', hle, hbounded', hcell⟩ := hbounded.extend (.inr (make ⟨next, source⟩))
  exact ⟨H', hle, hbounded', h H' ⟨next, source⟩ hle hcell⟩

theorem leads_nextBindingDepth {depth : ℕ} {node : QCoreTypingNode} :
    Leads Heap.Bounded H (nextBindingDepth depth node) fun _ inner => inner = depth + 1 := by
  unfold nextBindingDepth
  split
  · exact leads_pure rfl
  · exact leads_stop

end Build

/-! ### Walks -/

/-- A walk's step at a variable does what the substitution `σ` says at the depth. -/
def Substitutes (onVariable : Node → ℕ → ℕ → Attempt ℕ Failure PureValue) (σ : ℕ → ℕ → Term Operator) : Prop :=
  ∀ H node index depth, Leads Heap.Bounded H (onVariable node index depth) fun H' r =>
    r.Stands H' ∧ r.term = σ depth index

section Walk

variable {onVariable : Node → ℕ → ℕ → Attempt ℕ Failure PureValue} {σ : ℕ → ℕ → Term Operator} {H : Heap}

mutual
/-- **A walk** builds a new term; without nodes it is the substitution. -/
theorem leads_traverseValue (hσ : ∀ depth, σ (depth + 1) = Term.up (σ depth)) (h : Substitutes onVariable σ) {H : Heap}
    {depth : ℕ} : ∀ v : PureValue, Leads Heap.Bounded H (traverseValue onVariable depth v) fun H' r =>
      r.Stands H' ∧ r.term = v.term.subst (σ depth)
  | .boundVariable node index => h H node index depth
  | .globalDefinition _ _ _ => leads_value fun _ _ _ hcell => ⟨hcell, rfl⟩
  | .universeValue _ _ => leads_value fun _ _ _ hcell => ⟨hcell, rfl⟩
  | .dependentPi _ domain codomain _ _ => by
    refine leads_bind (leads_traverseValue hσ h domain) fun H₁ domain' _ hdomain => ?_
    refine leads_bind leads_nextBindingDepth fun H₂ inner hle₂ hinner => ?_
    subst hinner
    refine leads_bind (leads_traverseValue hσ h codomain) fun H₃ codomain' hle₃ hcodomain => ?_
    refine leads_value fun H₄ node hle₄ hcell => ?_
    refine ⟨⟨hcell, (hdomain.1.mono hle₂).mono (le_trans hle₃ hle₄), hcodomain.1.mono hle₄⟩, ?_⟩
    rw [PureValue.term, hdomain.2, hcodomain.2, hσ]
    rfl
  | .dependentSigma _ first second => by
    refine leads_bind (leads_traverseValue hσ h first) fun H₁ first' _ hfirst => ?_
    refine leads_bind leads_nextBindingDepth fun H₂ inner hle₂ hinner => ?_
    subst hinner
    refine leads_bind (leads_traverseValue hσ h second) fun H₃ second' hle₃ hsecond => ?_
    refine leads_value fun H₄ node hle₄ hcell => ?_
    refine ⟨⟨hcell, (hfirst.1.mono hle₂).mono (le_trans hle₃ hle₄), hsecond.1.mono hle₄⟩, ?_⟩
    rw [PureValue.term, hfirst.2, hsecond.2, hσ]
    rfl
  | .lambda _ body => by
    refine leads_bind leads_nextBindingDepth fun H₁ inner hle₁ hinner => ?_
    subst hinner
    refine leads_bind (leads_traverseComputation hσ h body) fun H₂ body' _ hbody => ?_
    refine leads_value fun H₃ node hle₃ hcell => ?_
    refine ⟨⟨hcell, hbody.1.mono hle₃⟩, ?_⟩
    rw [PureValue.term, hbody.2, hσ]
    rfl
  | .pair _ first second => by
    refine leads_bind (leads_traverseValue hσ h first) fun H₁ first' _ hfirst => ?_
    refine leads_bind (leads_traverseValue hσ h second) fun H₂ second' hle₂ hsecond => ?_
    refine leads_value fun H₃ node hle₃ hcell => ?_
    refine ⟨⟨hcell, hfirst.1.mono (le_trans hle₂ hle₃), hsecond.1.mono hle₃⟩, ?_⟩
    rw [PureValue.term, hfirst.2, hsecond.2]
    rfl
  | .firstProjection _ pair => by
    refine leads_bind (leads_traverseValue hσ h pair) fun H₁ pair' _ hpair => ?_
    refine leads_value fun H₂ node hle₂ hcell => ⟨⟨hcell, hpair.1.mono hle₂⟩, ?_⟩
    rw [PureValue.term, hpair.2]
    rfl
  | .secondProjection _ pair => by
    refine leads_bind (leads_traverseValue hσ h pair) fun H₁ pair' _ hpair => ?_
    refine leads_value fun H₂ node hle₂ hcell => ⟨⟨hcell, hpair.1.mono hle₂⟩, ?_⟩
    rw [PureValue.term, hpair.2]
    rfl
theorem leads_traverseComputation (hσ : ∀ depth, σ (depth + 1) = Term.up (σ depth)) (h : Substitutes onVariable σ)
    {H : Heap} {depth : ℕ} : ∀ c : PureComputation,
    Leads Heap.Bounded H (traverseComputation onVariable depth c) fun H' r =>
      r.Stands H' ∧ r.term = c.term.subst (σ depth)
  | .returnValue _ value => by
    refine leads_bind (leads_traverseValue hσ h value) fun H₁ value' _ hvalue => ?_
    refine leads_computation fun H₂ node hle₂ hcell => ⟨⟨hcell, hvalue.1.mono hle₂⟩, ?_⟩
    rw [PureComputation.term, hvalue.2]
    rfl
  | .letValue _ value body => by
    refine leads_bind (leads_traverseValue hσ h value) fun H₁ value' _ hvalue => ?_
    refine leads_bind leads_nextBindingDepth fun H₂ inner hle₂ hinner => ?_
    subst hinner
    refine leads_bind (leads_traverseComputation hσ h body) fun H₃ body' hle₃ hbody => ?_
    refine leads_computation fun H₄ node hle₄ hcell => ?_
    refine ⟨⟨hcell, (hvalue.1.mono hle₂).mono (le_trans hle₃ hle₄), hbody.1.mono hle₄⟩, ?_⟩
    rw [PureComputation.term, hvalue.2, hbody.2, hσ]
    rfl
  | .bind _ first body => by
    refine leads_bind (leads_traverseComputation hσ h first) fun H₁ first' _ hfirst => ?_
    refine leads_bind leads_nextBindingDepth fun H₂ inner hle₂ hinner => ?_
    subst hinner
    refine leads_bind (leads_traverseComputation hσ h body) fun H₃ body' hle₃ hbody => ?_
    refine leads_computation fun H₄ node hle₄ hcell => ?_
    refine ⟨⟨hcell, (hfirst.1.mono hle₂).mono (le_trans hle₃ hle₄), hbody.1.mono hle₄⟩, ?_⟩
    rw [PureComputation.term, hfirst.2, hbody.2, hσ]
    rfl
  | .apply _ function argument => by
    refine leads_bind (leads_traverseValue hσ h function) fun H₁ function' _ hfunction => ?_
    refine leads_bind (leads_traverseValue hσ h argument) fun H₂ argument' hle₂ hargument => ?_
    refine leads_computation fun H₃ node hle₃ hcell => ?_
    refine ⟨⟨hcell, hfunction.1.mono (le_trans hle₂ hle₃), hargument.1.mono hle₃⟩, ?_⟩
    rw [PureComputation.term, hfunction.2, hargument.2]
    rfl
end

end Walk

/-! ### Shifting and substitution -/

/-- The renaming of a shift. -/
def shifted (amount cutoff index : ℕ) : Term Operator := .var (if cutoff ≤ index then index + amount else index)

def substituted (replacement : Term Operator) (depth index : ℕ) : Term Operator :=
  if index = depth then replacement.rename (· + depth) else .var (if depth < index then index - 1 else index)

section Substitution

variable {H : Heap} {amount cutoff depth : ℕ} {v replacement : PureValue} {c : PureComputation} {t : Term Operator}

theorem shifted_succ : shifted amount (cutoff + 1) = Term.up (shifted amount cutoff) := by
  funext i
  cases i with
  | zero => rfl
  | succ i =>
    change Term.var _ = Term.var _
    by_cases h : cutoff ≤ i
    · rw [if_pos h, if_pos (Nat.succ_le_succ h), Nat.succ_eq_add_one]
      congr 1
      omega
    · rw [if_neg h, if_neg (fun h' => h (Nat.le_of_succ_le_succ h'))]

theorem shifted_zero : t.subst (shifted amount 0) = t.rename (· + amount) := by
  rw [Term.rename_eq_subst]
  rfl

theorem substituted_succ : substituted t (depth + 1) = Term.up (substituted t depth) := by
  funext i
  cases i with
  | zero => rfl
  | succ i =>
    change (if i + 1 = depth + 1 then _ else _) = Term.rename Nat.succ (if i = depth then _ else _)
    by_cases h : i = depth
    · rw [if_pos h, if_pos (congrArg Nat.succ h), Term.rename_rename]
      rfl
    · rw [if_neg h, if_neg (fun h' => h (Nat.succ.inj h'))]
      change Term.var _ = Term.var _
      by_cases hlt : depth < i
      · rw [if_pos hlt, if_pos (Nat.succ_lt_succ hlt)]
        congr 1
        omega
      · rw [if_neg hlt, if_neg (fun h' => hlt (Nat.lt_of_succ_lt_succ h'))]

theorem substituted_zero : c.term.subst (substituted t 0) = c.term.inst t := by
  have hpoint : substituted t 0 = Term.nearest t := by
    funext i
    cases i with
    | zero => exact Term.rename_id
    | succ i => rfl
  rw [hpoint, Term.inst]

theorem substitutes_shiftVariable : Substitutes (shiftVariable amount) (shifted amount) := by
  intro H node index depth
  have hshifted : Leads Heap.Bounded H (shiftIndex amount node index depth) fun _ i =>
      i = if depth ≤ index then index + amount else index := by
    unfold shiftIndex
    split
    · split
      · exact leads_pure rfl
      · exact leads_stop
    · exact leads_pure rfl
  refine leads_bind hshifted fun H₁ i _ hi => ?_
  subst hi
  exact leads_value fun _ _ _ hcell => ⟨hcell, rfl⟩

theorem leads_shiftValue : Leads Heap.Bounded H (shiftValue v amount cutoff) fun H' r =>
    r.Stands H' ∧ r.term = v.term.subst (shifted amount cutoff) :=
  leads_traverseValue (fun _ => shifted_succ) substitutes_shiftVariable v

theorem substitutes_substituteVariable :
    Substitutes (substituteVariable replacement) (substituted replacement.term) := by
  intro H node index depth
  unfold substituteVariable substituted
  split
  · refine leads_shiftValue.imp fun H' r _ hr => ⟨hr.1, ?_⟩
    rw [hr.2, shifted_zero]
  · exact leads_value fun _ _ _ hcell => ⟨hcell, rfl⟩

/-- **Substitution in a value** builds a new value. -/
theorem leads_substituteValue : Leads Heap.Bounded H (substituteValue v replacement depth) fun H' r =>
    r.Stands H' ∧ r.term = v.term.subst (substituted replacement.term depth) :=
  leads_traverseValue (fun _ => substituted_succ) substitutes_substituteVariable v

/-- **Substitution in a computation** builds a new computation. -/
theorem leads_substituteComputation : Leads Heap.Bounded H (substituteComputation c replacement depth) fun H' r =>
    r.Stands H' ∧ r.term = c.term.subst (substituted replacement.term depth) :=
  leads_traverseComputation (fun _ => substituted_succ) substitutes_substituteVariable c

end Substitution

end Blot.QCore
