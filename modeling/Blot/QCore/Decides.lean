import Blot.Support.Table
import Blot.QCore.Erasure
import Blot.QCore.Termination

/-!
# Conversion is decided by normal forms (`values_convert`)

* `leads_value` — the normalizer gives a convertible normal form, whatever it remembers;
* `conversion_is_decided` — two terms that normalize are found convertible if and only if they are.
-/

namespace Blot.QCore

open Blot.Support Blot.Support.Binding Attempt

def NormalFormOf (v r : PureValue) : Prop := ValueConversion v r ∧ r.Normal

def NormalComputationOf (c r : PureComputation) : Prop := ComputationConversion c r ∧ r.Normal

namespace Normalizer

/-- What is remembered stands in memory, with its normal form. -/
structure Sound (H : Heap) (s : Normalizer) : Prop where
  bounded : H.Bounded s.next
  values : ∀ a v r, (a, v, r) ∈ s.values → H.cell a = some (.inl v) ∧ NormalFormOf v r
  computations : ∀ a c r, (a, c, r) ∈ s.computations → H.cell a = some (.inr c) ∧ NormalComputationOf c r

section Steps

variable {H : Heap} {α : Type}

theorem leads_onHeap {m : Attempt ℕ Failure α} {P : Heap → α → Prop} (h : Leads Heap.Bounded H m P) :
    Leads Sound H (onHeap m) P := by
  intro s a s' hs hrun
  cases hm : m s.next with
  | mk result next =>
    rw [onHeap, hm] at hrun
    cases hrun
    obtain ⟨H', hle, hbounded, ha⟩ := h s.next a next hs.bounded hm
    refine ⟨H', hle, ⟨hbounded, fun a v r hmem => ?_, fun a c r hmem => ?_⟩, ha⟩
    · obtain ⟨hcell, hnormal⟩ := hs.values a v r hmem
      exact ⟨hle _ _ hcell, hnormal⟩
    · obtain ⟨hcell, hnormal⟩ := hs.computations a c r hmem
      exact ⟨hle _ _ hcell, hnormal⟩

/-- A new node: the term with it meets what any node meets. -/
theorem leads_node {source : ℕ} {make : Node → α} {P : α → Prop} (h : ∀ node, P (make node)) :
    Leads Sound H (onHeap (allocate source) >>= fun node => pure (make node)) fun _ r => P r := by
  have hallocate : Leads Heap.Bounded H (allocate source) fun _ _ => True := by
    intro next node next' hbounded hrun
    cases hrun
    exact ⟨H, le_refl H, fun a ha => hbounded a (Nat.le_of_succ_le ha), trivial⟩
  exact leads_bind (leads_onHeap hallocate) fun _ node _ _ => leads_pure (h node)

theorem leads_reduce {node : QCoreTypingNode} : Leads Sound H (reduce node) fun _ _ => True := by
  intro s a s' hs hrun
  obtain ⟨_, _, hget, hrun⟩ := bind_eq_ok.1 hrun
  obtain ⟨rfl, rfl⟩ := get_eq_ok.1 hget
  split at hrun
  · exact absurd hrun stop_ne_ok
  · cases hrun
    exact ⟨H, le_refl H, ⟨hs.bounded, hs.values, hs.computations⟩, trivial⟩

/-- **What is remembered is what would be computed.** -/
theorem leads_remember {T : Type} {table : Normalizer → List (ℕ × T × T)}
    {record : ℕ × T × T → Normalizer → Normalizer} {node : T → Node} {t : T} {m : Attempt Normalizer Failure T}
    {Good : T → Prop}
    (hfound : ∀ s input r, Sound H s → ((node t).address, input, r) ∈ table s → input = t ∧ Good r)
    (hrecord : ∀ H' s r, H ≤ H' → Sound H' s → Good r → Sound H' (record ((node t).address, t, r) s))
    (hm : Leads Sound H m fun _ r => Good r) :
    Leads Sound H (remember table record node t m) fun _ r => Good r := by
  intro s r s' hs hrun
  obtain ⟨_, _, hget, hrun⟩ := bind_eq_ok.1 hrun
  obtain ⟨rfl, rfl⟩ := get_eq_ok.1 hget
  cases hlookup : (table s).lookup (node t).address with
  | some entry =>
    obtain ⟨input, normalized⟩ := entry
    rw [hlookup] at hrun
    obtain ⟨rfl, hgood⟩ := hfound s _ _ hs (Table.mem_of_lookup hlookup)
    dsimp only at hrun
    rw [if_pos rfl] at hrun
    obtain ⟨rfl, rfl⟩ := pure_eq_ok.1 hrun
    exact ⟨H, le_refl H, hs, hgood⟩
  | none =>
    rw [hlookup] at hrun
    obtain ⟨normalized, s₁, hfirst, hrun⟩ := bind_eq_ok.1 hrun
    obtain ⟨H', hle, hs₁, hgood⟩ := hm s normalized s₁ hs hfirst
    cases hrun
    exact ⟨H', hle, hrecord H' s₁ _ hle hs₁ hgood, hgood⟩

theorem leads_rememberValue {v : PureValue} {m : Attempt Normalizer Failure PureValue} (hv : v.Stands H)
    (hm : Leads Sound H m fun _ r => NormalFormOf v r) :
    Leads Sound H (remember Normalizer.values recordValue PureValue.node v m) fun _ r => NormalFormOf v r := by
  refine leads_remember (fun s input r hs hmem => ?_) (fun H' s r hle hs hr => ?_) hm
  · obtain ⟨hcell, hnormal⟩ := hs.values _ _ _ hmem
    -- the address has one node in memory
    have hinput : input = v := Sum.inl.inj (Option.some.inj (hcell.symm.trans hv.cell))
    exact ⟨hinput, hinput ▸ hnormal⟩
  · refine ⟨hs.bounded, fun a w r' hmem => ?_, hs.computations⟩
    rcases List.mem_cons.1 hmem with heq | hmem
    · cases heq
      exact ⟨(hv.mono hle).cell, hr⟩
    · exact hs.values a w r' hmem

theorem leads_rememberComputation {c : PureComputation} {m : Attempt Normalizer Failure PureComputation}
    (hc : c.Stands H) (hm : Leads Sound H m fun _ r => NormalComputationOf c r) :
    Leads Sound H (remember Normalizer.computations recordComputation PureComputation.node c m)
      fun _ r => NormalComputationOf c r := by
  refine leads_remember (fun s input r hs hmem => ?_) (fun H' s r hle hs hr => ?_) hm
  · obtain ⟨hcell, hnormal⟩ := hs.computations _ _ _ hmem
    have hinput : input = c := Sum.inr.inj (Option.some.inj (hcell.symm.trans hc.cell))
    exact ⟨hinput, hinput ▸ hnormal⟩
  · refine ⟨hs.bounded, hs.values, fun a d r' hmem => ?_⟩
    rcases List.mem_cons.1 hmem with heq | hmem
    · cases heq
      exact ⟨(hc.mono hle).cell, hr⟩
    · exact hs.computations a d r' hmem

end Steps

/-! ### The cases of a term -/

section Nodes

variable {H : Heap} {value : PureValue → Attempt Normalizer Failure PureValue}
  {computation : PureComputation → Attempt Normalizer Failure PureComputation}

theorem not_isPair {p : PureValue} (h : ∀ node v w, p = .pair node v w → False) : ¬ p.IsPair := by
  cases p with
  | pair node v w => exact (h node v w rfl).elim
  | _ => exact id

theorem not_isLambda {f : PureValue} (h : ∀ node body, f = .lambda node body → False) : ¬ f.IsLambda := by
  cases f with
  | lambda node body => exact (h node body rfl).elim
  | _ => exact id

theorem not_isReturn {c : PureComputation} (h : ∀ node v, c = .returnValue node v → False) : ¬ c.IsReturn := by
  cases c with
  | returnValue node v => exact (h node v rfl).elim
  | _ => exact id

/-- **A value is normalized** when the terms below are. -/
theorem leads_valueNode
    (hvalue : ∀ (H : Heap) (v : PureValue), v.Stands H → Leads Sound H (value v) fun _ r => NormalFormOf v r)
    (hcomputation : ∀ (H : Heap) (c : PureComputation), c.Stands H →
      Leads Sound H (computation c) fun _ r => NormalComputationOf c r) {v : PureValue} (hv : v.Stands H) :
    Leads Sound H (valueNode value computation v) fun _ r => NormalFormOf v r := by
  cases v with
  | boundVariable node index => exact leads_node fun node' => ⟨.boundVariable node node' index, trivial⟩
  | globalDefinition node definition semantics =>
    exact leads_node fun node' => ⟨.globalDefinition node node' definition semantics, trivial⟩
  | universeValue node level => exact leads_node fun node' => ⟨.universeValue node node' level, trivial⟩
  | dependentPi node domain codomain grade interval =>
    obtain ⟨-, hdomain, hcodomain⟩ := hv
    refine leads_bind (hvalue H domain hdomain) fun H₁ domain' hle hdomain' => ?_
    refine leads_bind (hvalue H₁ codomain (hcodomain.mono hle)) fun H₂ codomain' _ hcodomain' => ?_
    exact leads_node fun node' =>
      ⟨.dependentPi node node' grade grade interval hdomain'.1 hcodomain'.1, hdomain'.2, hcodomain'.2⟩
  | dependentSigma node first second =>
    obtain ⟨-, hfirst, hsecond⟩ := hv
    refine leads_bind (hvalue H first hfirst) fun H₁ first' hle hfirst' => ?_
    refine leads_bind (hvalue H₁ second (hsecond.mono hle)) fun H₂ second' _ hsecond' => ?_
    exact leads_node fun node' => ⟨.dependentSigma node node' hfirst'.1 hsecond'.1, hfirst'.2, hsecond'.2⟩
  | lambda node body =>
    obtain ⟨-, hbody⟩ := hv
    refine leads_bind (hcomputation H body hbody) fun H₁ body' _ hbody' => ?_
    exact leads_node fun node' => ⟨.lambda node node' hbody'.1, hbody'.2⟩
  | pair node first second =>
    obtain ⟨-, hfirst, hsecond⟩ := hv
    refine leads_bind (hvalue H first hfirst) fun H₁ first' hle hfirst' => ?_
    refine leads_bind (hvalue H₁ second (hsecond.mono hle)) fun H₂ second' _ hsecond' => ?_
    exact leads_node fun node' => ⟨.pair node node' hfirst'.1 hsecond'.1, hfirst'.2, hsecond'.2⟩
  | firstProjection node pair =>
    obtain ⟨-, hpair⟩ := hv
    refine leads_bind (hvalue H pair hpair) fun H₁ pair' _ hpair' => ?_
    obtain ⟨hconversion, hnormal⟩ := hpair'
    split
    · next node' first second =>
      refine leads_bind leads_reduce fun _ _ _ _ => leads_pure ⟨?_, hnormal.1⟩
      exact .trans (.firstProjection node node hconversion) (.first node node' first second)
    · next hne => exact leads_node fun node' => ⟨.firstProjection node node' hconversion, hnormal, not_isPair hne⟩
  | secondProjection node pair =>
    obtain ⟨-, hpair⟩ := hv
    refine leads_bind (hvalue H pair hpair) fun H₁ pair' _ hpair' => ?_
    obtain ⟨hconversion, hnormal⟩ := hpair'
    split
    · next node' first second =>
      refine leads_bind leads_reduce fun _ _ _ _ => leads_pure ⟨?_, hnormal.2⟩
      exact .trans (.secondProjection node node hconversion) (.second node node' first second)
    · next hne => exact leads_node fun node' => ⟨.secondProjection node node' hconversion, hnormal, not_isPair hne⟩

/-- A redex: what it contracts to is built, and normalized in its turn. -/
theorem leads_contractum (hcomputation : ∀ (H : Heap) (c : PureComputation), c.Stands H →
      Leads Sound H (computation c) fun _ r => NormalComputationOf c r) {node : QCoreTypingNode}
    {c body : PureComputation} {v : PureValue}
    (hc : ∀ result next next', substituteComputation body v 0 next = (.ok result, next') →
      ComputationConversion c result) :
    Leads Sound H (do
      reduce node
      let body ← onHeap (substituteComputation body v 0)
      computation body) fun _ r => NormalComputationOf c r := by
  refine leads_bind leads_reduce fun H₁ _ _ _ => ?_
  refine leads_bind (leads_onHeap leads_substituteComputation.of_run) fun H₂ result _ hresult => ?_
  obtain ⟨⟨hstands, -⟩, next, next', hrun⟩ := hresult
  refine (hcomputation H₂ result hstands).imp fun _ r _ hr => ⟨?_, hr.2⟩
  exact (hc result next next' hrun).trans hr.1

/-- **A computation is normalized** when the terms below and the contracta are. -/
theorem leads_computationNode
    (hvalue : ∀ (H : Heap) (v : PureValue), v.Stands H → Leads Sound H (value v) fun _ r => NormalFormOf v r)
    (hcomputation : ∀ (H : Heap) (c : PureComputation), c.Stands H →
      Leads Sound H (computation c) fun _ r => NormalComputationOf c r) {c : PureComputation} (hc : c.Stands H) :
    Leads Sound H (computationNode value computation c) fun _ r => NormalComputationOf c r := by
  cases c with
  | returnValue node returned =>
    obtain ⟨-, hreturned⟩ := hc
    refine leads_bind (hvalue H returned hreturned) fun H₁ returned' _ hreturned' => ?_
    exact leads_node fun node' => ⟨.returnValue node node' hreturned'.1, hreturned'.2⟩
  | letValue node bound body =>
    obtain ⟨-, hbound, -⟩ := hc
    refine leads_bind (hvalue H bound hbound) fun H₁ bound' _ hbound' => ?_
    refine leads_contractum hcomputation fun result next next' hrun => ?_
    exact .trans (.letValue node node hbound'.1 (.refl body)) (.letBound node hrun)
  | bind node first body =>
    obtain ⟨-, hfirst, hbody⟩ := hc
    refine leads_bind (hcomputation H first hfirst) fun H₁ first' hle hfirst' => ?_
    obtain ⟨hconversion, hnormal⟩ := hfirst'
    split
    · next node' returned =>
      refine leads_contractum hcomputation fun result next next' hrun => ?_
      exact .trans (.bind node node hconversion (.refl body)) (.returned node node' hrun)
    · next hne =>
      refine leads_bind (hcomputation H₁ body (hbody.mono hle)) fun H₂ body' _ hbody' => ?_
      exact leads_node fun node' =>
        ⟨.bind node node' hconversion hbody'.1, hnormal, hbody'.2, not_isReturn hne⟩
  | apply node function argument =>
    obtain ⟨-, hfunction, hargument⟩ := hc
    refine leads_bind (hvalue H function hfunction) fun H₁ function' hle hfunction' => ?_
    refine leads_bind (hvalue H₁ argument (hargument.mono hle)) fun H₂ argument' _ hargument' => ?_
    obtain ⟨hconversion, hnormal⟩ := hfunction'
    split
    · next node' body =>
      refine leads_contractum hcomputation fun result next next' hrun => ?_
      exact .trans (.apply node node hconversion hargument'.1) (.application node node' hrun)
    · next hne =>
      exact leads_node fun node' =>
        ⟨.apply node node' hconversion hargument'.1, hnormal, hargument'.2, not_isLambda hne⟩

end Nodes

/-- **The normalizer** gives convertible normal forms. -/
theorem leads_value (rounds : ℕ) : (∀ (H : Heap) (v : PureValue), v.Stands H →
      Leads Sound H (Normalizer.value rounds v) fun _ r => NormalFormOf v r) ∧
    ∀ (H : Heap) (c : PureComputation), c.Stands H →
      Leads Sound H (Normalizer.computation rounds c) fun _ r => NormalComputationOf c r := by
  induction rounds with
  | zero => exact ⟨fun _ _ _ => leads_stop, fun _ _ _ => leads_stop⟩
  | succ rounds ih =>
    obtain ⟨hvalue, hcomputation⟩ := ih
    exact ⟨fun H v hv => leads_rememberValue hv (leads_valueNode hvalue hcomputation hv),
      fun H c hc => leads_rememberComputation hc (leads_computationNode hvalue hcomputation hc)⟩

theorem sound_standard {H : Heap} {next : ℕ} (h : H.Bounded next) : Sound H (standard next) :=
  ⟨h, nofun, nofun⟩

end Normalizer

/-! ### Conversion -/

section Conversion

variable {H : Heap} {next : ℕ} {rounds : ℕ}

theorem leads_normalizeValue {v : PureValue} (hv : v.Stands H) :
    Leads Heap.Bounded H (normalizeValue rounds v) fun _ r => NormalFormOf v r := by
  intro next r next' hbounded hrun
  cases hvalue : Normalizer.value rounds v (.standard next) with
  | mk outcome s =>
    rw [normalizeValue, hvalue] at hrun
    cases hrun
    obtain ⟨H', hle, hs, hr⟩ :=
      (Normalizer.leads_value rounds).1 H v hv _ r s (Normalizer.sound_standard hbounded) hvalue
    exact ⟨H', hle, hs.bounded, hr⟩

theorem leads_normalizeComputation {c : PureComputation} (hc : c.Stands H) :
    Leads Heap.Bounded H (normalizeComputation rounds c) fun _ r => NormalComputationOf c r := by
  intro next r next' hbounded hrun
  cases hcomputation : Normalizer.computation rounds c (.standard next) with
  | mk outcome s =>
    rw [normalizeComputation, hcomputation] at hrun
    cases hrun
    obtain ⟨H', hle, hs, hr⟩ :=
      (Normalizer.leads_value rounds).2 H c hc _ r s (Normalizer.sound_standard hbounded) hcomputation
    exact ⟨H', hle, hs.bounded, hr⟩

theorem valuesEqual_normal_iff {v w r r' : PureValue} (hr : NormalFormOf v r) (hr' : NormalFormOf w r') :
    valuesEqual r r' = true ↔ Converts contract v.term w.term := by
  rw [valuesEqual_iff]
  constructor
  · intro heq
    have hw := hr'.1.converts.symm
    rw [← heq] at hw
    exact hr.1.converts.trans hw
  · exact fun h => normal_eq orthogonal hr.2.term hr'.2.term ((hr.1.converts.symm.trans h).trans hr'.1.converts)

theorem computationsEqual_normal_iff {c d r r' : PureComputation} (hr : NormalComputationOf c r)
    (hr' : NormalComputationOf d r') : computationsEqual r r' = true ↔ Converts contract c.term d.term := by
  rw [computationsEqual_iff]
  constructor
  · intro heq
    have hd := hr'.1.converts.symm
    rw [← heq] at hd
    exact hr.1.converts.trans hd
  · exact fun h => normal_eq orthogonal hr.2.term hr'.2.term ((hr.1.converts.symm.trans h).trans hr'.1.converts)

theorem valueConversion_iff {v w r r' : PureValue} (hr : NormalFormOf v r) (hr' : NormalFormOf w r') :
    ValueConversion v w ↔ Converts contract v.term w.term := by
  refine ⟨ValueConversion.converts, fun h => ?_⟩
  have heq := (valuesEqual_iff r r').1 ((valuesEqual_normal_iff hr hr').2 h)
  exact (hr.1.trans (.of_term_eq heq)).trans hr'.1.symm

theorem computationConversion_iff {c d r r' : PureComputation} (hr : NormalComputationOf c r)
    (hr' : NormalComputationOf d r') : ComputationConversion c d ↔ Converts contract c.term d.term := by
  refine ⟨ComputationConversion.converts, fun h => ?_⟩
  have heq := (computationsEqual_iff r r').1 ((computationsEqual_normal_iff hr hr').2 h)
  exact (hr.1.trans (.of_term_eq heq)).trans hr'.1.symm

theorem valuesConvert_run {v w r r' : PureValue} {next₁ next₂ : ℕ} (hbounded : H.Bounded next) (hv : v.Stands H)
    (hw : w.Stands H) (hfirst : normalizeValue rounds v next = (.ok r, next₁))
    (hsecond : normalizeValue rounds w next₁ = (.ok r', next₂)) :
    valuesConvert rounds v w next = (.ok (valuesEqual r r'), next₂) ∧ NormalFormOf v r ∧ NormalFormOf w r' := by
  obtain ⟨H₁, hle, hbounded₁, hr⟩ := leads_normalizeValue hv next r next₁ hbounded hfirst
  obtain ⟨_, -, -, hr'⟩ := leads_normalizeValue (hw.mono hle) next₁ r' next₂ hbounded₁ hsecond
  refine ⟨?_, hr, hr'⟩
  rw [valuesConvert, bind_run_ok hfirst, bind_run_ok hsecond]
  rfl

theorem computationsConvert_run {c d r r' : PureComputation} {next₁ next₂ : ℕ} (hbounded : H.Bounded next)
    (hc : c.Stands H) (hd : d.Stands H) (hfirst : normalizeComputation rounds c next = (.ok r, next₁))
    (hsecond : normalizeComputation rounds d next₁ = (.ok r', next₂)) :
    computationsConvert rounds c d next = (.ok (computationsEqual r r'), next₂) ∧ NormalComputationOf c r ∧
      NormalComputationOf d r' := by
  obtain ⟨H₁, hle, hbounded₁, hr⟩ := leads_normalizeComputation hc next r next₁ hbounded hfirst
  obtain ⟨_, -, -, hr'⟩ := leads_normalizeComputation (hd.mono hle) next₁ r' next₂ hbounded₁ hsecond
  refine ⟨?_, hr, hr'⟩
  rw [computationsConvert, bind_run_ok hfirst, bind_run_ok hsecond]
  rfl

theorem converts_substituted {t u : Term Operator} (depth index : ℕ) (h : Converts contract t u) :
    Converts contract (substituted t depth index) (substituted u depth index) := by
  unfold substituted
  split
  · rw [Term.rename_eq_subst, Term.rename_eq_subst]
    exact h.subst stable_contract
  · exact .refl _

theorem normalizeValue_settles (v : PureValue) (next : ℕ) : ∃ enough result,
    result.1 ≠ .error .unfinished ∧ ∀ rounds, enough ≤ rounds → normalizeValue rounds v next = result := by
  obtain ⟨enough, result, hrun, hfinished, -⟩ := Normalizer.ends_value (.standard next) v
  refine ⟨enough, (result.1, result.2.next), hfinished, fun rounds hle => ?_⟩
  exact congrArg (fun result => (result.1, result.2.next)) (hrun rounds hle)

theorem normalizeComputation_settles (c : PureComputation) (next : ℕ) : ∃ enough result,
    result.1 ≠ .error .unfinished ∧ ∀ rounds, enough ≤ rounds → normalizeComputation rounds c next = result := by
  obtain ⟨enough, result, hrun, hfinished, -⟩ := Normalizer.ends_computation (.standard next) c
  refine ⟨enough, (result.1, result.2.next), hfinished, fun rounds hle => ?_⟩
  exact congrArg (fun result => (result.1, result.2.next)) (hrun rounds hle)

end Conversion

/-- **Conversion is decided by normal forms.**  In a memory of which `next` is the next address: what the normalizer
finishes with has no redex and is convertible; two terms that both normalize are found convertible if and only if the
five equations make them so; this is an equivalence, and convertible values put into convertible terms give convertible
terms.  With enough rounds the normalizer never ends for want of them. -/
theorem conversion_is_decided (H : Heap) (next : ℕ) (hbounded : H.Bounded next) :
    (∀ rounds v r next', v.Stands H → normalizeValue rounds v next = (.ok r, next') →
      r.Normal ∧ ValueConversion v r) ∧
    (∀ rounds c r next', c.Stands H → normalizeComputation rounds c next = (.ok r, next') →
      r.Normal ∧ ComputationConversion c r) ∧
    (∀ rounds v w r r' next₁ next₂, v.Stands H → w.Stands H → normalizeValue rounds v next = (.ok r, next₁) →
      normalizeValue rounds w next₁ = (.ok r', next₂) →
      ∃ b, valuesConvert rounds v w next = (.ok b, next₂) ∧ (b = true ↔ ValueConversion v w)) ∧
    (∀ rounds c d r r' next₁ next₂, c.Stands H → d.Stands H → normalizeComputation rounds c next = (.ok r, next₁) →
      normalizeComputation rounds d next₁ = (.ok r', next₂) →
      ∃ b, computationsConvert rounds c d next = (.ok b, next₂) ∧ (b = true ↔ ComputationConversion c d)) ∧
    (∀ t t' v v' depth u u' s s₁ s' s₁', ValueConversion t t' → ValueConversion v v' →
      substituteValue t v depth s = (.ok u, s₁) → substituteValue t' v' depth s' = (.ok u', s₁') →
      ∀ rounds r r' next₁ next₂, u.Stands H → u'.Stands H → normalizeValue rounds u next = (.ok r, next₁) →
        normalizeValue rounds u' next₁ = (.ok r', next₂) → valuesConvert rounds u u' next = (.ok true, next₂)) ∧
    (∀ c c' v v' depth u u' s s₁ s' s₁', ComputationConversion c c' → ValueConversion v v' →
      substituteComputation c v depth s = (.ok u, s₁) → substituteComputation c' v' depth s' = (.ok u', s₁') →
      ∀ rounds r r' next₁ next₂, u.Stands H → u'.Stands H → normalizeComputation rounds u next = (.ok r, next₁) →
        normalizeComputation rounds u' next₁ = (.ok r', next₂) →
        computationsConvert rounds u u' next = (.ok true, next₂)) ∧
    Equivalence ValueConversion ∧ Equivalence ComputationConversion ∧
    (∀ v, ∃ enough result, result.1 ≠ .error .unfinished ∧
      ∀ rounds, enough ≤ rounds → normalizeValue rounds v next = result) ∧
    ∀ c, ∃ enough result, result.1 ≠ .error .unfinished ∧
      ∀ rounds, enough ≤ rounds → normalizeComputation rounds c next = result := by
  refine ⟨?_, ?_, ?_, ?_, ?_, ?_, ⟨.refl, .symm, .trans⟩, ⟨.refl, .symm, .trans⟩,
    fun v => normalizeValue_settles v next, fun c => normalizeComputation_settles c next⟩
  · intro rounds v r next' hv hrun
    obtain ⟨_, -, -, hr⟩ := leads_normalizeValue hv next r next' hbounded hrun
    exact ⟨hr.2, hr.1⟩
  · intro rounds c r next' hc hrun
    obtain ⟨_, -, -, hr⟩ := leads_normalizeComputation hc next r next' hbounded hrun
    exact ⟨hr.2, hr.1⟩
  · intro rounds v w r r' next₁ next₂ hv hw hfirst hsecond
    obtain ⟨hrun, hr, hr'⟩ := valuesConvert_run hbounded hv hw hfirst hsecond
    refine ⟨_, hrun, ?_⟩
    rw [valuesEqual_normal_iff hr hr', valueConversion_iff hr hr']
  · intro rounds c d r r' next₁ next₂ hc hd hfirst hsecond
    obtain ⟨hrun, hr, hr'⟩ := computationsConvert_run hbounded hc hd hfirst hsecond
    refine ⟨_, hrun, ?_⟩
    rw [computationsEqual_normal_iff hr hr', computationConversion_iff hr hr']
  · intro t t' v v' depth u u' s s₁ s' s₁' ht hv hu hu' rounds r r' next₁ next₂ hstands hstands' hfirst hsecond
    obtain ⟨hrun, hr, hr'⟩ := valuesConvert_run hbounded hstands hstands' hfirst hsecond
    have hconverts : Converts contract u.term u'.term := by
      rw [term_substituteValue hu, term_substituteValue hu']
      exact converts_subst orthogonal ht.converts fun i => converts_substituted depth i hv.converts
    rw [hrun, (valuesEqual_normal_iff hr hr').2 hconverts]
  · intro c c' v v' depth u u' s s₁ s' s₁' hc hv hu hu' rounds r r' next₁ next₂ hstands hstands' hfirst hsecond
    obtain ⟨hrun, hr, hr'⟩ := computationsConvert_run hbounded hstands hstands' hfirst hsecond
    have hconverts : Converts contract u.term u'.term := by
      rw [term_substituteComputation hu, term_substituteComputation hu']
      exact converts_subst orthogonal hc.converts fun i => converts_substituted depth i hv.converts
    rw [hrun, (computationsEqual_normal_iff hr hr').2 hconverts]

/-- The identity, applied to the variable `7`. -/
def applied : PureComputation :=
  .apply ⟨0, 0⟩ (.lambda ⟨1, 1⟩ (.returnValue ⟨2, 2⟩ (.boundVariable ⟨3, 3⟩ 0))) (.boundVariable ⟨4, 4⟩ 7)

/-- The variable `7`, returned. -/
def returned : PureComputation := .returnValue ⟨5, 5⟩ (.boundVariable ⟨6, 6⟩ 7)

def memory : Heap where
  cell
    | 0 => some (.inr applied)
    | 1 => some (.inl (.lambda ⟨1, 1⟩ (.returnValue ⟨2, 2⟩ (.boundVariable ⟨3, 3⟩ 0))))
    | 2 => some (.inr (.returnValue ⟨2, 2⟩ (.boundVariable ⟨3, 3⟩ 0)))
    | 3 => some (.inl (.boundVariable ⟨3, 3⟩ 0))
    | 4 => some (.inl (.boundVariable ⟨4, 4⟩ 7))
    | 5 => some (.inr returned)
    | 6 => some (.inl (.boundVariable ⟨6, 6⟩ 7))
    | _ => none

theorem conversion_is_decided_identity :
    ∃ b, computationsConvert 4 applied returned 7 = (.ok b, 17) ∧
      (b = true ↔ ComputationConversion applied returned) := by
  have hbounded : memory.Bounded 7 := fun a ha => match a, ha with
    | a + 7, _ => rfl
  have happlied : applied.Stands memory := ⟨rfl, ⟨rfl, rfl, rfl⟩, rfl⟩
  have hreturned : returned.Stands memory := ⟨rfl, rfl⟩
  exact (conversion_is_decided memory 7 hbounded).2.2.2.1 4 applied returned _ _ _ _ happlied hreturned rfl rfl

end Blot.QCore
