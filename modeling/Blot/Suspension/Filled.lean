import Blot.Suspension.Lifetimes

/-!
# Captures in a validated function

* `Function.Filled` — each value is defined once, a continuation captures what is live there and is no parameter of it,
  and the entry captures nothing (`filled_of_validate`);
* `Function.Reached` — a path of edges leads from the entry to the continuation;
* `not_captured_of_reached` — a continuation that is reached defines nothing that it captures, so that it holds each of
  its values once (`holdings_nodup`).
-/

namespace Blot.Suspension

open Blot.Hir Blot.Support

variable {f : Function}

/-- What `Graph::validate` checks about the captures of a function. -/
structure Function.Filled (f : Function) : Prop where
  slotted : f.Slotted
  fits : f.EdgesFit
  once : f.defined.Nodup
  captured : ∀ (i : ContinuationId) (c : Continuation), f.continuations[i]? = some c → (c.captures.map (·.value)).Nodup ∧
    ∀ v, v ∈ c.captures.map (·.value) ↔ f.LiveAt v i ∧ v ∉ c.parameters.map (·.value)
  entry : ∃ first, f.continuations[f.entry]? = some first ∧ first.captures = []

/-! ### From validation -/

section Validation

/-- A search that ends, ends the same with more rounds. -/
theorem Function.settle_mono : ∀ {n m : ℕ} {live result : Live}, f.settle n live = .ok result → n ≤ m →
    f.settle m live = .ok result
  | 0, _, _, _, h, _ => nomatch h
  | n + 1, m + 1, live, result, h, hle => by
    simp only [Function.settle, bind_eq_ok] at h ⊢
    obtain ⟨⟨live', changed⟩, hround, h⟩ := h
    refine ⟨(live', changed), hround, ?_⟩
    dsimp only at h ⊢
    split at h
    · next hchanged =>
      rw [if_pos hchanged]
      exact Function.settle_mono h (Nat.le_of_succ_le_succ hle)
    · next hsame =>
      rw [if_neg hsame]
      exact h

theorem Function.liveInputs_live {rounds : ℕ} {live : Live} (hslotted : f.Slotted) (hfits : f.EdgesFit)
    (h : f.liveInputs rounds = .ok live) :
    ∀ (i : ContinuationId) (needed : Ascending ValueId), live[i]? = some needed → ∀ v, v ∈ needed ↔ f.LiveAt v i := by
  obtain ⟨exact, ⟨n, hn⟩, -, hexact⟩ := liveInputs_exact hslotted hfits
  have hmore := hn (max n rounds) (Nat.le_max_left _ _)
  have hsame := Function.settle_mono h (Nat.le_max_right n rounds)
  obtain rfl : exact = live := Except.ok.inj (hmore.symm.trans hsame)
  exact hexact

/-- What a definition of `validate` checks, `fill_captures` checks too. -/
theorem Function.record_of_define {tables : Tables} {definitions next : Definitions} {d : Definition}
    (h : f.define tables definitions d = .ok next) : f.record definitions d = .ok next := by
  simp only [Function.define, bind_eq_ok, require_eq_ok, pure_eq_ok] at h
  obtain ⟨-, -, -, -, -, hfresh, rfl⟩ := h
  simp only [Function.record, bind_eq_ok, require_eq_ok, pure_eq_ok]
  exact ⟨(), hfresh, trivial⟩

theorem Function.record_of_defineAll {tables : Tables} : ∀ {entries : List (Continuation × ℕ)}
    {definitions all : Definitions}, entries.foldlM (f.defineAll tables) definitions = .ok all →
    (entries.flatMap (·.1.definitions)).foldlM f.record definitions = .ok all ∧ ∀ entry ∈ entries, entry.1.id = entry.2
  | [], _, _, h => ⟨h, fun _ he => nomatch he⟩
  | entry :: entries, definitions, all, h => by
    obtain ⟨next, hstep, hrest⟩ := foldlM_cons_eq_ok.1 h
    obtain ⟨hrecord, hids⟩ := Function.record_of_defineAll hrest
    simp only [Function.defineAll, bind_eq_ok, require_eq_ok, beq_iff_eq] at hstep
    obtain ⟨-, hid, hstep⟩ := hstep
    have hstep' : ∀ (l : List Definition) {definitions next : Definitions},
        l.foldlM (f.define tables) definitions = .ok next → l.foldlM f.record definitions = .ok next := by
      intro l
      induction l with
      | nil => exact fun h => h
      | cons d l ih =>
        intro definitions next h
        obtain ⟨middle, hd, hl⟩ := foldlM_cons_eq_ok.1 h
        exact foldlM_cons_eq_ok.2 ⟨middle, Function.record_of_define hd, ih hl⟩
    refine ⟨?_, List.forall_mem_cons.2 ⟨hid, hids⟩⟩
    rw [List.flatMap_cons, List.foldlM_append, hstep' _ hstep, ok_bind, hrecord]

/-- **The functions of a validated graph have their captures filled in.** -/
theorem filled_of_validate {graph : Graph} {tables : Tables} {rounds : ℕ} (h : graph.validate tables rounds = .ok ())
    (hf : f ∈ graph.functions) : f.Filled := by
  obtain ⟨n, hn⟩ := List.getElem?_of_mem hf
  simp only [Graph.validate, bind_eq_ok, each_eq_ok] at h
  obtain ⟨-, -, hfunctions⟩ := h
  have hentry := hfunctions (f, n) (List.mem_zipIdx_iff_getElem?.2 hn)
  simp only [Graph.validateFunction, bind_eq_ok, demand_eq_ok, require_eq_ok, each_eq_ok, Bool.and_eq_true,
    List.isEmpty_iff] at hentry
  obtain ⟨-, -, -, -, signature, -, first, hfirst, -, ⟨hcaptures, -⟩, definitions, hdefined, live, hlive,
    hcontinuations⟩ := hentry
  obtain ⟨hrecord, hids⟩ := Function.record_of_defineAll hdefined
  have hslotted : f.Slotted := fun i c hc => hids (c, i) (List.mem_zipIdx_iff_getElem?.2 hc)
  have hfits : f.EdgesFit := fun c hc edge he => Function.fits_of_settle hlive hc he
  have hflat : f.continuations.zipIdx.flatMap (·.1.definitions) = f.continuations.flatMap (·.definitions) := by
    conv_rhs => rw [← List.zipIdx_map_fst 0 f.continuations, List.flatMap_map]
  refine ⟨hslotted, hfits, ?_, fun i c hc => ?_, first, hfirst, hcaptures⟩
  · rw [hflat] at hrecord
    exact ((Function.record_succeeds _ _).1 ⟨_, hrecord⟩).1
  · have hchecked := hcontinuations c (List.mem_of_getElem? hc)
    simp only [Graph.validateContinuation, bind_eq_ok, demand_eq_ok, require_eq_ok, beq_iff_eq] at hchecked
    obtain ⟨inputs, hinputs, -, hequal, -⟩ := hchecked
    have hid := hslotted i c hc
    rw [hid] at hinputs
    refine ⟨hequal ▸ Ascending.nodup _, fun v => ?_⟩
    rw [hequal, ← Ascending.mem_def, Ascending.mem_difference, Ascending.mem_ofList,
      Function.liveInputs_live hslotted hfits hlive i inputs hinputs]

end Validation

/-! ### Paths -/

/-- A path of edges leads from the entry to the continuation. -/
inductive Function.Reached (f : Function) : ContinuationId → Prop
  | entry : f.Reached f.entry
  | edge {i : ContinuationId} {c : Continuation} {edge : Edge} : f.Reached i → f.continuations[i]? = some c →
      edge ∈ c.transition.edges → f.Reached edge.target

/-- A path of edges leads from the entry to the continuation, and does not pass through another one. -/
inductive Function.ReachedWithout (f : Function) (other : ContinuationId) : ContinuationId → Prop
  | entry : f.ReachedWithout other f.entry
  | edge {i : ContinuationId} {c : Continuation} {edge : Edge} : f.ReachedWithout other i → i ≠ other →
      f.continuations[i]? = some c → edge ∈ c.transition.edges → f.ReachedWithout other edge.target

/-- A path reaches a continuation for the first time. -/
theorem Function.Reached.first {i j : ContinuationId} (h : f.Reached j) :
    f.ReachedWithout i i ∨ f.ReachedWithout i j := by
  induction h with
  | entry => exact .inr .entry
  | @edge k c edge _ hc hedge ih =>
    rcases ih with h | h
    · exact .inl h
    · by_cases hk : k = i
      · exact .inl (hk ▸ h)
      · exact .inr (.edge h hk hc hedge)

section Reached

variable (hf : f.Filled)

include hf

theorem Function.Filled.same_of_definitions {i j : ContinuationId} {c d : Continuation} (hc : f.continuations[i]? = some c)
    (hd : f.continuations[j]? = some d) {v : ValueId} (hv : v ∈ c.definitions.map (·.value))
    (hv' : v ∈ d.definitions.map (·.value)) : i = j := by
  have hnodup := hf.once
  rw [Function.defined, List.map_flatMap, List.nodup_flatMap] at hnodup
  obtain ⟨hi, rfl⟩ := List.getElem?_eq_some_iff.1 hc
  obtain ⟨hj, rfl⟩ := List.getElem?_eq_some_iff.1 hd
  have hpairs := List.pairwise_iff_getElem.1 hnodup.2
  by_contra hne
  rcases Nat.lt_or_gt_of_ne hne with hlt | hlt
  · exact hpairs i j hi hj hlt hv hv'
  · exact hpairs j i hj hi hlt hv' hv

theorem Function.Filled.definitions_nodup {c : Continuation} (hc : c ∈ f.continuations) :
    (c.parameters.map (·.value) ++ c.results).Nodup := by
  have hnodup := hf.once
  rw [Function.defined, List.map_flatMap, List.nodup_flatMap] at hnodup
  have := hnodup.1 c hc
  rwa [Continuation.definitions, List.map_append, List.map_map] at this

theorem Function.Filled.not_live {other : ContinuationId} {c : Continuation} (hc : f.continuations[other]? = some c)
    {v : ValueId} (hv : v ∈ c.results) {i : ContinuationId} (h : f.ReachedWithout other i) : ¬ f.LiveAt v i := by
  have hdefined : v ∈ c.definitions.map (·.value) := by
    rw [Continuation.definitions, List.map_append, List.map_map]
    exact List.mem_append_right _ hv
  have hparameters : ∀ {j : ContinuationId} {d : Continuation}, f.continuations[j]? = some d →
      v ∉ d.parameters.map (·.value) := by
    intro j d hd hm
    obtain rfl := hf.same_of_definitions hc hd hdefined (by
      rw [Continuation.definitions, List.map_append]
      exact List.mem_append_left _ hm)
    obtain rfl := Option.some.inj (hc.symm.trans hd)
    exact (List.nodup_append.1 (hf.definitions_nodup (List.mem_of_getElem? hc))).2.2 v hm v hv rfl
  induction h with
  | entry =>
    intro hlive
    obtain ⟨first, hfirst, hcaptures⟩ := hf.entry
    have := ((hf.captured f.entry first hfirst).2 v).2 ⟨hlive, hparameters hfirst⟩
    rw [hcaptures] at this
    cases this
  | @edge k d edge _ hk hd hedge ih =>
    intro hlive
    obtain ⟨successor, hs, -⟩ := hf.fits d (List.mem_of_getElem? hd) edge hedge
    refine ih (.edge hd (fun hm => hk ?_) hedge hs (hparameters hs) hlive)
    refine hf.same_of_definitions hd hc ?_ hdefined
    rw [Continuation.definitions, List.map_append, List.map_map]
    exact List.mem_append_right _ hm

/-- **A continuation that is reached defines nothing that it captures.** -/
theorem Function.Filled.not_captured_of_reached {i : ContinuationId} {c : Continuation} (hr : f.Reached i)
    (hc : f.continuations[i]? = some c) {v : ValueId} (hv : v ∈ c.results) : v ∉ c.captures.map (·.value) := by
  intro hm
  have hlive := (((hf.captured i c hc).2 v).1 hm).1
  have hfirst : f.ReachedWithout i i := (hr.first (i := i)).elim (fun h => h) fun h => h
  exact hf.not_live hc hv hfirst hlive

/-- **A continuation that is reached holds each of its values once.** -/
theorem Function.Filled.holdings_nodup {i : ContinuationId} {c : Continuation} (hr : f.Reached i)
    (hc : f.continuations[i]? = some c) : c.holdings.Nodup := by
  obtain ⟨hparameters, hresults, hdisjoint⟩ := List.nodup_append.1 (hf.definitions_nodup (List.mem_of_getElem? hc))
  obtain ⟨hcaptures, hmem⟩ := hf.captured i c hc
  rw [Continuation.holdings, Continuation.inputs, List.map_append]
  refine List.nodup_append.2 ⟨List.nodup_append.2 ⟨hparameters, hcaptures, ?_⟩, hresults, ?_⟩
  · rintro v hv w hw rfl
    exact ((hmem v).1 hw).2 hv
  · rintro v hv w hw rfl
    rcases List.mem_append.1 hv with hv | hv
    · exact hdisjoint v hv v hw rfl
    · exact hf.not_captured_of_reached hr hc hw hv

theorem Function.Filled.live_inputs {i : ContinuationId} {c : Continuation} (hc : f.continuations[i]? = some c)
    {roots : Ascending ValueId} (hroots : f.transitionRoots c.transition = .ok roots) {v : ValueId}
    (hv : v ∈ c.instructions.foldr Instruction.before roots) : v ∈ c.inputs.map (·.value) := by
  have hlive : f.LiveAt v i := by
    rcases mem_foldr_before.1 hv with hread | ⟨hresults, hroot⟩
    · exact .read hc (.inl hread)
    · rcases (mem_transitionRoots hroots v).1 hroot with huse | ⟨edge, hedge, hargument | ⟨successor, hs, hcapture⟩⟩
      · exact .read hc (.inr ⟨hresults, .inl huse⟩)
      · exact .read hc (.inr ⟨hresults, .inr ⟨edge, hedge, hargument⟩⟩)
      · obtain ⟨hlive, hparameter⟩ := ((hf.captured _ _ hs).2 v).1 hcapture
        exact .edge hc hresults hedge hs hparameter hlive
  rw [Continuation.inputs, List.map_append, List.mem_append, (hf.captured i c hc).2 v]
  by_cases hparameter : v ∈ c.parameters.map (·.value)
  · exact .inl hparameter
  · exact .inr ⟨hlive, hparameter⟩

/-- **The lifetimes of a continuation that is reached.** -/
theorem Function.Filled.lifetimes {i : ContinuationId} {c : Continuation} (hr : f.Reached i)
    (hc : f.continuations[i]? = some c) : ∃ l, f.lifetimes c = .ok l ∧ l.Exact f c :=
  lifetimes_exact (hf.fits c (List.mem_of_getElem? hc)) (hf.holdings_nodup hr hc) fun _ hroots _ hv =>
    hf.live_inputs hc hroots hv

end Reached

end Blot.Suspension
