import Blot.Support.Rounds
import Blot.Suspension.Checked
import Blot.Suspension.Lowering

/-!
# Captures are the live values (`Function::live_inputs`, `Function::fill_captures`)

* `Function.LiveAt` — a path from the continuation to a read of the value, without a definition of it in between;
* `Function.needs` — what a continuation needs, given what the others need, and what is in it (`mem_needs`);
* `liveInputs_exact` — the search ends, with the live values of each continuation;
* `captures_are_live` — when the captures are filled in.
-/

namespace Blot.Suspension

open Blot.Hir Blot.Support

variable {f : Function}

/-! ### Live values -/

def Continuation.results (c : Continuation) : List ValueId := c.instructions.map (·.definition.value)

/-- A read of the value in the continuation, before a definition of it: by an instruction, by the transition, or by an
edge. -/
def Continuation.Reads (c : Continuation) (v : ValueId) : Prop :=
  (∃ before i after, c.instructions = before ++ i :: after ∧ v ∈ i.operands ∧
    v ∉ before.map (·.definition.value)) ∨
  v ∉ c.results ∧ (v ∈ c.transition.uses ∨ ∃ edge ∈ c.transition.edges, .value v ∈ edge.arguments)

/-- The value is live at the start of the continuation: a path of edges leads from there to a read of it, and neither
an instruction nor a parameter on the way defines it. -/
inductive Function.LiveAt (f : Function) (v : ValueId) : ContinuationId → Prop
  | read {i : ContinuationId} {c : Continuation} : f.continuations[i]? = some c → c.Reads v → f.LiveAt v i
  | edge {i : ContinuationId} {c successor : Continuation} {edge : Edge} :
      f.continuations[i]? = some c → v ∉ c.results → edge ∈ c.transition.edges →
      f.continuations[edge.target]? = some successor → v ∉ successor.parameters.map (·.value) →
      f.LiveAt v edge.target → f.LiveAt v i

def Slots (cs : List Continuation) : Prop := ∀ (i : ContinuationId) (c : Continuation), cs[i]? = some c → c.id = i

/-- The continuations of the function stand at their ids: lowering numbers them so, and validation checks it before it
looks for the live values. -/
def Function.Slotted (f : Function) : Prop := Slots f.continuations

def Function.EdgesFit (f : Function) : Prop := ∀ c ∈ f.continuations, ∀ edge ∈ c.transition.edges, f.Fits edge

/-! ### What a continuation needs -/

section Needs

def Function.parametersAt (f : Function) (target : ContinuationId) : List Definition :=
  (f.continuations[target]?).elim [] (·.parameters)

def Function.needsEdge (f : Function) (live : Live) (needed : Ascending ValueId) (edge : Edge) : Ascending ValueId :=
  (Rounds.held live edge.target).elements.foldl (edge.pull (f.parametersAt edge.target))
    (needed.extend (edge.arguments.filterMap Argument.value?))

def Function.needs (f : Function) (live : Live) (i : ContinuationId) : Ascending ValueId :=
  match f.continuations[i]? with
  | some c => c.instructions.foldr Instruction.before (c.transition.edges.foldl (f.needsEdge live)
      (.ofList c.transition.uses))
  | none => .empty

theorem mem_arguments {arguments : List Argument} {v : ValueId} :
    v ∈ arguments.filterMap Argument.value? ↔ .value v ∈ arguments := by
  rw [List.mem_filterMap]
  constructor
  · rintro ⟨argument, hargument, hv⟩
    cases argument with
    | value w =>
      cases hv
      exact hargument
    | result => cases hv
  · exact fun h => ⟨_, h, rfl⟩

/-- A value that the successor needs is needed here, unless it is a parameter; then the edge brings it. -/
theorem mem_foldl_pull {edge : Edge} {parameters : List Definition} {elements : List ValueId}
    {needed : Ascending ValueId} (harguments : ∀ v, .value v ∈ edge.arguments → v ∈ needed) {v : ValueId} :
    v ∈ elements.foldl (edge.pull parameters) needed ↔
      v ∈ needed ∨ v ∈ elements ∧ v ∉ parameters.map (·.value) := by
  induction elements generalizing needed with
  | nil => simp
  | cons w elements ih =>
    have hstep : (∀ u, .value u ∈ edge.arguments → u ∈ edge.pull parameters needed w) ∧
        ∀ u, u ∈ edge.pull parameters needed w ↔ u ∈ needed ∨ u = w ∧ u ∉ parameters.map (·.value) := by
      cases hindex : parameters.findIdx? (·.value = w) with
      | none =>
        unfold Edge.pull
        rw [hindex]
        have hnot : w ∉ parameters.map (·.value) := by
          simpa [List.findIdx?_eq_none_iff] using hindex
        refine ⟨fun u hu => Ascending.mem_insert.2 (Or.inr (harguments u hu)), fun u => ?_⟩
        rw [Ascending.mem_insert]
        constructor
        · rintro (rfl | hu)
          · exact Or.inr ⟨rfl, hnot⟩
          · exact Or.inl hu
        · rintro (hu | ⟨rfl, _⟩)
          · exact Or.inr hu
          · exact Or.inl rfl
      | some index =>
        -- the parameter is live: what the edge brings for it is an argument, and those are needed already
        have hparameter : w ∈ parameters.map (·.value) := by
          obtain ⟨hlt, hw, _⟩ := List.findIdx?_eq_some_iff_getElem.1 hindex
          exact List.mem_map.2 ⟨parameters[index], List.getElem_mem hlt, by simpa using hw⟩
        have hsame : ∀ u, u ∈ edge.pull parameters needed w ↔ u ∈ needed := by
          intro u
          unfold Edge.pull
          rw [hindex]
          dsimp only
          split
          · next argument hargument =>
            obtain ⟨a, ha, hv⟩ := Option.bind_eq_some_iff.1 hargument
            have hin : .value argument ∈ edge.arguments := by
              cases a with
              | value v =>
                cases hv
                exact List.mem_of_getElem? ha
              | result => cases hv
            rw [Ascending.mem_insert]
            exact ⟨fun h => h.elim (fun he => he ▸ harguments _ hin) id, Or.inr⟩
          · rfl
        refine ⟨fun u hu => (hsame u).2 (harguments u hu), fun u => (hsame u).trans ⟨Or.inl, ?_⟩⟩
        rintro (hu | ⟨rfl, hu⟩)
        · exact hu
        · exact absurd hparameter hu
    rw [List.foldl_cons, ih hstep.1, hstep.2, List.mem_cons]
    tauto

theorem mem_needsEdge {live : Live} {needed : Ascending ValueId} {edge : Edge} {v : ValueId} :
    v ∈ f.needsEdge live needed edge ↔ v ∈ needed ∨ .value v ∈ edge.arguments ∨
      v ∈ Rounds.held live edge.target ∧ v ∉ (f.parametersAt edge.target).map (·.value) := by
  rw [Function.needsEdge, mem_foldl_pull fun v hv => Ascending.mem_extend.2 (Or.inr (mem_arguments.2 hv)),
    Ascending.mem_extend, mem_arguments, or_assoc]
  rfl

theorem mem_foldl_needsEdge {live : Live} {edges : List Edge} {needed : Ascending ValueId} {v : ValueId} :
    v ∈ edges.foldl (f.needsEdge live) needed ↔ v ∈ needed ∨ ∃ edge ∈ edges, .value v ∈ edge.arguments ∨
      v ∈ Rounds.held live edge.target ∧ v ∉ (f.parametersAt edge.target).map (·.value) := by
  induction edges generalizing needed with
  | nil => simp
  | cons edge edges ih =>
    rw [List.foldl_cons, ih, mem_needsEdge, or_assoc]
    simp only [List.mem_cons, exists_eq_or_imp]

theorem mem_foldr_before {instructions : List Instruction} {needed : Ascending ValueId} {v : ValueId} :
    v ∈ instructions.foldr Instruction.before needed ↔
      (∃ before i after, instructions = before ++ i :: after ∧ v ∈ i.operands ∧
        v ∉ before.map (·.definition.value)) ∨
      v ∉ instructions.map (·.definition.value) ∧ v ∈ needed := by
  induction instructions with
  | nil => simp
  | cons i instructions ih =>
    rw [List.foldr_cons, Instruction.before, Ascending.mem_extend, Ascending.mem_remove, ih]
    constructor
    · rintro (⟨⟨before, j, after, rfl, hv, hbefore⟩ | ⟨hresults, hv⟩, hne⟩ | hv)
      · exact Or.inl ⟨i :: before, j, after, rfl, hv, by simp [hne, hbefore]⟩
      · exact Or.inr ⟨by simp [hne, hresults], hv⟩
      · exact Or.inl ⟨[], i, instructions, rfl, hv, by simp⟩
    · rintro (⟨before, j, after, he, hv, hbefore⟩ | ⟨hresults, hv⟩)
      · cases before with
        | nil =>
          cases he
          exact Or.inr hv
        | cons j' before =>
          cases he
          rw [List.map_cons, List.mem_cons, not_or] at hbefore
          exact Or.inl ⟨Or.inl ⟨before, j, after, rfl, hv, hbefore.2⟩, hbefore.1⟩
      · rw [List.map_cons, List.mem_cons, not_or] at hresults
        exact Or.inl ⟨Or.inr ⟨hresults.2, hv⟩, hresults.1⟩

/-- **What a continuation needs**: what it reads before a definition, and what a successor needs and neither it nor
the parameters of the successor define. -/
theorem mem_needs {live : Live} {i : ContinuationId} {v : ValueId} :
    v ∈ f.needs live i ↔ ∃ c, f.continuations[i]? = some c ∧ (c.Reads v ∨ v ∉ c.results ∧
      ∃ edge ∈ c.transition.edges, v ∈ Rounds.held live edge.target ∧
        v ∉ (f.parametersAt edge.target).map (·.value)) := by
  unfold Function.needs
  split
  · next c hc =>
    rw [mem_foldr_before, mem_foldl_needsEdge, Ascending.mem_ofList]
    simp only [hc, Option.some.injEq, exists_eq_left']
    unfold Continuation.Reads Continuation.results
    constructor
    · rintro (hread | ⟨hresults, huse | ⟨edge, hedge, hargument | hlive⟩⟩)
      · exact Or.inl (Or.inl hread)
      · exact Or.inl (Or.inr ⟨hresults, Or.inl huse⟩)
      · exact Or.inl (Or.inr ⟨hresults, Or.inr ⟨edge, hedge, hargument⟩⟩)
      · exact Or.inr ⟨hresults, edge, hedge, hlive⟩
    · rintro ((hread | ⟨hresults, huse | ⟨edge, hedge, hargument⟩⟩) | ⟨hresults, edge, hedge, hlive⟩)
      · exact Or.inl hread
      · exact Or.inr ⟨hresults, Or.inl huse⟩
      · exact Or.inr ⟨hresults, Or.inr ⟨edge, hedge, Or.inl hargument⟩⟩
      · exact Or.inr ⟨hresults, Or.inr ⟨edge, hedge, Or.inr hlive⟩⟩
  · next hnone => simp [hnone]

theorem needs_monotone : Rounds.Monotone f.needs := by
  intro live live' hbelow i v hv
  rw [mem_needs] at hv ⊢
  obtain ⟨c, hc, hread | ⟨hresults, edge, hedge, hlive, hparameter⟩⟩ := hv
  · exact ⟨c, hc, Or.inl hread⟩
  · exact ⟨c, hc, Or.inr ⟨hresults, edge, hedge, hbelow _ _ hlive, hparameter⟩⟩

theorem needs_keeps_liveAt (hfits : f.EdgesFit) : Rounds.Keeps (fun i v => f.LiveAt v i) f.needs := by
  intro live hlive i v hv
  obtain ⟨c, hc, hread | ⟨hresults, edge, hedge, hv, hparameter⟩⟩ := mem_needs.1 hv
  · exact .read hc hread
  · obtain ⟨successor, hs, _⟩ := hfits c (List.mem_of_getElem? hc) edge hedge
    refine .edge hc hresults hedge hs ?_ (hlive _ _ hv)
    simpa [Function.parametersAt, hs] using hparameter

end Needs

/-! ### The search for the live values -/

section Search

theorem Function.visit_eq (hslotted : f.Slotted) (hfits : f.EdgesFit) {state : Live × Bool} {c : Continuation}
    (hc : c ∈ f.continuations) (hlength : state.1.length = f.continuations.length) :
    f.visit state c = .ok (Rounds.visit f.needs state c.id) := by
  obtain ⟨i, hi⟩ := List.getElem?_of_mem hc
  obtain rfl := hslotted i c hi
  have hedges : ∀ edges ⊆ c.transition.edges, ∀ needed,
      edges.foldlM (f.neededByEdge state.1) needed = .ok (edges.foldl (f.needsEdge state.1) needed) := by
    intro edges
    induction edges with
    | nil => exact fun _ _ => rfl
    | cons edge edges ih =>
      intro hsub needed
      obtain ⟨hedge, hsub⟩ := List.cons_subset.1 hsub
      obtain ⟨successor, hs, harity⟩ := hfits c hc edge hedge
      have hlive : state.1[edge.target]? = some (Rounds.held state.1 edge.target) := by
        have hlt : edge.target < state.1.length := hlength ▸ (List.getElem?_eq_some_iff.1 hs).1
        simp [Rounds.held, List.getD_eq_getElem?_getD, hlt]
      have hstep : f.neededByEdge state.1 needed edge = .ok (f.needsEdge state.1 needed edge) := by
        simp [Function.neededByEdge, Function.needsEdge, Function.parametersAt, hs, harity, hlive, demand, require]
      rw [List.foldlM_cons, hstep, ok_bind, ih hsub, List.foldl_cons]
  have hneeded : f.needed state.1 c = .ok (f.needs state.1 c.id) := by
    simp [Function.needed, Function.needs, hi, hedges _ (List.Subset.refl _)]
  have hlive : state.1[c.id]? = some (Rounds.held state.1 c.id) := by
    have hlt : c.id < state.1.length := hlength ▸ (List.getElem?_eq_some_iff.1 hi).1
    simp [Rounds.held, List.getD_eq_getElem?_getD, hlt]
  simp [Function.visit, Rounds.visit, hneeded, hlive, demand]

/-- The places in the order of a round: the last continuation comes first. -/
def Function.order (f : Function) : List ContinuationId := f.continuations.reverse.map (·.id)

theorem Function.settle_eq (hslotted : f.Slotted) (hfits : f.EdgesFit) {n : ℕ} {live result : Live}
    (hlength : live.length = f.continuations.length) (h : Rounds.settle f.needs f.order n live = some result) :
    f.settle n live = .ok result := by
  induction n generalizing live with
  | zero => cases h
  | succ n ih =>
    have hround : ∀ cs ⊆ f.continuations, ∀ state : Live × Bool, state.1.length = f.continuations.length →
        cs.foldlM f.visit state = .ok ((cs.map (·.id)).foldl (Rounds.visit f.needs) state) ∧
          ((cs.map (·.id)).foldl (Rounds.visit f.needs) state).1.length = f.continuations.length := by
      intro cs
      induction cs with
      | nil => exact fun _ _ h => ⟨rfl, h⟩
      | cons c cs ih =>
        intro hsub state hstate
        obtain ⟨hc, hsub⟩ := List.cons_subset.1 hsub
        rw [List.foldlM_cons, Function.visit_eq hslotted hfits hc hstate, ok_bind, List.map_cons, List.foldl_cons]
        exact ih hsub _ ((Rounds.visit_length _).trans hstate)
    obtain ⟨hfold, hlength'⟩ : f.continuations.reverse.foldlM f.visit (live, false) =
        .ok (f.order.foldl (Rounds.visit f.needs) (live, false)) ∧
          (f.order.foldl (Rounds.visit f.needs) (live, false)).1.length = f.continuations.length :=
      hround f.continuations.reverse (by simp) (live, false) hlength
    rw [Rounds.settle] at h
    simp only [Function.settle, hfold, ok_bind]
    split at h
    · next hchanged =>
      rw [if_pos hchanged]
      exact ih hlength' h
    · next hsame =>
      rw [if_neg hsame]
      cases h
      rfl

def Function.reads (f : Function) : List ValueId :=
  f.continuations.flatMap fun c => c.instructions.flatMap (·.operands) ++ c.transition.uses ++
    c.transition.edges.flatMap fun edge => edge.arguments.filterMap Argument.value?

theorem mem_reads_of_reads {c : Continuation} (hc : c ∈ f.continuations) {v : ValueId} (h : c.Reads v) :
    v ∈ f.reads := by
  refine List.mem_flatMap.2 ⟨c, hc, ?_⟩
  rw [List.mem_append, List.mem_append]
  rcases h with ⟨before, i, after, he, hv, _⟩ | ⟨_, huse | ⟨edge, hedge, hargument⟩⟩
  · exact Or.inl (Or.inl (List.mem_flatMap.2 ⟨i, by simp [he], hv⟩))
  · exact Or.inl (Or.inr huse)
  · exact Or.inr (List.mem_flatMap.2 ⟨edge, hedge, mem_arguments.2 hargument⟩)

theorem needs_keeps_reads : Rounds.Keeps (fun _ v => v ∈ f.reads) f.needs := by
  intro live hlive i v hv
  obtain ⟨c, hc, hread | ⟨_, edge, _, hv, _⟩⟩ := mem_needs.1 hv
  · exact mem_reads_of_reads (List.mem_of_getElem? hc) hread
  · exact hlive _ _ hv

/-- **The search ends with the live values**: in a function whose edges fit, from some number of rounds on it returns
for each continuation the set of the values that are live there. -/
theorem liveInputs_exact (hslotted : f.Slotted) (hfits : f.EdgesFit) :
    ∃ live, (∃ n, ∀ rounds ≥ n, f.liveInputs rounds = .ok live) ∧ live.length = f.continuations.length ∧
      ∀ (i : ContinuationId) (needed : Ascending ValueId), live[i]? = some needed →
        ∀ v, v ∈ needed ↔ f.LiveAt v i := by
  let start : Live := List.replicate f.continuations.length .empty
  have hstart (i : ℕ) : Rounds.held start i = .empty := by
    simp [Rounds.held, List.getD_eq_getElem?_getD, start, List.getElem?_replicate]
    split <;> rfl
  have hnothing (P : ℕ → ValueId → Prop) : Rounds.Within P start := by
    intro i v hv
    rw [hstart] at hv
    exact absurd hv (Ascending.not_mem_empty v)
  have horder : ∀ i ∈ f.order, i < start.length := by
    intro i hi
    obtain ⟨c, hc, rfl⟩ := List.mem_map.1 hi
    obtain ⟨j, hj⟩ := List.getElem?_of_mem (List.mem_reverse.1 hc)
    obtain rfl := hslotted j c hj
    simpa [start] using (List.getElem?_eq_some_iff.1 hj).1
  have hrising : Rounds.Rising f.needs start := fun i v hv => hnothing (fun i v => v ∈ f.needs start i) i v hv
  obtain ⟨live, hlive, hlength, hfixed, hleast⟩ := Rounds.settle_finishes needs_monotone needs_keeps_reads horder
    hrising (hnothing _) (Nat.lt_succ_self _)
  have hlength' : live.length = f.continuations.length := by rw [hlength, List.length_replicate]
  refine ⟨live, ⟨_, fun rounds hrounds => Function.settle_eq hslotted hfits (List.length_replicate ..)
    (Rounds.settle_mono hrounds hlive)⟩, hlength', fun i needed hi v => ?_⟩
  have hheld : ∀ j, j < f.continuations.length → Rounds.held live j = f.needs live j := by
    intro j hj
    refine hfixed j (List.mem_map.2 ⟨f.continuations[j], List.mem_reverse.2 (List.getElem_mem hj), ?_⟩)
    exact hslotted j _ (List.getElem?_eq_getElem hj)
  have hneeded : Rounds.held live i = needed := by simp [Rounds.held, List.getD_eq_getElem?_getD, hi]
  rw [← hneeded]
  constructor
  · exact hleast _ (needs_keeps_liveAt hfits) (hnothing _) i v
  · -- every path of the definition is seen by the transfer, which the result is closed under
    intro h
    clear hneeded hi
    induction h with
    | read hc hread =>
      rw [hheld _ (List.getElem?_eq_some_iff.1 hc).1]
      exact mem_needs.2 ⟨_, hc, Or.inl hread⟩
    | @edge i c successor edge hc hresults hedge hs hparameter _ ih =>
      rw [hheld _ (List.getElem?_eq_some_iff.1 hc).1]
      refine mem_needs.2 ⟨c, hc, Or.inr ⟨hresults, edge, hedge, ih, ?_⟩⟩
      simpa [Function.parametersAt, hs] using hparameter

end Search

/-! ### Filling in the captures -/

section Captures

theorem Function.record_succeeds (l : List Definition) (definitions : Definitions) :
    (∃ all, l.foldlM f.record definitions = .ok all) ↔
      (l.map (·.value)).Nodup ∧ ∀ d ∈ l, definitions.lookup d.value = none := by
  induction l generalizing definitions with
  | nil => simp
  | cons d l ih =>
    have hstep (next : Definitions) : f.record definitions d = .ok next ↔
        definitions.lookup d.value = none ∧ definitions.insert d.value d = next := by
      simp [Function.record]
    simp only [foldlM_cons_eq_ok, hstep]
    constructor
    · rintro ⟨all, next, ⟨hnone, rfl⟩, hall⟩
      obtain ⟨hnodup, hfresh⟩ := (ih _).1 ⟨all, hall⟩
      have hother : ∀ e ∈ l, e.value ≠ d.value ∧ definitions.lookup e.value = none := by
        intro e he
        have := hfresh e he
        rw [Table.lookup_insert] at this
        split at this
        · cases this
        · next hne => exact ⟨hne, this⟩
      refine ⟨List.nodup_cons.2 ⟨fun hd => ?_, hnodup⟩, List.forall_mem_cons.2 ⟨hnone, fun e he => (hother e he).2⟩⟩
      obtain ⟨e, he, hvalue⟩ := List.mem_map.1 hd
      exact (hother e he).1 hvalue
    · rintro ⟨hnodup, hfresh⟩
      obtain ⟨hd, hnodup⟩ := List.nodup_cons.1 hnodup
      obtain ⟨hnone, hfresh⟩ := List.forall_mem_cons.1 hfresh
      obtain ⟨all, hall⟩ := (ih (definitions.insert d.value d)).2 ⟨hnodup, fun e he => by
        rw [Table.lookup_insert, if_neg fun hvalue => hd (List.mem_map.2 ⟨e, he, hvalue⟩)]
        exact hfresh e he⟩
      exact ⟨all, _, ⟨hnone, rfl⟩, hall⟩

theorem Function.lookup_recorded {l : List Definition} {definitions all : Definitions}
    (h : l.foldlM f.record definitions = .ok all) (v : ValueId) :
    ((all.lookup v).isSome ↔ (definitions.lookup v).isSome ∨ v ∈ l.map (·.value)) ∧
      ((∀ d, definitions.lookup v = some d → d.value = v) → ∀ d, all.lookup v = some d → d.value = v) := by
  induction l generalizing definitions with
  | nil =>
    obtain rfl := foldlM_nil_eq_ok.1 h
    simp
  | cons d l ih =>
    obtain ⟨next, hnext, hall⟩ := foldlM_cons_eq_ok.1 h
    obtain ⟨-, rfl⟩ : definitions.lookup d.value = none ∧ definitions.insert d.value d = next := by
      simpa [Function.record] using hnext
    obtain ⟨hsome, hvalue⟩ := ih hall
    rw [Table.lookup_insert] at hsome hvalue
    by_cases hv : v = d.value
    · subst hv
      rw [if_pos rfl] at hsome hvalue
      refine ⟨⟨fun _ => Or.inr (by simp), fun _ => hsome.2 (Or.inl rfl)⟩, fun _ => hvalue fun e he => ?_⟩
      cases he
      rfl
    · rw [if_neg hv] at hsome hvalue
      refine ⟨?_, hvalue⟩
      rw [hsome, List.map_cons, List.mem_cons]
      simp [hv]

theorem Function.capture_eq_ok {definitions : Definitions} {live : Live} {c : Continuation}
    {inputs : Ascending ValueId} (hinputs : live[c.id]? = some inputs)
    (hdefinitions : ∀ v d, definitions.lookup v = some d → d.value = v) :
    ((∃ c', f.capture definitions live c = .ok c') ↔
      ∀ v ∈ inputs, v ∉ c.parameters.map (·.value) → (definitions.lookup v).isSome) ∧
    ∀ c', f.capture definitions live c = .ok c' → c' = { c with captures := c'.captures } ∧
      ∀ v, v ∈ c'.captures.map (·.value) ↔ v ∈ inputs ∧ v ∉ c.parameters.map (·.value) := by
  have hmem (v : ValueId) : v ∈ (inputs.difference (.ofList (c.parameters.map (·.value)))).elements ↔
      v ∈ inputs ∧ v ∉ c.parameters.map (·.value) := by
    rw [← Ascending.mem_def, Ascending.mem_difference, Ascending.mem_ofList]
  simp only [Function.capture, hinputs, bind_eq_ok, demand_eq_ok, Option.some.injEq, exists_eq_left', pure_eq_ok]
  constructor
  · constructor
    · rintro ⟨c', captures, hcaptures, -⟩ v hv hparameter
      obtain ⟨d, -, hd⟩ := collect_of_mem hcaptures ((hmem v).2 ⟨hv, hparameter⟩)
      rw [demand_eq_ok] at hd
      simp [hd]
    · intro hsome
      obtain ⟨captures, hcaptures⟩ := collect_of_forall (f := fun v =>
        demand (definitions.lookup v) (Failure.refused s!"function {f.id} uses absent value {v}")) fun v hv => by
          obtain ⟨hin, hparameter⟩ := (hmem v).1 hv
          obtain ⟨d, hd⟩ := Option.isSome_iff_exists.1 (hsome v hin hparameter)
          exact ⟨d, demand_eq_ok.2 hd⟩
      exact ⟨_, captures, hcaptures, rfl⟩
  · rintro c' ⟨captures, hcaptures, rfl⟩
    refine ⟨rfl, fun v => ?_⟩
    -- each capture is the definition of the value that it stands for
    have hvalues : captures.map (·.value) =
        (inputs.difference (.ofList (c.parameters.map (·.value)))).elements := by
      have hall := collect_eq_ok.1 hcaptures
      clear hcaptures hmem
      generalize (inputs.difference (.ofList (c.parameters.map (·.value)))).elements = values at hall
      induction hall with
      | nil => rfl
      | cons hd _ ih => rw [List.map_cons, ih, hdefinitions _ _ (demand_eq_ok.1 hd)]
    rw [hvalues, hmem]

/-- The values that a function defines. -/
def Function.defined (f : Function) : List ValueId := (f.continuations.flatMap (·.definitions)).map (·.value)

/-- What captures can be filled in for: no value is defined twice, every live value is defined, and only parameters
are live at the entry. -/
structure Function.Fillable (f : Function) : Prop where
  once : f.defined.Nodup
  known : ∀ i v, f.LiveAt v i → v ∈ f.defined
  closed : ∃ first, f.continuations[f.entry]? = some first ∧
    ∀ v, f.LiveAt v f.entry → v ∈ first.parameters.map (·.value)

theorem mem_defined_of_parameter {c : Continuation} (hc : c ∈ f.continuations) {v : ValueId}
    (hv : v ∈ c.parameters.map (·.value)) : v ∈ f.defined := by
  obtain ⟨d, hd, rfl⟩ := List.mem_map.1 hv
  exact List.mem_map.2 ⟨d, List.mem_flatMap.2 ⟨c, hc, List.mem_append_left _ hd⟩, rfl⟩

theorem Function.LiveAt.lt {v : ValueId} {i : ContinuationId} (h : f.LiveAt v i) : i < f.continuations.length := by
  cases h with
  | read hc _ | edge hc _ _ _ _ _ => exact (List.getElem?_eq_some_iff.1 hc).1

/-- **Captures are the live values.**  In a function whose continuations stand at their ids (the live values of a target
are looked up by its id; lowering numbers the continuations so and validation checks it) and whose edges fit, the search
for the live values ends with exactly them, and the captures are filled in exactly where no value is defined twice, every
live value is defined, and only parameters are live at the entry; then each continuation captures what is live there and
is no parameter of it. -/
theorem captures_are_live (f : Function) (hslotted : f.Slotted) (hfits : f.EdgesFit) :
    ∃ live, live.length = f.continuations.length ∧
      (∀ (i : ContinuationId) (needed : Ascending ValueId), live[i]? = some needed →
        ∀ v, v ∈ needed ↔ f.LiveAt v i) ∧
      ∃ n, ∀ rounds ≥ n, f.liveInputs rounds = .ok live ∧
        ((∃ g, f.fillCaptures rounds = .ok g) ↔ f.Fillable) ∧
        ∀ g, f.fillCaptures rounds = .ok g → List.Forall₂ (fun c c' => c' = { c with captures := c'.captures } ∧
          ∀ v, v ∈ c'.captures.map (·.value) ↔ f.LiveAt v c.id ∧ v ∉ c.parameters.map (·.value))
          f.continuations g.continuations := by
  obtain ⟨live, ⟨n, hn⟩, hlength, hlive⟩ := liveInputs_exact hslotted hfits
  refine ⟨live, hlength, hlive, n, fun rounds hrounds => ⟨hn rounds hrounds, ?_⟩⟩
  have hinputs {c : Continuation} (hc : c ∈ f.continuations) : ∃ inputs, live[c.id]? = some inputs ∧
      f.continuations[c.id]? = some c ∧ ∀ v, v ∈ inputs ↔ f.LiveAt v c.id := by
    obtain ⟨i, hi⟩ := List.getElem?_of_mem hc
    obtain rfl := hslotted i c hi
    have hlt : c.id < live.length := hlength ▸ (List.getElem?_eq_some_iff.1 hi).1
    exact ⟨live[c.id], List.getElem?_eq_getElem hlt, hi, hlive _ _ (List.getElem?_eq_getElem hlt)⟩
  simp only [Function.fillCaptures, hn rounds hrounds, ok_bind, bind_eq_ok, demand_eq_ok, require_eq_ok,
    List.isEmpty_iff, pure_eq_ok]
  have hvalues {all : Definitions} (hall : (f.continuations.flatMap (·.definitions)).foldlM f.record [] = .ok all) :
      (∀ v, (all.lookup v).isSome ↔ v ∈ f.defined) ∧ ∀ v d, all.lookup v = some d → d.value = v :=
    ⟨fun v => by
      have hrecorded := (Function.lookup_recorded hall v).1
      rwa [List.lookup_nil, Option.isSome_none, Bool.false_eq_true, false_or] at hrecorded,
      fun v => (Function.lookup_recorded hall v).2 fun d hd => by cases hd⟩
  have hcaptured {all : Definitions} (hall : (f.continuations.flatMap (·.definitions)).foldlM f.record [] = .ok all)
      {filled : List Continuation} (hfilled : collect (f.capture all live) f.continuations = .ok filled) :
      List.Forall₂ (fun c c' => c' = { c with captures := c'.captures } ∧
        ∀ v, v ∈ c'.captures.map (·.value) ↔ f.LiveAt v c.id ∧ v ∉ c.parameters.map (·.value))
        f.continuations filled := by
    refine forall₂_imp_of_mem (collect_eq_ok.1 hfilled) fun c c' hc hcapture => ?_
    obtain ⟨inputs, hin, -, hexact⟩ := hinputs hc
    obtain ⟨hsame, hmem⟩ := (Function.capture_eq_ok hin (hvalues hall).2).2 c' hcapture
    exact ⟨hsame, fun v => by rw [hmem, hexact]⟩
  refine ⟨⟨?_, fun hfillable => ?_⟩, ?_⟩
  · rintro ⟨g, all, hall, filled, hfilled, entry, hentry, _, hclosed, -⟩
    have hcases := hcaptured hall hfilled
    refine ⟨((Function.record_succeeds _ _).1 ⟨all, hall⟩).1, fun i v hv => ?_, ?_⟩
    · -- a live value is a parameter, or it has been captured and so found
      obtain ⟨c, hc⟩ : ∃ c, f.continuations[i]? = some c := ⟨_, List.getElem?_eq_getElem hv.lt⟩
      obtain rfl := hslotted i c hc
      have hc := List.mem_of_getElem? hc
      by_cases hparameter : v ∈ c.parameters.map (·.value)
      · exact mem_defined_of_parameter hc hparameter
      · obtain ⟨c', -, hcapture⟩ := collect_of_mem hfilled hc
        obtain ⟨inputs, hin, -, hexact⟩ := hinputs hc
        exact ((hvalues hall).1 v).1 ((Function.capture_eq_ok hin (hvalues hall).2).1.1 ⟨c', hcapture⟩ v
          ((hexact v).2 hv) hparameter)
    · obtain ⟨hlt, rfl⟩ := List.getElem?_eq_some_iff.1 hentry
      have hfirst := List.getElem?_eq_getElem (hcases.length_eq ▸ hlt)
      obtain ⟨-, hlives⟩ := hcases.get (hcases.length_eq ▸ hlt) hlt
      refine ⟨_, hfirst, fun v hv => by_contra fun hparameter => ?_⟩
      rw [List.get_eq_getElem, List.get_eq_getElem, hslotted _ _ hfirst, hclosed] at hlives
      cases (hlives v).2 ⟨hv, hparameter⟩
  · obtain ⟨all, hall⟩ := (Function.record_succeeds _ []).2 ⟨hfillable.once, fun _ _ => rfl⟩
    obtain ⟨filled, hfilled⟩ := collect_of_forall (f := f.capture all live) fun c hc => by
      obtain ⟨inputs, hin, -, hexact⟩ := hinputs hc
      exact (Function.capture_eq_ok hin (hvalues hall).2).1.2 fun v hv _ =>
        ((hvalues hall).1 v).2 (hfillable.known _ _ ((hexact v).1 hv))
    obtain ⟨first, hfirst, hlives⟩ := hfillable.closed
    have hcases := hcaptured hall hfilled
    obtain ⟨hlt, hget⟩ := List.getElem?_eq_some_iff.1 hfirst
    obtain ⟨-, hcapture⟩ := hcases.get hlt (hcases.length_eq ▸ hlt)
    refine ⟨_, all, hall, filled, hfilled, _, List.getElem?_eq_getElem (hcases.length_eq ▸ hlt), (), ?_, rfl⟩
    rw [← List.map_eq_nil_iff (f := (·.value)), List.eq_nil_iff_forall_not_mem]
    intro v hv
    obtain ⟨hlive, hparameter⟩ := (hcapture v).1 hv
    rw [List.get_eq_getElem, hget] at hlive hparameter
    exact hparameter (hlives v (hslotted _ _ hfirst ▸ hlive))
  · rintro g ⟨all, hall, filled, hfilled, -, -, -, -, rfl⟩
    exact hcaptured hall hfilled

/-- A loop that takes what it was entered with around with it: `1` is captured, `2` is a parameter. -/
def loop : Function where
  id := 0
  name := "loop"
  signature := 0
  entry := 0
  continuations := [
    ⟨0, [⟨1, 0, "plain", ⟨"loop", 0, 1⟩⟩], [], [], .jump ⟨1, [.value 1]⟩, ⟨"loop", 0, 1⟩⟩,
    ⟨1, [⟨2, 0, "plain", ⟨"loop", 0, 1⟩⟩], [], [], .branch 1 ⟨1, [.value 2]⟩ ⟨1, [.value 1]⟩, ⟨"loop", 0, 1⟩⟩]
  suspends := false
  framed := false
  reuse := none
  span := ⟨"loop", 0, 1⟩

theorem captures_are_live_loop : ∃ live : Live, live.length = 2 ∧
    (∀ (i : ContinuationId) (needed : Ascending ValueId), live[i]? = some needed →
      ∀ v, v ∈ needed ↔ loop.LiveAt v i) ∧
    ∃ n, ∀ rounds ≥ n, loop.liveInputs rounds = .ok live ∧
      ((∃ g, loop.fillCaptures rounds = .ok g) ↔ loop.Fillable) := by
  obtain ⟨live, hlength, hlive, n, h⟩ := captures_are_live loop (by
    rintro (_ | _ | i) c hc
    · cases hc
      rfl
    · cases hc
      rfl
    · cases hc) (by
    intro c hc edge hedge
    obtain ⟨htarget, harity⟩ : edge.target = 1 ∧ edge.arguments.length = 1 := by
      revert edge
      revert c
      decide
    exact ⟨loop.continuations[1], by rw [htarget]; rfl, harity.symm⟩)
  exact ⟨live, hlength, hlive, n, fun rounds hrounds => ⟨(h rounds hrounds).1, (h rounds hrounds).2.1⟩⟩

end Captures

end Blot.Suspension
