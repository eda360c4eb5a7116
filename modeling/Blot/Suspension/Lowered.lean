import Blot.Suspension.Checked
import Blot.Suspension.Direct

/-!
# What lowering makes of a function

* `Carries` — the instructions and the transition of a continuation are those of the operations that remain of a block
  and of its terminator, and after a call comes a continuation for what follows it;
* `Lowered`, `Copied` — a function of the graph, and the staged or the checked function that it comes from;
* `Graph.origin` — every function that is called has such an origin, under the same id.
-/

namespace Blot.Suspension

open Blot.Hir Blot.Support

variable {module : StagedModule} {function : StagedFunction} {entries : Entries}

/-! ### The operations of a block -/

/-- The continuations `cs` go on with the operations and the terminator, from a continuation of which the instructions
and the transition are left. -/
def Carries (module : StagedModule) (function : StagedFunction) (entries : Entries) (cs : List Continuation) :
    List StagedOperation → StagedTerminator → List Instruction → Transition → Prop
  | [], terminator, instructions, transition =>
    instructions = [] ∧ ∃ span, lowerTerminator function entries terminator = .ok (transition, span)
  | operation :: operations, terminator, instructions, transition =>
    if isCall operation then
      instructions = [] ∧ ∃ target signature suspends suspends' next c,
        callTarget module operation = .ok (target, signature, suspends) ∧
        transition = .call target signature operation.operands ⟨next, [.result]⟩ suspends' ∧
        cs[next]? = some c ∧ c.parameters.map (·.value) = [operation.result] ∧
        Carries module function entries cs operations terminator c.instructions c.transition
    else ∃ rest, instructions = instruction operation :: rest ∧
      Carries module function entries cs operations terminator rest transition

/-- The continuations that are there stay when more are added. -/
theorem lowerOperations_prefix {draft draft' : Draft} {operations : List StagedOperation}
    (h : operations.foldlM (lowerOperation module) draft = .ok draft') :
    ∃ more, draft'.continuations = draft.continuations ++ more ∧
      more.length = (operations.filter isCall).length := by
  induction operations generalizing draft with
  | nil => exact ⟨[], by rw [foldlM_nil_eq_ok.1 h]; simp, rfl⟩
  | cons operation operations ih =>
    obtain ⟨next, hstep, hrest⟩ := foldlM_cons_eq_ok.1 h
    obtain ⟨more, hmore, hlength⟩ := ih hrest
    unfold lowerOperation at hstep
    split at hstep
    · next hcall =>
      simp only [bind_eq_ok, pure_eq_ok] at hstep
      obtain ⟨_, _, rfl⟩ := hstep
      exact ⟨_ :: more, by rw [hmore, List.append_assoc]; rfl, by simp [hcall, hlength]⟩
    · next hcall =>
      rw [pure_eq_ok] at hstep
      subst hstep
      exact ⟨more, hmore, by simp [hcall, hlength]⟩

/-- **The operations of a block are followed** by the continuations that its lowering adds. -/
theorem lowerOperations_follows {draft draft' : Draft} {operations : List StagedOperation} {block : StagedBlock}
    (h : operations.foldlM (lowerOperation module) draft = .ok draft') {transition : Transition} {span : RuntimeSpan}
    (ht : lowerTerminator function entries block.terminator = .ok (transition, span)) {cs : List Continuation}
    (hcs : cs = draft'.continuations ++ [draft'.close transition span]) :
    ∃ c rest, cs[draft.continuations.length]? = some c ∧ c.parameters = draft.parameters ∧
      c.instructions = draft.instructions ++ rest ∧
      Carries module function entries cs operations block.terminator rest c.transition := by
  induction operations generalizing draft with
  | nil =>
    cases foldlM_nil_eq_ok.1 h
    exact ⟨draft'.close transition span, [], by rw [hcs]; simp, rfl, (List.append_nil _).symm, rfl, span, ht⟩
  | cons operation operations ih =>
    obtain ⟨next, hstep, hrest⟩ := foldlM_cons_eq_ok.1 h
    unfold lowerOperation at hstep
    by_cases hcall : isCall operation
    · rw [if_pos hcall] at hstep
      simp only [bind_eq_ok, pure_eq_ok, Prod.exists] at hstep
      obtain ⟨target, signature, suspends, htarget, rfl⟩ := hstep
      obtain ⟨more, hmore, _⟩ := lowerOperations_prefix hrest
      obtain ⟨c, rest, hc, hparameters, hinstructions, hfollows⟩ := ih hrest
      refine ⟨draft.close (.call target signature operation.operands ⟨draft.continuations.length + 1, [.result]⟩
        suspends)
        operation.span, [], ?_, rfl, (List.append_nil _).symm, ?_⟩
      · rw [hcs, hmore]
        simp
      · simp only [List.length_append, List.length_cons, List.length_nil, Nat.zero_add] at hc
        rw [Carries, if_pos hcall]
        refine ⟨rfl, target, signature, suspends, suspends, draft.continuations.length + 1, c, htarget, rfl, hc,
          by rw [hparameters]; rfl, ?_⟩
        simpa [hinstructions] using hfollows
    · rw [if_neg hcall, pure_eq_ok] at hstep
      subst hstep
      obtain ⟨c, rest, hc, hparameters, hinstructions, hfollows⟩ := ih hrest
      refine ⟨c, instruction operation :: rest, hc, hparameters, ?_, ?_⟩
      · rw [hinstructions, List.append_assoc]
        rfl
      · rw [Carries, if_neg hcall]
        exact ⟨rest, rfl, hfollows⟩

theorem target_of_callTarget {operation : StagedOperation} {target : CallTarget} {signature : SignatureId}
    {suspends : Bool} (h : callTarget module operation = .ok (target, signature, suspends)) :
    Direct.target operation = .ok target := by
  unfold callTarget at h
  unfold Direct.target
  split at h
  · next hkind =>
    simp only [bind_eq_ok, demand_eq_ok, pure_eq_ok, Prod.mk.injEq] at h
    obtain ⟨id, hid, _, _, rfl, _⟩ := h
    simp [hkind, hid, demand]
  · next hkind =>
    simp only [bind_eq_ok, demand_eq_ok] at h
    obtain ⟨capability, hcapability, name, hname, h⟩ := h
    split at h
    · next hhost =>
      simp only [bind_eq_ok, demand_eq_ok, pure_eq_ok, Prod.mk.injEq] at h
      obtain ⟨_, _, rfl, _⟩ := h
      simp [hhost, hcapability, hname, demand]
    · next hhost =>
      simp only [bind_eq_ok, demand_eq_ok, pure_eq_ok, Prod.mk.injEq] at h
      obtain ⟨_, _, rfl, _⟩ := h
      simp [hkind, hhost, hcapability, hname, demand]

/-! ### Copies -/

/-- A transition without the mark of suspension. -/
def Transition.unmarked : Transition → Transition
  | .call target signature arguments next _ => .call target signature arguments next false
  | transition => transition

/-- Without the mark, only calls differ. -/
theorem Transition.eq_or_call {transition transition' : Transition} (h : transition'.unmarked = transition.unmarked) :
    transition' = transition ∨ ∃ target signature arguments next suspends suspends',
      transition = .call target signature arguments next suspends ∧
        transition' = .call target signature arguments next suspends' := by
  cases transition with
  | call target signature arguments next suspends =>
    cases transition' with
    | call target' signature' arguments' next' suspends' =>
      simp only [Transition.unmarked, Transition.call.injEq, and_true] at h
      obtain ⟨rfl, rfl, rfl, rfl⟩ := h
      exact Or.inr ⟨_, _, _, _, suspends, suspends', rfl, rfl⟩
    | _ => simp [Transition.unmarked] at h
  | _ => cases transition' <;> simp_all [Transition.unmarked]

/-- The continuation, up to its captures and the mark of its call. -/
structure Continuation.Same (c c' : Continuation) : Prop where
  parameters : c'.parameters = c.parameters
  instructions : c'.instructions = c.instructions
  transition : c'.transition.unmarked = c.transition.unmarked

theorem Continuation.Same.refl (c : Continuation) : c.Same c := ⟨rfl, rfl, rfl⟩

theorem Continuation.Same.trans {c c' c'' : Continuation} (h : c.Same c') (h' : c'.Same c'') : c.Same c'' :=
  ⟨h'.parameters.trans h.parameters, h'.instructions.trans h.instructions, h'.transition.trans h.transition⟩

/-- Each continuation is found again in `cs'`. -/
def SameAt (cs cs' : List Continuation) : Prop :=
  ∀ (i : ℕ) (c : Continuation), cs[i]? = some c → ∃ c', cs'[i]? = some c' ∧ c.Same c'

theorem SameAt.of_prefix (cs more : List Continuation) : SameAt cs (cs ++ more) := by
  intro i c hc
  exact ⟨c, by rw [List.getElem?_append_left (List.getElem?_eq_some_iff.1 hc).1, hc], .refl c⟩

theorem SameAt.of_forall₂ {cs cs' : List Continuation} (h : List.Forall₂ Continuation.Same cs cs') :
    SameAt cs cs' := by
  intro i c hc
  obtain ⟨hi, rfl⟩ := List.getElem?_eq_some_iff.1 hc
  have hi' : i < cs'.length := h.length_eq ▸ hi
  exact ⟨cs'[i], List.getElem?_eq_getElem hi', h.get hi hi'⟩

/-- A terminator does not give a call. -/
theorem unmarked_of_lowerTerminator {terminator : StagedTerminator} {transition : Transition} {span : RuntimeSpan}
    (h : lowerTerminator function entries terminator = .ok (transition, span)) {transition' : Transition}
    (hsame : transition'.unmarked = transition.unmarked) : transition' = transition := by
  rcases Transition.eq_or_call hsame with rfl | ⟨target, signature, arguments, next, suspends, suspends', rfl, _⟩
  · rfl
  · cases terminator <;> simp [lowerTerminator] at h

/-- **What is followed stays followed in a copy.** -/
theorem Carries.copy {cs cs' : List Continuation} (hcs : SameAt cs cs') {operations : List StagedOperation}
    {terminator : StagedTerminator} {instructions : List Instruction} {transition transition' : Transition}
    (h : Carries module function entries cs operations terminator instructions transition)
    (hsame : transition'.unmarked = transition.unmarked) :
    Carries module function entries cs' operations terminator instructions transition' := by
  induction operations generalizing instructions transition transition' with
  | nil =>
    obtain ⟨hnil, span, ht⟩ := h
    exact ⟨hnil, span, unmarked_of_lowerTerminator ht hsame ▸ ht⟩
  | cons operation operations ih =>
    rw [Carries] at h ⊢
    split at h
    · next hcall =>
      rw [if_pos hcall]
      obtain ⟨hnil, target, signature, suspends, suspends', next, c, htarget, rfl, hc, hparameters, hfollows⟩ := h
      obtain ⟨c', hc', hcopy⟩ := hcs next c hc
      obtain ⟨suspends'', rfl⟩ : ∃ suspends'',
          transition' = .call target signature operation.operands ⟨next, [.result]⟩ suspends'' := by
        rcases Transition.eq_or_call hsame with rfl | ⟨_, _, _, _, _, suspends'', he, rfl⟩
        · exact ⟨suspends', rfl⟩
        · cases he
          exact ⟨suspends'', rfl⟩
      refine ⟨hnil, target, signature, suspends, suspends'', next, c', htarget, rfl, hc', ?_, ?_⟩
      · rw [hcopy.parameters, hparameters]
      · rw [hcopy.instructions]
        exact ih hfollows hcopy.transition
    · next hcall =>
      rw [if_neg hcall]
      obtain ⟨rest, rfl, hfollows⟩ := h
      exact ⟨rest, rfl, ih hfollows hsame⟩

/-! ### The blocks of a function -/

theorem lowerBlock_prefix {continuations cs : List Continuation} {block : StagedBlock}
    (h : lowerBlock module function entries continuations block = .ok cs) :
    ∃ more, cs = continuations ++ more ∧ more.length = 1 + (block.operations.filter isCall).length := by
  simp only [lowerBlock, bind_eq_ok, pure_eq_ok, Prod.exists] at h
  obtain ⟨draft, hdraft, transition, span, _, rfl⟩ := h
  obtain ⟨more, hmore, hlength⟩ := lowerOperations_prefix hdraft
  refine ⟨more ++ [draft.close transition span], by rw [hmore, List.append_assoc], ?_⟩
  rw [List.length_append, hlength, List.length_singleton]
  omega

theorem lowerBlocks_prefix {continuations cs : List Continuation} {blocks : List StagedBlock}
    (h : blocks.foldlM (lowerBlock module function entries) continuations = .ok cs) :
    ∃ more, cs = continuations ++ more := by
  induction blocks generalizing continuations with
  | nil => exact ⟨[], by rw [foldlM_nil_eq_ok.1 h, List.append_nil]⟩
  | cons block blocks ih =>
    obtain ⟨next, hstep, hrest⟩ := foldlM_cons_eq_ok.1 h
    obtain ⟨more, rfl, _⟩ := lowerBlock_prefix hstep
    obtain ⟨more', rfl⟩ := ih hrest
    exact ⟨more ++ more', List.append_assoc _ _ _⟩

theorem enterBlocks_lookup {blocks : List StagedBlock} {state state' : Entries × ContinuationId}
    (h : blocks.foldlM (enterBlock function) state = .ok state') :
    (∀ id cid, state.1.lookup id = some cid → state'.1.lookup id = some cid) ∧
      ∀ id cid, state'.1.lookup id = some cid → state.1.lookup id = some cid ∨ ∃ block ∈ blocks, block.id = id := by
  induction blocks generalizing state with
  | nil =>
    cases foldlM_nil_eq_ok.1 h
    exact ⟨fun _ _ h => h, fun _ _ h => Or.inl h⟩
  | cons block blocks ih =>
    obtain ⟨next, hstep, hrest⟩ := foldlM_cons_eq_ok.1 h
    simp only [enterBlock, bind_eq_ok, require_eq_ok, pure_eq_ok, Option.isNone_iff_eq_none] at hstep
    obtain ⟨_, hnone, rfl⟩ := hstep
    obtain ⟨hkeep, hnew⟩ := ih hrest
    simp only [Table.lookup_insert] at hkeep hnew
    constructor
    · intro id cid hid
      refine hkeep id cid ?_
      rw [if_neg, hid]
      rintro rfl
      rw [hnone] at hid
      cases hid
    · intro id cid hid
      rcases hnew id cid hid with h | ⟨block', hblock', he⟩
      · split at h
        · next he => exact Or.inr ⟨block, by simp, he.symm⟩
        · exact Or.inl h
      · exact Or.inr ⟨block', by simp [hblock'], he⟩

/-- **Each block starts at its entry and is followed from there.** -/
theorem lowerBlocks_follows {blocks : List StagedBlock} {state state' : Entries × ContinuationId}
    (henter : blocks.foldlM (enterBlock function) state = .ok state') {continuations cs : List Continuation}
    (hlower : blocks.foldlM (lowerBlock module function entries) continuations = .ok cs)
    (hlength : continuations.length = state.2) {block : StagedBlock} (hblock : block ∈ blocks) :
    ∃ cid c, state'.1.lookup block.id = some cid ∧ cs[cid]? = some c ∧
      c.parameters = block.parameters.map parameter ∧
      Carries module function entries cs block.operations block.terminator c.instructions c.transition := by
  induction blocks generalizing state continuations with
  | nil => cases hblock
  | cons first blocks ih =>
    obtain ⟨next, hstep, hrest⟩ := foldlM_cons_eq_ok.1 henter
    obtain ⟨continuations', hlstep, hlrest⟩ := foldlM_cons_eq_ok.1 hlower
    have hstep' := hstep
    simp only [enterBlock, bind_eq_ok, require_eq_ok, pure_eq_ok] at hstep'
    obtain ⟨_, _, rfl⟩ := hstep'
    obtain ⟨more, hmore, hmorelength⟩ := lowerBlock_prefix hlstep
    rcases List.mem_cons.1 hblock with rfl | hblock
    · simp only [lowerBlock, bind_eq_ok, pure_eq_ok, Prod.exists] at hlstep
      obtain ⟨draft, hdraft, transition, span, ht, hcs⟩ := hlstep
      obtain ⟨c, rest, hc, hparameters, hinstructions, hfollows⟩ := lowerOperations_follows hdraft ht hcs.symm
      obtain ⟨more', rfl⟩ := lowerBlocks_prefix hlrest
      obtain ⟨c', hc', hsame⟩ := SameAt.of_prefix continuations' more' _ c hc
      refine ⟨state.2, c', ?_, hlength ▸ hc', ?_, ?_⟩
      · refine (enterBlocks_lookup hrest).1 block.id state.2 ?_
        rw [Table.lookup_insert, if_pos rfl]
      · rw [hsame.parameters, hparameters]
      · rw [hsame.instructions, hinstructions, List.nil_append]
        exact hfollows.copy (SameAt.of_prefix continuations' more') hsame.transition
    · refine ih hrest hlrest ?_ hblock
      rw [hmore, List.length_append, hmorelength, hlength]

/-! ### The functions of the graph -/

/-- A function of the graph that comes from a staged function. -/
structure Lowered (module : StagedModule) (function : StagedFunction) (entries : Entries) (g : Function) : Prop where
  entry : entries.lookup function.entryBlock = some g.entry
  block : ∀ id cid, entries.lookup id = some cid → ∃ block c, function.blocks.find? (·.id == id) = some block ∧
    g.continuations[cid]? = some c ∧ c.parameters = block.parameters.map parameter ∧
    Carries module function entries g.continuations block.operations block.terminator c.instructions c.transition

structure Copied (f g : Function) : Prop where
  id : g.id = f.id
  entry : g.entry = f.entry
  continuations : List.Forall₂ Continuation.Same f.continuations g.continuations

theorem same_trans {cs cs' cs'' : List Continuation} (h : List.Forall₂ Continuation.Same cs cs')
    (h' : List.Forall₂ Continuation.Same cs' cs'') : List.Forall₂ Continuation.Same cs cs'' := by
  induction h generalizing cs'' with
  | nil =>
    cases h'
    exact .nil
  | cons hc _ ih =>
    cases h' with
    | cons hc' h' => exact .cons (hc.trans hc') (ih h')

theorem Copied.trans {f g h : Function} (hfg : Copied f g) (hgh : Copied g h) : Copied f h where
  id := hgh.id.trans hfg.id
  entry := hgh.entry.trans hfg.entry
  continuations := same_trans hfg.continuations hgh.continuations

theorem Lowered.copy {f g : Function} (h : Lowered module function entries f) (hcopy : Copied f g) :
    Lowered module function entries g where
  entry := by rw [hcopy.entry, h.entry]
  block id cid hid := by
    obtain ⟨block, c, hblock, hc, hparameters, hfollows⟩ := h.block id cid hid
    obtain ⟨c', hc', hsame⟩ := SameAt.of_forall₂ hcopy.continuations cid c hc
    refine ⟨block, c', hblock, hc', by rw [hsame.parameters, hparameters], ?_⟩
    rw [hsame.instructions]
    exact hfollows.copy (SameAt.of_forall₂ hcopy.continuations) hsame.transition

/-- **Lowering a function.** -/
theorem lowered_of_lowerFunction {g : Function} (h : lowerFunction module function = .ok g) :
    g.id = function.id ∧ ∃ entries, Lowered module function entries g := by
  simp only [lowerFunction, bind_eq_ok, demand_eq_ok, pure_eq_ok, Prod.exists] at h
  obtain ⟨entries, next, henter, entry, hentry, cs, hcs, rfl⟩ := h
  refine ⟨rfl, entries, hentry, fun id cid hid => ?_⟩
  obtain ⟨block, hblock, he⟩ := ((enterBlocks_lookup henter).2 id cid hid).resolve_left (fun h => by cases h)
  -- the block of this id that comes first is the one that is entered
  obtain ⟨found, hfound⟩ : ∃ found, function.blocks.find? (·.id == id) = some found := by
    refine Option.isSome_iff_exists.1 (List.find?_isSome.2 ⟨block, hblock, ?_⟩)
    exact beq_iff_eq.2 he
  have hfoundid : found.id = id := by simpa using List.find?_some hfound
  obtain ⟨cid', c, hcid, hc, hparameters, hfollows⟩ :=
    lowerBlocks_follows henter hcs rfl (List.mem_of_find?_eq_some hfound)
  rw [hfoundid] at hcid
  cases hcid.symm.trans hid
  exact ⟨found, c, hfound, hc, hparameters, hfollows⟩

theorem copied_mark (suspending framed : Ascending FunctionId) (f : Function) :
    Copied f (f.mark suspending framed) where
  id := rfl
  entry := rfl
  continuations := by
    rw [Function.mark, List.forall₂_map_right_iff]
    refine List.forall₂_same.2 fun c _ => ?_
    split
    · next h => exact ⟨rfl, rfl, by rw [h]; rfl⟩
    · exact .refl c

theorem copied_fillCaptures {f g : Function} {rounds : ℕ} (h : f.fillCaptures rounds = .ok g) : Copied f g := by
  simp only [Function.fillCaptures, bind_eq_ok, demand_eq_ok, require_eq_ok, pure_eq_ok] at h
  obtain ⟨live, _, definitions, _, cs, hcs, _, _, _, _, rfl⟩ := h
  refine ⟨rfl, rfl, (collect_eq_ok.1 hcs).imp fun c c' hc => ?_⟩
  simp only [Function.capture, bind_eq_ok, pure_eq_ok] at hc
  obtain ⟨_, _, captures, _, rfl⟩ := hc
  exact ⟨rfl, rfl, rfl⟩

/-- The function of an id, in a module. -/
inductive Origin (module : StagedModule) (id : FunctionId) : Option Function → Prop
  | staged {function : StagedFunction} {entries : Entries} {g : Function} :
      module.functions.find? (·.id == id) = some function → Lowered module function entries g →
      Origin module id (some g)
  | checked {f g : Function} :
      module.functions.find? (·.id == id) = none → module.checkedFunctions.find? (·.id == id) = some f →
      Copied f g → Origin module id (some g)
  | absent :
      module.functions.find? (·.id == id) = none → module.checkedFunctions.find? (·.id == id) = none →
      Origin module id none

/-- **A lowered graph is validated, and its functions come from those of the module.** -/
theorem Graph.origin {graph : Graph} {rounds : ℕ} (h : Graph.lower module rounds = .ok graph) :
    graph.Validated module.tables ∧ ∀ id, Origin module id (graph.functions.find? (·.id == id)) := by
  simp only [Graph.lower, bind_eq_ok, pure_eq_ok] at h
  obtain ⟨lowered, hlowered, suspending, _, framed, _, functions, hfunctions, _, hvalidate, rfl⟩ := h
  have hg := Graph.validated_of_validate hvalidate
  refine ⟨hg, fun id => ?_⟩
  -- the functions of the graph are copies of those that were put in order
  have hcopy : ∀ f ∈ lowered ++ module.checkedFunctions, ∃ g ∈ functions, Copied f g := by
    intro f hf
    obtain ⟨g, hmem, hfill⟩ := collect_of_mem hfunctions ((List.perm_insertionSort _ _).mem_iff.2 hf)
    exact ⟨g, hmem, (copied_mark suspending framed f).trans (copied_fillCaptures hfill)⟩
  have hfind : ∀ g ∈ functions, functions.find? (·.id == g.id) = some g := by
    intro g hmem
    obtain ⟨n, hn⟩ := List.getElem?_of_mem hmem
    rw [(hg.find_eq g.id : functions.find? (·.id == g.id) = functions[g.id]?), (hg n g hn).1, hn]
  cases hstaged : module.functions.find? (·.id == id) with
  | some function =>
    have hid : function.id = id := by simpa using List.find?_some hstaged
    obtain ⟨f, hf, hlower⟩ := collect_of_mem hlowered (List.mem_of_find?_eq_some hstaged)
    obtain ⟨hfid, entries, hentries⟩ := lowered_of_lowerFunction hlower
    obtain ⟨g, hmem, hcopied⟩ := hcopy f (List.mem_append_left _ hf)
    have := hfind g hmem
    rw [hcopied.id, hfid, hid] at this
    rw [this]
    exact .staged hstaged (hentries.copy hcopied)
  | none =>
    cases hchecked : module.checkedFunctions.find? (·.id == id) with
    | some f =>
      have hid : f.id = id := by simpa using List.find?_some hchecked
      obtain ⟨g, hmem, hcopied⟩ := hcopy f (List.mem_append_right _ (List.mem_of_find?_eq_some hchecked))
      have := hfind g hmem
      rw [hcopied.id, hid] at this
      rw [this]
      exact .checked hstaged hchecked hcopied
    | none =>
      cases hfound : functions.find? (·.id == id) with
      | none => exact .absent hstaged hchecked
      | some g =>
        have hgid : g.id = id := by simpa using List.find?_some hfound
        obtain ⟨f, hf, hfill⟩ := mem_of_collect hfunctions (List.mem_of_find?_eq_some hfound)
        have hfid : f.id = id := by
          rw [← hgid, ((copied_mark suspending framed f).trans (copied_fillCaptures hfill)).id]
        rcases List.mem_append.1 ((List.perm_insertionSort _ _).mem_iff.1 hf) with hf | hf
        · obtain ⟨function, hfunction, hlower⟩ := mem_of_collect hlowered hf
          have := List.find?_eq_none.1 hstaged function hfunction
          rw [← (lowered_of_lowerFunction hlower).1, hfid] at this
          exact absurd (beq_self_eq_true id) this
        · have := List.find?_eq_none.1 hchecked f hf
          rw [hfid] at this
          exact absurd (beq_self_eq_true id) this

end Blot.Suspension
