import Blot.Hir.Simplify
import Blot.Suspension.Rewrite
import Mathlib.Data.List.Flatten

/-!
# Blocks that only forward

A block that does nothing but branch on with its own parameters is passed over, and so are the blocks that control does
not arrive at; the blocks that are left get their places as ids.

* `Compacted` — the function with the blocks that are left;
* `StagedFunction.ForwardingKeeps` — no other block reads a parameter of a forwarding block, and no chain of them comes
  back to itself;
* `compacted_wellFormed`, `compacted_sameRuns` — then the blocks that are left have the same runs.
-/

namespace Blot.Hir

open Blot.Support
open Blot.Suspension (Failure)

/-! ### Chains of forwarding blocks -/

section Forwarding

variable {f : StagedFunction}

theorem targets_eq (terminator : StagedTerminator) : terminator.targets = terminator.edges.map (·.1) := by
  cases terminator with
  | switch selector cases fallback span => simp [StagedTerminator.targets, StagedTerminator.edges, Function.comp_def]
  | _ => rfl

theorem forwards_eq_some {block : StagedBlock} {entry : ℕ × ℕ} (h : f.forwards block = some entry) :
    entry.1 = block.id ∧ block.id ≠ f.entryBlock ∧ block.operations = [] ∧
      ∃ span, block.terminator = .branch entry.2 block.names span := by
  unfold StagedFunction.forwards at h
  split at h
  · cases h
  · next hnot =>
    simp only [ne_eq, not_or, not_not] at hnot
    split at h
    · next target arguments span hterminator =>
      split at h
      · next hnames =>
        cases h
        exact ⟨rfl, hnot.1, hnot.2, span, hnames ▸ hterminator⟩
      · cases h
    · cases h

theorem forwarding_lookup {id target : ℕ} (h : f.forwarding.lookup id = some target) :
    ∃ block ∈ f.blocks, block.id = id ∧ id ≠ f.entryBlock ∧ block.operations = [] ∧
      ∃ span, block.terminator = .branch target block.names span := by
  obtain ⟨block, hblock, hforwards⟩ := List.mem_filterMap.1 (Table.mem_of_lookup h)
  obtain ⟨hid, hentry, hoperations, hterminator⟩ := forwards_eq_some hforwards
  cases hid
  exact ⟨block, hblock, rfl, hentry, hoperations, hterminator⟩

theorem forwarding_entry : f.forwarding.lookup f.entryBlock = none := by
  cases h : f.forwarding.lookup f.entryBlock with
  | none => rfl
  | some target =>
    obtain ⟨_, _, _, hentry, _⟩ := forwarding_lookup h
    exact absurd rfl hentry

def StagedFunction.Onto (f : StagedFunction) (id target : ℕ) : Prop := f.forwarding.lookup id = some target

/-- **A chain of forwarding blocks leads to where it is resolved.** -/
theorem resolve_chain (id : ℕ) : Relation.ReflTransGen f.Onto id (resolve f.forwarding id) := by
  have hfrom : ∀ (bound : ℕ) (visited : List ℕ) (id : ℕ),
      Relation.ReflTransGen f.Onto id (resolveFrom f.forwarding bound visited id) := by
    intro bound
    induction bound with
    | zero => exact fun _ _ => .refl
    | succ bound ih =>
      intro visited id
      rw [resolveFrom]
      split
      · next next hnext =>
        split
        · exact .refl
        · exact .head hnext (ih _ next)
      · exact .refl
  exact hfrom _ _ _

theorem resolve_of_none {id : ℕ} (h : f.forwarding.lookup id = none) : resolve f.forwarding id = id := by
  rw [resolve, resolveFrom, h]

variable (hwell : f.WellFormed)

include hwell

theorem onto_block {block : StagedBlock} (hmem : block ∈ f.blocks) {target : ℕ} (h : f.Onto block.id target) :
    block.operations = [] ∧ (∃ span, block.terminator = .branch target block.names span) ∧
      (target, block.names) ∈ block.terminator.edges := by
  obtain ⟨other, hother, hsame, _, hoperations, span, hterminator⟩ := forwarding_lookup h
  obtain rfl := block_of_id hwell.ids hother hmem hsame
  exact ⟨hoperations, ⟨span, hterminator⟩, by simp [hterminator, StagedTerminator.edges]⟩

theorem chain_block {id target : ℕ} (h : Relation.ReflTransGen f.Onto id target) {block : StagedBlock}
    (hblock : block ∈ f.blocks) (hid : block.id = id) :
    ∃ last ∈ f.blocks, last.id = target ∧ last.parameters.length = block.parameters.length := by
  induction h with
  | refl => exact ⟨block, hblock, hid, rfl⟩
  | tail _ hstep ih =>
    obtain ⟨last, hlast, rfl, hlength⟩ := ih
    obtain ⟨_, _, hedge⟩ := onto_block hwell hlast hstep
    obtain ⟨successor, hsuccessor, hid', harity⟩ := hwell.edges last hlast _ hedge
    refine ⟨successor, hsuccessor, hid', harity.trans ?_⟩
    simpa [StagedBlock.names] using hlength

/-- **Control goes along a chain**; what is defined on the way are the parameters of the forwarding blocks. -/
theorem chain_arrives {seen : List ℕ} {a : StagedBlock} (ha : f.Arrives seen a) {id target : ℕ}
    (h : Relation.ReflTransGen f.Onto id target) {arguments : List ℕ} (hedge : (id, arguments) ∈ a.terminator.edges) :
    ∃ known b, f.Arrives known b ∧ b.id = target ∧ ∀ v ∈ known, v ∈ a.defined ∨ v ∈ seen ∨
      ∃ block ∈ f.blocks, (f.forwarding.lookup block.id).isSome ∧ v ∈ block.names := by
  induction h with
  | refl =>
    obtain ⟨successor, hsuccessor, hid, _⟩ := hwell.edges a ha.mem _ hedge
    exact ⟨_, successor, ha.edge hedge hsuccessor hid, hid, fun v hv => (List.mem_append.1 hv).imp_right Or.inl⟩
  | tail _ hstep ih =>
    obtain ⟨known, b, hb, rfl, hknown⟩ := ih
    obtain ⟨hoperations, _, hedge'⟩ := onto_block hwell hb.mem hstep
    obtain ⟨successor, hsuccessor, hid, _⟩ := hwell.edges b hb.mem _ hedge'
    refine ⟨_, successor, hb.edge hedge' hsuccessor hid, hid, fun v hv => ?_⟩
    rcases List.mem_append.1 hv with hv | hv
    · refine Or.inr (Or.inr ⟨b, hb.mem, ?_, ?_⟩)
      · exact Option.isSome_iff_exists.2 ⟨_, hstep⟩
      · simpa [StagedBlock.defined, hoperations] using hv
    · exact hknown v hv

end Forwarding

/-! ### The blocks that are left -/

/-- **What is asked of the forwarding blocks**: the other blocks read no parameter of theirs, and no chain of them that
control comes to leads back to one of them. -/
structure StagedFunction.ForwardingKeeps (f : StagedFunction) : Prop where
  reads : ∀ seen block, f.Arrives seen block → f.forwarding.lookup block.id = none → ∀ v ∈ block.reads,
    ∀ other ∈ f.blocks, (f.forwarding.lookup other.id).isSome → v ∉ other.names
  chains : ∀ seen block, f.Arrives seen block → ∀ edge ∈ block.terminator.edges,
    f.forwarding.lookup (resolve f.forwarding edge.1) = none

section Reachable

variable {f : StagedFunction} (hwell : f.WellFormed) (hindexed : f.Indexed) (hkeeps : f.ForwardingKeeps)

include hindexed

theorem mem_successors {block : StagedBlock} (hmem : block ∈ f.blocks) (id : ℕ) :
    id ∈ f.successors block.id ↔ ∃ edge ∈ block.terminator.edges, resolve f.forwarding edge.1 = id := by
  simp only [StagedFunction.successors, hindexed.get hmem, targets_eq, List.mem_map]
  constructor
  · rintro ⟨_, ⟨edge, hedge, rfl⟩, rfl⟩
    exact ⟨edge, hedge, rfl⟩
  · rintro ⟨edge, hedge, rfl⟩
    exact ⟨_, ⟨edge, hedge, rfl⟩, rfl⟩

include hwell

/-- The search for the blocks that are left finishes. -/
theorem reachable_finishes : ∃ reachable n, ∀ rounds ≥ n,
    explore f.successors rounds [resolve f.forwarding f.entryBlock] [] = some reachable := by
  have hids : ∀ id, id < f.blocks.length ↔ ∃ block ∈ f.blocks, block.id = id := by
    intro id
    constructor
    · intro hid
      exact ⟨f.blocks[id], List.getElem_mem hid, hindexed.id_eq (List.getElem?_eq_getElem hid)⟩
    · rintro ⟨block, hblock, rfl⟩
      exact hindexed.lt hblock
  have hclosed : ∀ id ∈ List.range f.blocks.length, f.successors id ⊆ List.range f.blocks.length := by
    intro id hid next hnext
    obtain ⟨block, hblock, rfl⟩ := (hids id).1 (List.mem_range.1 hid)
    obtain ⟨edge, hedge, rfl⟩ := (mem_successors hindexed hblock next).1 hnext
    obtain ⟨successor, hsuccessor, hsid, _⟩ := hwell.edges block hblock edge hedge
    obtain ⟨last, hlast, hlid, _⟩ := chain_block hwell (resolve_chain edge.1) hsuccessor hsid
    exact List.mem_range.2 ((hids _).2 ⟨last, hlast, hlid⟩)
  have hwidth : ∀ id ∈ List.range f.blocks.length,
      (f.successors id).length ≤ (f.blocks.flatMap fun block => block.terminator.targets).length := by
    intro id hid
    obtain ⟨block, hblock, rfl⟩ := (hids id).1 (List.mem_range.1 hid)
    simp only [StagedFunction.successors, hindexed.get hblock, List.length_map]
    obtain ⟨before, after, hblocks⟩ := List.append_of_mem hblock
    rw [hblocks]
    simp
    omega
  have hstack : [resolve f.forwarding f.entryBlock] ⊆ List.range f.blocks.length := by
    obtain ⟨block, hblock, hid⟩ := hwell.entry
    rw [resolve_of_none forwarding_entry]
    simpa using (hids _).2 ⟨block, hblock, hid⟩
  obtain ⟨reachable, n, hn⟩ := explore_eventually hclosed hwidth hstack []
  exact ⟨reachable, n, hn⟩

include hkeeps

/-- **What the search sees**: control arrives there, and it does not forward. -/
theorem reachable_arrives {rounds : ℕ} {reachable : List ℕ}
    (h : explore f.successors rounds [resolve f.forwarding f.entryBlock] [] = some reachable) {id : ℕ}
    (hid : id ∈ reachable) : ∃ seen block, f.Arrives seen block ∧ block.id = id ∧ f.forwarding.lookup id = none := by
  obtain ⟨entry, hentry, hleads⟩ := (mem_explore h id).1 hid
  rw [resolve_of_none forwarding_entry, List.mem_singleton] at hentry
  subst hentry
  induction hleads with
  | refl =>
    obtain ⟨block, hblock, hid⟩ := hwell.entry
    exact ⟨[], block, .entry hblock hid, hid, forwarding_entry⟩
  | @tail id next hleads hstep ih =>
    obtain ⟨seen, block, harrives, rfl, _⟩ := ih ((mem_explore h _).2 ⟨f.entryBlock, by
      simp [resolve_of_none forwarding_entry], hleads⟩)
    obtain ⟨edge, hedge, rfl⟩ := (mem_successors hindexed harrives.mem next).1 hstep
    obtain ⟨known, b, hb, hbid, _⟩ := chain_arrives hwell harrives (resolve_chain edge.1) hedge
    exact ⟨known, b, hb, hbid, hkeeps.chains seen block harrives edge hedge⟩

omit hkeeps hwell in
theorem reachable_closed {rounds : ℕ} {reachable : List ℕ}
    (h : explore f.successors rounds [resolve f.forwarding f.entryBlock] [] = some reachable) :
    f.entryBlock ∈ reachable ∧ ∀ block ∈ f.blocks, block.id ∈ reachable → ∀ edge ∈ block.terminator.edges,
      resolve f.forwarding edge.1 ∈ reachable := by
  obtain ⟨_, hstack, hnext⟩ := explore_complete h
  refine ⟨hstack (by simp [resolve_of_none forwarding_entry]), fun block hblock hid edge hedge => ?_⟩
  exact hnext block.id hid (by simp) ((mem_successors hindexed hblock _).2 ⟨edge, hedge, rfl⟩)

end Reachable

end Blot.Hir

namespace Blot.Suspension.Direct

open Blot.Hir Blot.Support

/-! ### The function with the blocks that are left -/

section Retargeted

variable {E E' : ℕ × List ℕ → ℕ × List ℕ → Prop} {t t' : StagedTerminator}

theorem Retargeted.imp (h : ∀ e e', E e e' → E' e e') (ht : Retargeted E t t') : Retargeted E' t t' := by
  cases ht with
  | branch he => exact .branch (h _ _ he)
  | conditional he he' => exact .conditional (h _ _ he) (h _ _ he')
  | switch hcases hfallback =>
    exact .switch (hcases.imp fun _ _ hc => ⟨hc.1, h _ _ hc.2⟩) (h _ _ hfallback)
  | «return» value span => exact .return value span
  | trap message span => exact .trap message span

theorem Retargeted.edge (h : Retargeted E t t') {edge' : ℕ × List ℕ} (hedge : edge' ∈ t'.edges) :
    ∃ edge ∈ t.edges, E edge edge' := by
  cases h with
  | branch h =>
    cases List.mem_singleton.1 hedge
    exact ⟨_, List.mem_singleton.2 rfl, h⟩
  | conditional h h' =>
    simp only [StagedTerminator.edges, List.mem_cons, List.not_mem_nil, or_false] at hedge ⊢
    rcases hedge with rfl | rfl
    · exact ⟨_, Or.inl rfl, h⟩
    · exact ⟨_, Or.inr rfl, h'⟩
  | switch h h' =>
    simp only [StagedTerminator.edges, List.mem_append, List.mem_map, List.mem_singleton] at hedge ⊢
    rcases hedge with ⟨c', hc', rfl⟩ | rfl
    · obtain ⟨c, hc, _, hE⟩ := exists_left_of_forall₂ h hc'
      exact ⟨_, Or.inl ⟨c, hc, rfl⟩, hE⟩
    · exact ⟨_, Or.inr rfl, h'⟩
  | «return» value span => cases hedge
  | trap message span => cases hedge

theorem Retargeted.uses_eq (h : Retargeted E t t') (hE : ∀ e e', E e e' → e'.2 = e.2) : t'.uses = t.uses := by
  cases h with
  | conditional h h' =>
    have hfirst := hE _ _ h
    have hsecond := hE _ _ h'
    simp only at hfirst hsecond
    rw [StagedTerminator.uses, StagedTerminator.uses, hfirst, hsecond]
  | branch h => exact hE _ _ h
  | _ => rfl

theorem retarget_finishes (t : StagedTerminator) (rename : ℕ → Except Failure ℕ)
    (h : ∀ edge ∈ t.edges, ∃ id, rename edge.1 = .ok id) :
    ∃ t', t.retarget rename = .ok t' := by
  cases t with
  | branch target arguments span =>
    obtain ⟨id, hid⟩ := h (target, arguments) (by simp [StagedTerminator.edges])
    have hid : rename target = .ok id := hid
    exact ⟨.branch id arguments span, by simp [StagedTerminator.retarget, hid]⟩
  | conditional condition consequent consequentArguments alternate alternateArguments span =>
    obtain ⟨first, hfirst⟩ := h (consequent, consequentArguments) (by simp [StagedTerminator.edges])
    obtain ⟨second, hsecond⟩ := h (alternate, alternateArguments) (by simp [StagedTerminator.edges])
    have hfirst : rename consequent = .ok first := hfirst
    have hsecond : rename alternate = .ok second := hsecond
    exact ⟨.conditional condition first consequentArguments second alternateArguments span,
      by simp [StagedTerminator.retarget, hfirst, hsecond]⟩
  | switch selector cases fallback span =>
    obtain ⟨other, hother⟩ := h (fallback, []) (by simp [StagedTerminator.edges])
    have hother : rename fallback = .ok other := hother
    obtain ⟨cases', hcases⟩ := collect_of_forall (l := cases)
      (f := fun c => do
        let target ← rename c.target
        pure (⟨c.value, target⟩ : RuntimeSwitchCase)) fun c hc => by
      obtain ⟨id, hid⟩ := h (c.target, []) (List.mem_append_left _ (List.mem_map.2 ⟨c, hc, rfl⟩))
      have hid : rename c.target = .ok id := hid
      exact ⟨⟨c.value, id⟩, by simp [hid]⟩
    refine ⟨.switch selector cases' other span, ?_⟩
    simp only [StagedTerminator.retarget, hcases, hother, ok_bind]
    rfl
  | «return» value span => exact ⟨_, rfl⟩
  | trap message span => exact ⟨_, rfl⟩

/-- **Renamed targets**: the same end of the block with other edges. -/
theorem retargeted_of_retarget {rename : ℕ → Except Failure ℕ} (h : t.retarget rename = .ok t') :
    Retargeted (fun e e' => rename e.1 = .ok e'.1 ∧ e'.2 = e.2) t t' := by
  cases t with
  | branch target arguments span =>
    simp only [StagedTerminator.retarget, bind_eq_ok, pure_eq_ok] at h
    obtain ⟨id, hid, rfl⟩ := h
    exact .branch ⟨hid, rfl⟩
  | conditional condition consequent consequentArguments alternate alternateArguments span =>
    simp only [StagedTerminator.retarget, bind_eq_ok, pure_eq_ok] at h
    obtain ⟨first, hfirst, second, hsecond, rfl⟩ := h
    exact .conditional ⟨hfirst, rfl⟩ ⟨hsecond, rfl⟩
  | switch selector cases fallback span =>
    simp only [StagedTerminator.retarget, bind_eq_ok, pure_eq_ok] at h
    obtain ⟨cases', hcases, other, hother, rfl⟩ := h
    refine .switch ((collect_eq_ok.1 hcases).imp fun c c' hc => ?_) ⟨hother, rfl⟩
    simp only [bind_eq_ok, pure_eq_ok] at hc
    obtain ⟨target, htarget, rfl⟩ := hc
    exact ⟨rfl, htarget, rfl⟩
  | «return» value span =>
    cases h
    exact .return value span
  | trap message span =>
    cases h
    exact .trap message span

end Retargeted

section Compacted

variable {f g : StagedFunction} {reachable : List ℕ}

/-- The blocks that are left. -/
def keptBlocks (f : StagedFunction) (reachable : List ℕ) : List StagedBlock :=
  f.blocks.filter fun block => block.id ∈ reachable ∧ (f.forwarding.lookup block.id).isNone

def newId (f : StagedFunction) (reachable : List ℕ) (id : ℕ) : Option ℕ :=
  (((keptBlocks f reachable).map (·.id)).zipIdx : Table ℕ ℕ).lookup id

structure Moved (f : StagedFunction) (reachable : List ℕ) (a b : StagedBlock) : Prop where
  id : newId f reachable a.id = some b.id
  parameters : b.parameters = a.parameters
  operations : b.operations = a.operations
  terminator : Retargeted (fun e e' => newId f reachable (resolve f.forwarding e.1) = some e'.1 ∧ e'.2 = e.2)
    a.terminator b.terminator

theorem Moved.names_eq {a b : StagedBlock} (h : Moved f reachable a b) : b.names = a.names := by
  rw [StagedBlock.names, h.parameters, StagedBlock.names]

theorem Moved.defined_eq {a b : StagedBlock} (h : Moved f reachable a b) : b.defined = a.defined := by
  rw [StagedBlock.defined, h.names_eq, h.operations, StagedBlock.defined]

/-- **The function with the blocks that are left**, under their new ids. -/
structure Compacted (f : StagedFunction) (reachable : List ℕ) (g : StagedFunction) : Prop where
  id_eq : g.id = f.id
  entry : newId f reachable f.entryBlock = some g.entryBlock
  blocks : List.Forall₂ (Moved f reachable) (keptBlocks f reachable) g.blocks

/-- The blocks that are left are numbered anew, and so are the branches. -/
def CompactionOk (f : StagedFunction) (reachable : List ℕ) : Prop :=
  ∃ blocks entryBlock, collect (fun block => do
      let id ← demand (newId f reachable block.id) Failure.panicked
      let terminator ← block.terminator.retarget fun target =>
        demand (newId f reachable (resolve f.forwarding target)) .panicked
      pure { block with id, terminator }) (keptBlocks f reachable) = .ok blocks ∧
    demand (newId f reachable f.entryBlock) Failure.panicked = .ok entryBlock ∧
    Compacted f reachable { f with blocks, entryBlock }

theorem lookup_zipIdx {l : List ℕ} (h : l.Nodup) {a i : ℕ} :
    (l.zipIdx : Table ℕ ℕ).lookup a = some i ↔ l[i]? = some a := by
  constructor
  · intro hlookup
    exact List.mem_zipIdx_iff_getElem?.1 (Table.mem_of_lookup hlookup)
  · intro hget
    exact Table.lookup_of_mem (by rwa [List.zipIdx_map_fst]) (List.mem_zipIdx_iff_getElem?.2 hget)

theorem mem_keptBlocks {a : StagedBlock} : a ∈ keptBlocks f reachable ↔
    a ∈ f.blocks ∧ a.id ∈ reachable ∧ f.forwarding.lookup a.id = none := by
  simp [keptBlocks, List.mem_filter]

variable (hwell : f.WellFormed)

include hwell

theorem keptBlocks_nodup : ((keptBlocks f reachable).map (·.id)).Nodup :=
  hwell.ids.sublist (List.filter_sublist.map _)

/-- A block that is left has a new id. -/
theorem newId_of_kept {a : StagedBlock} (ha : a ∈ keptBlocks f reachable) : ∃ i, newId f reachable a.id = some i := by
  obtain ⟨i, hi, rfl⟩ := List.getElem_of_mem ha
  exact ⟨i, (lookup_zipIdx (keptBlocks_nodup hwell)).2 (by simp [hi])⟩

theorem newId_injective {id id' i : ℕ} (h : newId f reachable id = some i) (h' : newId f reachable id' = some i) :
    id = id' := by
  have hget := (lookup_zipIdx (keptBlocks_nodup hwell)).1 h
  have hget' := (lookup_zipIdx (keptBlocks_nodup hwell)).1 h'
  exact Option.some.inj (hget.symm.trans hget')

/-- **The compaction finishes** where all branches lead to blocks that are left. -/
theorem compaction_ok (hentry : f.entryBlock ∈ reachable)
    (hedges : ∀ a ∈ keptBlocks f reachable, ∀ edge ∈ a.terminator.edges, resolve f.forwarding edge.1 ∈ reachable ∧
      f.forwarding.lookup (resolve f.forwarding edge.1) = none) :
    CompactionOk f reachable := by
  obtain ⟨first, hfirst, hid⟩ := hwell.entry
  obtain ⟨entryBlock, hentryBlock⟩ := newId_of_kept hwell
    (mem_keptBlocks.2 ⟨hfirst, by rwa [hid], by rw [hid]; exact forwarding_entry⟩)
  rw [hid] at hentryBlock
  have hall : ∀ a ∈ keptBlocks f reachable, ∃ b, (do
      let id ← demand (newId f reachable a.id) Failure.panicked
      let terminator ← a.terminator.retarget fun target =>
        demand (newId f reachable (resolve f.forwarding target)) .panicked
      pure { a with id, terminator }) = .ok b := by
    intro a ha
    obtain ⟨i, hi⟩ := newId_of_kept hwell ha
    obtain ⟨terminator, hterminator⟩ := retarget_finishes a.terminator
      (fun target => demand (newId f reachable (resolve f.forwarding target)) Failure.panicked) fun edge hedge => by
        obtain ⟨hreach, hnone⟩ := hedges a ha edge hedge
        obtain ⟨successor, hsuccessor, hsid, _⟩ := hwell.edges a (mem_keptBlocks.1 ha).1 edge hedge
        obtain ⟨last, hlast, hlid, _⟩ := chain_block hwell (resolve_chain edge.1) hsuccessor hsid
        obtain ⟨j, hj⟩ := newId_of_kept hwell (mem_keptBlocks.2 ⟨hlast, by rwa [hlid], by rwa [hlid]⟩)
        exact ⟨j, demand_eq_ok.2 (hlid ▸ hj)⟩
    refine ⟨{ a with id := i, terminator }, ?_⟩
    rw [hi, hterminator]
    rfl
  obtain ⟨blocks, hblocks⟩ := collect_of_forall hall
  refine ⟨blocks, entryBlock, hblocks, demand_eq_ok.2 hentryBlock, rfl, hentryBlock, ?_⟩
  refine (collect_eq_ok.1 hblocks).imp fun a b hb => ?_
  simp only [bind_eq_ok, demand_eq_ok, pure_eq_ok] at hb
  obtain ⟨i, hi, terminator, hterminator, rfl⟩ := hb
  refine ⟨hi, rfl, rfl, (retargeted_of_retarget hterminator).imp fun e e' he => ?_⟩
  exact ⟨demand_eq_ok.1 he.1, he.2⟩

variable (hg : Compacted f reachable g)

include hg

omit hwell in
theorem Compacted.block {b : StagedBlock} (hb : b ∈ g.blocks) :
    ∃ a ∈ f.blocks, f.forwarding.lookup a.id = none ∧ Moved f reachable a b := by
  obtain ⟨a, ha, hmoved⟩ := exists_left_of_forall₂ hg.blocks hb
  obtain ⟨hmem, _, hnone⟩ := mem_keptBlocks.1 ha
  exact ⟨a, hmem, hnone, hmoved⟩

/-- **The new id of a block leads to it.** -/
theorem Compacted.block_of_newId {a : StagedBlock} (ha : a ∈ f.blocks) {i : ℕ} (h : newId f reachable a.id = some i) :
    ∃ b ∈ g.blocks, b.id = i ∧ Moved f reachable a b := by
  have hget := (lookup_zipIdx (keptBlocks_nodup hwell)).1 h
  rw [List.getElem?_map, Option.map_eq_some_iff] at hget
  obtain ⟨other, hother, hid⟩ := hget
  have hkept := List.mem_of_getElem? hother
  obtain rfl := block_of_id hwell.ids (mem_keptBlocks.1 hkept).1 ha hid
  obtain ⟨b, hb, hmoved⟩ := exists_right_of_forall₂ hg.blocks hkept
  exact ⟨b, hb, Option.some.inj (hmoved.id.symm.trans h), hmoved⟩

theorem Compacted.indexed : g.Indexed := by
  have hlength := hg.blocks.length_eq
  refine List.ext_getElem? fun i => ?_
  by_cases hi : i < g.blocks.length
  · have hi' : i < (keptBlocks f reachable).length := hlength ▸ hi
    have hmoved : Moved f reachable (keptBlocks f reachable)[i] g.blocks[i] := by
      simpa using (List.forall₂_iff_get.1 hg.blocks).2 i hi' hi
    have hplace : newId f reachable (keptBlocks f reachable)[i].id = some i :=
      (lookup_zipIdx (keptBlocks_nodup hwell)).2 (by simp [hi'])
    have hid : g.blocks[i].id = i := Option.some.inj (hmoved.id.symm.trans hplace)
    rw [List.getElem?_range hi, List.getElem?_map, List.getElem?_eq_getElem hi, Option.map_some, hid]
  · rw [List.getElem?_eq_none (by simpa using hi), List.getElem?_eq_none (by simpa using hi)]

variable (hkeeps : f.ForwardingKeeps)

/-- The values of the parameters of forwarding blocks. -/
def Forwarded (f : StagedFunction) (v : ℕ) : Prop :=
  ∃ block ∈ f.blocks, (f.forwarding.lookup block.id).isSome ∧ v ∈ block.names

/-- Every way in the compacted function is a way in the function. -/
theorem Compacted.lift {seen : List ℕ} {b : StagedBlock} (h : g.Arrives seen b) :
    ∃ a known, f.Arrives known a ∧ (f.forwarding.lookup a.id = none ∧ Moved f reachable a b) ∧
      ∀ v ∈ known, v ∈ seen ∨ Forwarded f v := by
  refine StagedFunction.Arrives.lift
    (fun a b => f.forwarding.lookup a.id = none ∧ Moved f reachable a b) ?_ ?_ h
  · intro b hb hid
    obtain ⟨a, ha, hnone, hmoved⟩ := hg.block hb
    have hentry : a.id = f.entryBlock := newId_injective hwell hmoved.id (hid ▸ hg.entry)
    exact ⟨a, .entry ha hentry, hnone, hmoved⟩
  · rintro known seen a b ha _ ⟨_, hmoved⟩ edge' hedge' c hc hid
    obtain ⟨edge, hedge, hplace, _⟩ := hmoved.terminator.edge hedge'
    obtain ⟨a', ha', hnone, hmoved'⟩ := hg.block hc
    have htarget : a'.id = resolve f.forwarding edge.1 := newId_injective hwell hmoved'.id (hid ▸ hplace)
    obtain ⟨known', last, hlast, hlid, hknown⟩ := chain_arrives hwell ha (resolve_chain edge.1) hedge
    obtain rfl := block_of_id hwell.ids hlast.mem ha' (hlid.trans htarget.symm)
    refine ⟨last, known', hlast, ⟨hnone, hmoved'⟩, fun v hv => ?_⟩
    rw [hmoved.defined_eq]
    exact hknown v hv

include hkeeps

theorem Compacted.not_forwarded {seen : List ℕ} {b : StagedBlock} (h : g.Arrives seen b) {v : ℕ} (hv : v ∈ b.reads) :
    ¬Forwarded f v := by
  obtain ⟨a, known, ha, ⟨hnone, hmoved⟩, _⟩ := hg.lift hwell h
  rintro ⟨other, hother, hsome, hnames⟩
  have hreads : v ∈ a.reads := by
    rwa [StagedBlock.reads, hmoved.operations, hmoved.terminator.uses_eq fun _ _ he => he.2] at hv
  exact hkeeps.reads known a ha hnone v hreads other hother hsome hnames

/-- **The compacted function is well formed.** -/
theorem Compacted.wellFormed : g.WellFormed := by
  refine ⟨?_, ?_, ?_, ?_, ?_⟩
  · rw [hg.indexed hwell]
    exact List.nodup_range
  · obtain ⟨a, ha, hid⟩ := hwell.entry
    obtain ⟨b, hb, hbid, _⟩ := hg.block_of_newId hwell ha (hid ▸ hg.entry)
    exact ⟨b, hb, hbid⟩
  · have hdefined : g.blocks.flatMap (·.defined) = (keptBlocks f reachable).flatMap (·.defined) := by
      have hall := hg.blocks
      generalize keptBlocks f reachable = kept, g.blocks = blocks at hall
      induction hall with
      | nil => rfl
      | cons hmoved _ ih =>
        rw [List.flatMap_cons, List.flatMap_cons, ih, hmoved.defined_eq]
    rw [hdefined]
    exact hwell.definitions.sublist (List.Sublist.flatMap List.filter_sublist _)
  · intro b hb edge' hedge'
    obtain ⟨a, ha, _, hmoved⟩ := hg.block hb
    obtain ⟨edge, hedge, hplace, harguments⟩ := hmoved.terminator.edge hedge'
    obtain ⟨successor, hsuccessor, hid, hlength⟩ := hwell.edges a ha edge hedge
    obtain ⟨last, hlast, hlid, hsame⟩ := chain_block hwell (resolve_chain edge.1) hsuccessor hid
    obtain ⟨c, hc, hcid, hmoved'⟩ := hg.block_of_newId hwell hlast (hlid ▸ hplace)
    exact ⟨c, hc, hcid, by rw [hmoved'.parameters, hsame, hlength, harguments]⟩
  · intro seen b h
    obtain ⟨a, known, ha, ⟨_, hmoved⟩, hknown⟩ := hg.lift hwell h
    have hstill : ∀ v ∈ b.reads, ∀ defined : List ℕ, v ∈ defined ++ known → v ∈ defined ++ seen := by
      intro v hv defined hdefined
      rcases List.mem_append.1 hdefined with hdefined | hbefore
      · exact List.mem_append_left _ hdefined
      · exact List.mem_append_right _ ((hknown v hbefore).resolve_right (hg.not_forwarded hwell hkeeps h hv))
    refine ⟨fun before operation after hoperations v hv => ?_, fun v hv => ?_⟩
    · have hreads : v ∈ b.reads := by
        refine List.mem_append_left _ (List.mem_flatMap.2 ⟨operation, ?_, hv⟩)
        simp [hoperations]
      rw [hmoved.names_eq]
      exact hstill v hreads _ ((hwell.dominated known a ha).operands before operation after
        (hmoved.operations ▸ hoperations) v hv)
    · rw [hmoved.defined_eq]
      refine hstill v (List.mem_append_right _ hv) _ ((hwell.dominated known a ha).uses v ?_)
      rwa [hmoved.terminator.uses_eq fun _ _ he => he.2] at hv

end Compacted

/-! ### Runs of the compacted function -/

section Runs

variable {V σ : Type} [Values V] {truth : Truth V} {execute : Execute V σ}
variable {f g : StagedFunction} {reachable : List ℕ} (hwell : f.WellFormed) (hg : Compacted f reachable g)
variable (hkeeps : f.ForwardingKeeps)

/-- What becomes of an edge. -/
def PassedOver (f : StagedFunction) (reachable : List ℕ) (edge edge' : ℕ × List ℕ) : Prop :=
  newId f reachable (resolve f.forwarding edge.1) = some edge'.1 ∧ edge'.2 = edge.2

omit [Values V] in
/-- The parameters of a block, read at its start. -/
theorem collect_entered {values : Table ValueId V} {block : StagedBlock} {xs : List V}
    (hnodup : block.names.Nodup) (hlength : block.parameters.length = xs.length) :
    collect (readValue (entered values block xs).values) block.names = .ok xs := by
  have hlength : block.names.length = xs.length := by simpa [StagedBlock.names] using hlength
  rw [collect_eq_ok]
  refine List.forall₂_iff_get.2 ⟨hlength, fun i hi hi' => ?_⟩
  have hnodup' : (((block.names.zip xs).reverse).map (·.1)).Nodup := by
    rw [List.map_reverse, List.map_fst_zip (Nat.le_of_eq hlength)]
    exact List.nodup_reverse.2 hnodup
  have hmem : (block.names.get ⟨i, hi⟩, xs.get ⟨i, hi'⟩) ∈ (block.names.zip xs).reverse := by
    rw [List.mem_reverse, List.mem_iff_getElem]
    exact ⟨i, by simp [hi, hi'], by simp⟩
  unfold readValue
  rw [entered, Table.lookup_extend, Table.lookup_of_mem hnodup' hmem]
  rfl

include hwell

/-- **A chain of forwarding blocks is quiet**, and leads with the arguments of its first edge to where it is
resolved. -/
theorem chain_quiet {id target : ℕ} (h : Relation.ReflTransGen f.Onto id target) (s : σ) {p : Place V}
    (hplaced : Placed f p) (hp : p.operations = []) {arguments : List ℕ} (hedge : (id, arguments) ∈ p.terminator.edges)
    {xs : List V} (hxs : collect (readValue p.values) arguments = .ok xs) {last : StagedBlock} (hlast : last ∈ f.blocks)
    (hid : last.id = target) :
    ∃ (p₀ : Place V) (values : Table ValueId V), enter f p.values id arguments = .ok (p₀.state f) ∧
      Quiet execute f s p₀ (entered values last xs) ∧ Placed f (entered values last xs) ∧
      last.parameters.length = xs.length ∧
      ∀ v, ¬Forwarded f v → readValue values v = readValue p.values v := by
  induction h using Relation.ReflTransGen.head_induction_on generalizing p arguments with
  | refl =>
    obtain ⟨block, hfind, hlength, hentered⟩ := hplaced.edge hwell hp hedge hxs
    have hfound : block.id = target := by simpa using List.find?_some hfind
    obtain rfl := block_of_id hwell.ids (List.mem_of_find?_eq_some hfind) hlast (hfound.trans hid.symm)
    exact ⟨_, p.values, enter_of_find hfind hxs hlength, .refl, hentered, hlength, fun _ _ => rfl⟩
  | @head id next hstep _ ih =>
    obtain ⟨block, hfind, hlength, hentered⟩ := hplaced.edge hwell hp hedge hxs
    have hmem := List.mem_of_find?_eq_some hfind
    have hfound : block.id = id := by simpa using List.find?_some hfind
    subst hfound
    obtain ⟨hoperations, ⟨span, hterminator⟩, hnext⟩ := onto_block hwell hmem hstep
    have hnodup : block.names.Nodup := (List.nodup_append.1 ((List.nodup_flatMap.1 hwell.definitions).1 block hmem)).1
    obtain ⟨p₀, values, henter, hquiet, hplaced', hlength', hvalues⟩ :=
      ih hentered hoperations hnext (collect_entered hnodup hlength)
    refine ⟨_, values, enter_of_find hfind hxs hlength, .head ?_ hquiet, hplaced', hlength', fun v hv => ?_⟩
    · have hplace : entered p.values block xs = ⟨p.values.extend (block.names.zip xs), [], block.terminator⟩ := by
        rw [entered, hoperations]
      rw [hplace] at henter ⊢
      refine deed_terminate ?_
      rw [hterminator]
      exact congrArg (· >>= _) henter
    · rw [hvalues v hv, read_entered_of_notMem]
      exact fun hnames => hv ⟨block, hmem, Option.isSome_iff_exists.2 ⟨_, hstep⟩, hnames⟩

include hg hkeeps

/-- **To pass over forwarding blocks is a rewriting** that loses their parameters. -/
theorem Compacted.rewriting : Rewriting f g (Forwarded f) (PassedOver f reachable) := by
  refine ⟨hwell, hg.wellFormed hwell hkeeps, hg.id_eq, ?_, ?_, ?_⟩
  · intro seen b h operation hoperation v hv
    exact hg.not_forwarded hwell hkeeps h (List.mem_append_left _ (List.mem_flatMap.2 ⟨operation, hoperation, hv⟩))
  · intro seen b h v hv hD
    exact absurd hD (hg.not_forwarded hwell hkeeps h (List.mem_append_right _ hv))
  · intro a b hfind hfind'
    obtain ⟨c, hc, _, hmoved⟩ := hg.block (List.mem_of_find?_eq_some hfind')
    have hbid : b.id = g.entryBlock := by simpa using List.find?_some hfind'
    have haid : a.id = f.entryBlock := by simpa using List.find?_some hfind
    have hcid : c.id = f.entryBlock := newId_injective hwell hmoved.id (hbid ▸ hg.entry)
    obtain rfl := block_of_id hwell.ids hc (List.mem_of_find?_eq_some hfind) (hcid.trans haid.symm)
    exact ⟨hmoved.names_eq, hmoved.operations, hmoved.terminator⟩

theorem Compacted.edgesTrack : EdgesTrack truth f g (Forwarded f) (PassedOver f reachable) execute := by
  rintro p q htracks hq edge hedge edge' hedge' ⟨hplace, harguments⟩ s
  have hp : p.operations = [] := htracks.operations ▸ hq
  have hrewriting := Compacted.rewriting hwell hg hkeeps
  -- the block where the chain ends, and its place in the compacted function
  obtain ⟨seen, block, before, harrives, _, hterminator, _⟩ := htracks.placed
  obtain ⟨known, last, hlast, hlid, _⟩ := chain_arrives hwell harrives (resolve_chain edge.1) (hterminator ▸ hedge)
  obtain ⟨b, hb, hbid, hmoved⟩ := hg.block_of_newId hwell hlast.mem (hlid ▸ hplace)
  obtain ⟨xs, hxs'⟩ := collect_of_reads fun v hv =>
    htracks.placed'.uses hrewriting.wellFormed' hq (StagedTerminator.uses_of_edge hedge' hv)
  have hxs : collect (readValue p.values) edge.2 = .ok xs := by
    rw [← harguments, collect_eq_ok]
    have hall := collect_eq_ok.1 hxs'
    refine List.forall₂_iff_get.2 ⟨hall.length_eq, fun i hi hi' => ?_⟩
    exact htracks.agree _ _ (Or.inr ⟨hq, StagedTerminator.uses_of_edge hedge' (List.get_mem _ _)⟩)
      ((List.forall₂_iff_get.1 hall).2 i hi hi')
  obtain ⟨p₀, values, henter, hquiet, hplaced, hlength, hvalues⟩ :=
    chain_quiet hwell (resolve_chain edge.1) s htracks.placed hp hedge hxs hlast.mem hlid
  obtain ⟨henter', hplaced'⟩ := htracks.placed'.enters hrewriting.wellFormed' hq hedge' hxs' hb hbid
  refine ⟨p₀, _, _, henter, hquiet, henter', ?_⟩
  obtain ⟨seen', block', _, harrives', _, hterminator', _⟩ := htracks.placed'
  refine hrewriting.tracks_entered hplaced hplaced' hmoved.operations hmoved.terminator htracks.constants hb
    ⟨_, harrives'.edge (hterminator' ▸ hedge') hb hbid⟩ ?_ ?_
  · intro v x hD hv hx
    rw [read_entered_of_notMem (hmoved.names_eq ▸ hv), hvalues v hD]
    exact htracks.agree v x (Or.inl hD) hx
  · intro v x hv hx
    rwa [← read_entered (by rw [hmoved.names_eq]) hlength (hmoved.names_eq ▸ hv)]

/-- **The compacted function has the same runs.** -/
theorem Compacted.sameRuns : SameRuns f g :=
  (Compacted.rewriting hwell hg hkeeps).sameRuns fun _ _ _ _ _ _ => Compacted.edgesTrack hwell hg hkeeps

end Runs

end Blot.Suspension.Direct
