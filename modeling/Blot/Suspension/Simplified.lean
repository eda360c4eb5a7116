import Blot.Suspension.DeadParameters
import Blot.Suspension.Folding
import Blot.Suspension.Forwarding
import Blot.Suspension.TailRecovery

/-!
# Functions after simplification

The loop of the simplification: rounds of folding, of removal and of compaction, until there is nothing left to pass
over.

* `StagedFunction.RoundKeeps` — what a round asks of the function it is given;
* `simplify_preserves` — where every round has that, the loop ends with a well-formed function that has the same runs;
* `simplify_loses` — a joined Boolean that is read elsewhere is lost.
-/

namespace Blot.Suspension.Direct

open Blot.Hir Blot.Support Blot.Support.Lockstep

variable {f : StagedFunction}

/-- **What a round asks of a function**: no chain of joins comes back to itself, and each of its rewrites may be
made. -/
structure RoundKeeps (f : StagedFunction) : Prop where
  joins : JoinsAscend f
  folds : ∀ later, Relation.ReflTransGen Folding.Leads (Folding.start f) later → later.Keeps
  removal : ∀ rounds folded, foldBooleanBranchRoundtrips rounds f = .ok folded → folded.RemovalKeeps
  forwarding : ∀ rounds folded removed, foldBooleanBranchRoundtrips rounds f = .ok folded →
    removeUnusedBlockParameters rounds folded = .ok removed → removed.ForwardingKeeps

def RoundLeads (f g : StagedFunction) : Prop := ∃ rounds, simplifyRound rounds f = .ok (.inl g)

/-- Blocks are left out where a block forwards, or control does not arrive. -/
theorem kept_lt {reachable : List ℕ} (hindexed : f.Indexed) (hreachable : reachable.Nodup)
    (hsub : ∀ id ∈ reachable, id < f.blocks.length)
    (h : ¬(f.forwarding = [] ∧ reachable.length = f.blocks.length)) :
    (keptBlocks f reachable).length < f.blocks.length := by
  refine List.length_filter_lt_length_iff_exists.2 ?_
  by_contra hall
  have hkept : ∀ block ∈ f.blocks, block.id ∈ reachable ∧ f.forwarding.lookup block.id = none := by
    intro block hblock
    by_contra hnot
    exact hall ⟨block, hblock, by simpa using hnot⟩
  refine h ⟨List.eq_nil_iff_forall_not_mem.2 fun entry hentry => ?_, Nat.le_antisymm ?_ ?_⟩
  · obtain ⟨block, hblock, hforwards⟩ := List.mem_filterMap.1 hentry
    have hid := (forwards_eq_some hforwards).1
    have hnone := List.lookup_eq_none_iff.1 (hkept block hblock).2 entry hentry
    simp [hid] at hnone
  · have hle := (hreachable.subperm fun id hid => List.mem_range.2 (hsub id hid)).length_le
    rwa [List.length_range] at hle
  · have hrange : List.range f.blocks.length ⊆ reachable := by
      intro id hid
      rw [← hindexed] at hid
      obtain ⟨block, hblock, rfl⟩ := List.mem_map.1 hid
      exact (hkept block hblock).1
    have hle := (List.nodup_range.subperm hrange).length_le
    rwa [List.length_range] at hle

theorem compaction_finishes (hwell : f.WellFormed) (hindexed : f.Indexed) (hkeeps : f.ForwardingKeeps) :
    ∃ reachable n, (∀ rounds ≥ n, explore f.successors rounds [resolve f.forwarding f.entryBlock] [] = some reachable) ∧
      reachable.Nodup ∧ (∀ id ∈ reachable, id < f.blocks.length) ∧
      CompactionOk f reachable := by
  obtain ⟨reachable, n, hn⟩ := reachable_finishes hwell hindexed
  have hexplore := hn n (Nat.le_refl n)
  obtain ⟨hentry, hclosed⟩ := reachable_closed hindexed hexplore
  refine ⟨reachable, n, hn, explore_nodup .nil hexplore, fun id hid => ?_, compaction_ok hwell hentry ?_⟩
  · obtain ⟨seen, block, harrives, rfl, _⟩ := reachable_arrives hwell hindexed hkeeps hexplore hid
    exact hindexed.lt harrives.mem
  · intro a ha edge hedge
    obtain ⟨hmem, hid, _⟩ := mem_keptBlocks.1 ha
    have hreach := hclosed a hmem hid edge hedge
    obtain ⟨_, _, _, _, hnone⟩ := reachable_arrives hwell hindexed hkeeps hexplore hreach
    exact ⟨hreach, hnone⟩

/-- **A round** leads to a smaller function, or is the last one. -/
theorem round_finishes (hwell : f.WellFormed) (hindexed : f.Indexed) (hkeeps : RoundKeeps f) :
    ∃ g n, g.WellFormed ∧ g.Indexed ∧ SameRuns f g ∧
      ((∀ rounds ≥ n, simplifyRound rounds f = .ok (.inr g)) ∨
        g.blocks.length < f.blocks.length ∧ ∀ rounds ≥ n, simplifyRound rounds f = .ok (.inl g)) := by
  obtain ⟨folded, n₁, hfold, hwell₁, hindexed₁, hsame₁, hcount₁⟩ :=
    fold_finishes hwell hindexed hkeeps.joins hkeeps.folds
  obtain ⟨removed, n₂, hremove, hwell₂, hindexed₂, hsame₂, hcount₂⟩ :=
    removal_finishes hwell₁ hindexed₁ (hkeeps.removal n₁ folded (hfold n₁ (Nat.le_refl n₁)))
  have hforwarding : removed.ForwardingKeeps := hkeeps.forwarding (max n₁ n₂) folded removed
    (hfold _ (Nat.le_max_left ..)) (hremove _ (Nat.le_max_right ..))
  obtain ⟨reachable, n₃, hexplore, hnodup, hsub, blocks, entryBlock, hblocks, hentry, hcompacted⟩ :=
    compaction_finishes hwell₂ hindexed₂ hforwarding
  let n := max n₁ (max n₂ n₃)
  have hround : ∀ rounds ≥ n, simplifyRound rounds f =
      if removed.forwarding = [] ∧ reachable.length = removed.blocks.length then .ok (.inr removed)
      else .ok (.inl { removed with blocks, entryBlock }) := by
    intro rounds hrounds
    have hall : (reachable.all (· < removed.blocks.length)) = true := by simpa using hsub
    simp only [simplifyRound, hfold rounds (by omega), hremove rounds (by omega), hexplore rounds (by omega), ok_bind,
      demand, require, hall, if_true]
    split
    · rfl
    · let last (blocks : List StagedBlock) (entryBlock : ℕ) : Except Failure (StagedFunction ⊕ StagedFunction) :=
        pure (.inl { removed with blocks, entryBlock })
      let rest (blocks : List StagedBlock) : Except Failure (StagedFunction ⊕ StagedFunction) :=
        demand (newId removed reachable removed.entryBlock) .panicked >>= last blocks
      exact (congrArg (· >>= rest) hblocks).trans (congrArg (· >>= last blocks) hentry)
  by_cases hlast : removed.forwarding = [] ∧ reachable.length = removed.blocks.length
  · refine ⟨removed, n, hwell₂, hindexed₂, hsame₁.trans hsame₂, Or.inl fun rounds hrounds => ?_⟩
    rw [hround rounds hrounds, if_pos hlast]
  · refine ⟨{ removed with blocks, entryBlock }, n, hcompacted.wellFormed hwell₂ hforwarding, hcompacted.indexed hwell₂,
      (hsame₁.trans hsame₂).trans (Compacted.sameRuns hwell₂ hcompacted hforwarding),
      Or.inr ⟨?_, fun rounds hrounds => ?_⟩⟩
    · rw [← hcompacted.blocks.length_eq, ← hcount₁, ← hcount₂]
      exact kept_lt hindexed₂ hnodup hsub hlast
    · rw [hround rounds hrounds, if_neg hlast]

/-- **Simplification preserves behaviour where every round may be made**: the loop ends, with a well-formed function
whose ids are its places, and which has the same runs. -/
theorem simplify_preserves (hwell : f.WellFormed) (hindexed : f.Indexed)
    (hkeeps : ∀ later, Relation.ReflTransGen RoundLeads f later → RoundKeeps later) :
    ∃ g, (∃ n, ∀ rounds ≥ n, simplifyLoop rounds rounds f = .ok g) ∧ g.WellFormed ∧ g.Indexed ∧ SameRuns f g := by
  have hloop : ∀ (count : ℕ) (f : StagedFunction), f.blocks.length = count → f.WellFormed → f.Indexed →
      (∀ later, Relation.ReflTransGen RoundLeads f later → RoundKeeps later) →
      ∃ g, (∃ n, ∀ rounds ≥ n, ∀ bound ≥ n, simplifyLoop rounds bound f = .ok g) ∧ g.WellFormed ∧ g.Indexed ∧
        SameRuns f g := by
    intro count
    induction count using Nat.strong_induction_on with
    | _ count ih =>
      intro f hcount hwell hindexed hkeeps
      obtain ⟨g, n, hgwell, hgindexed, hsame, hround⟩ := round_finishes hwell hindexed (hkeeps f .refl)
      rcases hround with hround | ⟨hless, hround⟩
      · refine ⟨g, ⟨n + 1, fun rounds hrounds bound hbound => ?_⟩, hgwell, hgindexed, hsame⟩
        obtain ⟨bound, rfl⟩ := Nat.exists_eq_add_one_of_ne_zero (n := bound) (by omega)
        simp only [simplifyLoop, hround rounds (by omega), ok_bind]
        rfl
      · have hlead : RoundLeads f g := ⟨n, hround n (Nat.le_refl n)⟩
        obtain ⟨k, ⟨m, hm⟩, hkwell, hkindexed, hsame'⟩ := ih g.blocks.length (hcount ▸ hless) g rfl hgwell hgindexed
          fun later hlater => hkeeps later (.head hlead hlater)
        refine ⟨k, ⟨max n m + 1, fun rounds hrounds bound hbound => ?_⟩, hkwell, hkindexed, hsame.trans hsame'⟩
        obtain ⟨bound, rfl⟩ := Nat.exists_eq_add_one_of_ne_zero (n := bound) (by omega)
        simp only [simplifyLoop, hround rounds (by omega), ok_bind]
        exact hm rounds (by omega) bound (by omega)
  obtain ⟨g, ⟨n, hn⟩, hg⟩ := hloop _ f rfl hwell hindexed hkeeps
  exact ⟨g, ⟨n, fun rounds hrounds => hn rounds hrounds rounds hrounds⟩, hg⟩

/-! ### More rounds make no difference -/

theorem explore_unique {A : Type} [DecidableEq A] {next : A → List A} {rounds rounds' : ℕ}
    {stack seen result result' : List A}
    (h : explore next rounds stack seen = some result) (h' : explore next rounds' stack seen = some result') :
    result = result' := by
  have hmax := explore_mono (Nat.le_max_left rounds rounds') h
  rw [explore_mono (Nat.le_max_right rounds rounds') h'] at hmax
  exact (Option.some.inj hmax).symm

theorem run_unique {folding : Folding} {g g' : StagedFunction} {rounds rounds' : ℕ} (h : folding.run rounds = .ok g)
    (h' : folding.run rounds' = .ok g') : g = g' := by
  induction rounds generalizing folding rounds' with
  | zero => cases h
  | succ rounds ih =>
    cases rounds' with
    | zero => cases h'
    | succ rounds' =>
      simp only [Folding.run, bind_eq_ok] at h h'
      obtain ⟨turn, hturn, h⟩ := h
      obtain ⟨turn', hturn', h'⟩ := h'
      cases hturn.symm.trans hturn'
      cases turn with
      | inl later => exact ih h h'
      | inr last =>
        cases h
        cases h'
        rfl

theorem removal_unique {g g' : StagedFunction} {rounds rounds' : ℕ} (h : removeUnusedBlockParameters rounds f = .ok g)
    (h' : removeUnusedBlockParameters rounds' f = .ok g') : g = g' := by
  simp only [removeUnusedBlockParameters, bind_eq_ok, demand_eq_ok] at h h'
  obtain ⟨incoming, hincoming, live, hlive, h⟩ := h
  obtain ⟨incoming', hincoming', live', hlive', h'⟩ := h'
  cases hincoming.symm.trans hincoming'
  cases explore_unique hlive hlive'
  exact Except.ok.inj (h.symm.trans h')

theorem round_unique {g g' : StagedFunction ⊕ StagedFunction} {rounds rounds' : ℕ} (h : simplifyRound rounds f = .ok g)
    (h' : simplifyRound rounds' f = .ok g') : g = g' := by
  simp only [simplifyRound, bind_eq_ok, demand_eq_ok] at h h'
  obtain ⟨folded, hfolded, removed, hremoved, reachable, hreachable, _, _, h⟩ := h
  obtain ⟨folded', hfolded', removed', hremoved', reachable', hreachable', _, _, h'⟩ := h'
  cases run_unique hfolded hfolded'
  cases removal_unique hremoved hremoved'
  cases explore_unique hreachable hreachable'
  exact Except.ok.inj (h.symm.trans h')

/-! ### What a round asks, checked -/

/-- The parameter of a block that only branches on it is read nowhere else. -/
def Apart (f : StagedFunction) : Prop :=
  ∀ a ∈ f.blocks, a.operations = [] → ∀ p ∈ a.names, a.names = [p] →
    (∀ b ∈ f.blocks, p ∈ b.reads → b = a) ∧ ∀ edge ∈ a.terminator.edges, p ∉ edge.2

theorem keeps_of_apart (hindexed : f.Indexed) (hapart : Apart f) {block : StagedBlock} (hmem : block ∈ f.blocks)
    (r : Roundtrip f block) : r.Keeps := by
  intro _ seen b h hread
  obtain ⟨a, ha, rfl⟩ := (r.mem_fold hindexed).1 h.mem
  obtain ⟨hreads, hsends⟩ := hapart r.join r.join_mem r.join_operations r.parameter (by simp [r.join_names])
    r.join_names
  rw [r.foldBlock_names]
  have hown : r.parameter ∈ a.reads → r.parameter ∈ a.names := by
    intro hread
    rw [hreads a ha hread, r.join_names]
    exact List.mem_singleton.2 rfl
  by_cases he : a.id = block.id
  · have hids : (f.blocks.map (·.id)).Nodup := by
      rw [hindexed]
      exact List.nodup_range
    obtain rfl := block_of_id hids ha hmem he
    rcases List.mem_append.1 hread with hoperand | huse
    · exact hown (List.mem_append_left _ (by simpa using hoperand))
    · rw [r.foldBlock_self] at huse
      simp only [Roundtrip.folded, StagedTerminator.uses, List.mem_cons, List.mem_append] at huse
      rcases huse with hcondition | hsent | hsent
      · refine hown (List.mem_append_right _ ?_)
        simp [r.terminator, StagedTerminator.uses, hcondition]
      · exact absurd hsent (hsends _ (r.exit_mem _))
      · exact absurd hsent (hsends _ (r.exit_mem _))
  · rw [r.foldBlock_of_ne he] at hread
    exact hown hread

/-- The functions that a folding comes to. -/
theorem function_of_leads {functions : List StagedFunction}
    (hclosed : ∀ g ∈ functions, g.Indexed ∧ ∀ block ∈ g.blocks, ∀ t ∈ foldedBooleanTerminator g block,
      g.setTerminator block.id t ∈ functions)
    {folding later : Folding} (hfunction : folding.function ∈ functions)
    (h : Relation.ReflTransGen Folding.Leads folding later) : later.function ∈ functions := by
  induction h with
  | refl => exact hfunction
  | @tail middle later _ hstep ih =>
    obtain ⟨hindexed, hfolds⟩ := hclosed middle.function ih
    simp only [Folding.Leads, Folding.step] at hstep
    split at hstep
    · cases hstep
    · simp only [bind_eq_ok, demand_eq_ok] at hstep
      obtain ⟨block, hblock, hstep⟩ := hstep
      split at hstep
      · cases hstep
        exact ih
      · next terminator hfolded =>
        cases hstep
        have hlater := hfolds block (List.mem_of_getElem? hblock) terminator hfolded
        rwa [hindexed.id_eq hblock] at hlater

/-- **A round whose rewrites may all be made**, checked on the functions that it comes to. -/
theorem roundKeeps_of_check (functions : List StagedFunction) (folded removed : StagedFunction) (rounds : ℕ)
    (depth : ℕ → ℕ) (hf : f ∈ functions)
    (hclosed : ∀ g ∈ functions, g.Indexed ∧ ∀ block ∈ g.blocks, ∀ t ∈ foldedBooleanTerminator g block,
      g.setTerminator block.id t ∈ functions)
    (hapart : ∀ g ∈ functions, Apart g)
    (hdepth : ∀ block ∈ f.blocks, ∀ e ∈ block.terminator.edges, ∀ join ∈ branchBoolean f e.1,
      depth join.2 < depth block.id)
    (hfold : foldBooleanBranchRoundtrips rounds f = .ok folded)
    (hremove : removeUnusedBlockParameters rounds folded = .ok removed)
    (hentry : ∀ block ∈ folded.blocks, ∀ e ∈ block.terminator.edges, e.1 ≠ folded.entryBlock)
    (hforwarding : removed.forwarding = []) : RoundKeeps f := by
  have hindexed := (hclosed f hf).1
  refine ⟨⟨depth, fun block hblock r => ?_⟩, fun later hlater => ?_, ?_, ?_⟩
  · refine hdepth block hblock _ (r.side_edge true) (true, r.join.id) ?_
    obtain ⟨span, hside⟩ := r.side_terminator true
    simp [branchBoolean, hindexed.get (r.side_mem true), r.side_operations, hside, r.kind, r.value]
  · intro id pending block _ hblock r
    have hlater := @function_of_leads functions hclosed (Folding.start f) later hf hlater
    exact keeps_of_apart (hclosed _ hlater).1 (hapart _ hlater) (List.mem_of_getElem? hblock) r
  · intro rounds' folded' hfold' seen block harrives edge hedge he
    cases run_unique hfold hfold'
    exact absurd he (hentry block harrives.mem edge hedge)
  · intro rounds' folded' removed' hfold' hremove'
    cases run_unique hfold hfold'
    cases removal_unique hremove hremove'
    refine ⟨fun _ _ _ _ _ _ other _ hsome => ?_, fun _ _ _ _ _ => ?_⟩
    · simp [hforwarding] at hsome
    · simp [hforwarding]

/-! ### A function that is simplified, and one that is not -/

/-- Branches on a Boolean twice, and returns the second parameter or fails. -/
def decided : StagedFunction where
  id := 0
  name := "decided"
  signature := 0
  reuse := none
  entryBlock := 0
  span := ⟨"decided.blot", 0, 1⟩
  blocks := [
    { id := 0, parameters := [⟨0, 0, "plain", ⟨"decided.blot", 0, 1⟩⟩, ⟨1, 0, "plain", ⟨"decided.blot", 0, 1⟩⟩],
      operations := [], terminator := .conditional 0 1 [] 2 [] ⟨"decided.blot", 0, 1⟩ },
    { id := 1, parameters := [],
      operations := [
        { kind := "constant", result := 2, typeId := 0, operands := [], ownership := "plain",
          span := ⟨"decided.blot", 0, 1⟩, value := some (.boolean true) }],
      terminator := .branch 3 [2] ⟨"decided.blot", 0, 1⟩ },
    { id := 2, parameters := [],
      operations := [
        { kind := "constant", result := 3, typeId := 0, operands := [], ownership := "plain",
          span := ⟨"decided.blot", 0, 1⟩, value := some (.boolean false) }],
      terminator := .branch 3 [3] ⟨"decided.blot", 0, 1⟩ },
    { id := 3, parameters := [⟨4, 0, "plain", ⟨"decided.blot", 0, 1⟩⟩], operations := [],
      terminator := .conditional 4 4 [] 5 [] ⟨"decided.blot", 0, 1⟩ },
    { id := 4, parameters := [], operations := [], terminator := .return 1 ⟨"decided.blot", 0, 1⟩ },
    { id := 5, parameters := [], operations := [], terminator := .trap "undecided" ⟨"decided.blot", 0, 1⟩ }]

instance : DecidablePred StagedFunction.Indexed := fun _ => inferInstanceAs (Decidable (_ = _))

instance : DecidablePred Apart := fun f => by
  unfold Apart
  infer_instance

def decidedOnce : StagedFunction :=
  { decided with
    blocks := decided.blocks.filterMap fun block =>
      if block.id = 0 then some { block with terminator := .conditional 0 1 [] 2 [] ⟨"decided.blot", 0, 1⟩ }
      else if block.id = 4 then some { block with id := 1 }
      else if block.id = 5 then some { block with id := 2 }
      else none }

theorem decided_wellFormed : decided.WellFormed := by
  refine ⟨by decide, by decide, by decide, by decide, fun seen block h => ?_⟩
  exact dominated_of_scope (fun id => if id = 0 then [] else if id = 4 ∨ id = 5 then [0, 1, 4] else [0, 1]) (by decide)
    (by decide) (by decide) h

def decidedFolded : StagedFunction := decided.setTerminator 0 (.conditional 0 4 [] 5 [] ⟨"decided.blot", 0, 1⟩)

theorem decided_roundKeeps : RoundKeeps decided :=
  roundKeeps_of_check [decided, decidedFolded] decidedFolded decidedFolded 9 (fun id => if id = 3 then 0 else 1)
    (by simp) (by decide) (by decide) (by decide) (by decide) (by decide)
    (by decide) (by decide)

theorem decidedOnce_roundKeeps : RoundKeeps decidedOnce :=
  roundKeeps_of_check [decidedOnce] decidedOnce decidedOnce 9 (fun _ => 0) (by simp) (by decide) (by decide) (by decide)
    (by decide) (by decide) (by decide) (by decide)

theorem decided_keeps {later : StagedFunction} (h : Relation.ReflTransGen RoundLeads decided later) :
    RoundKeeps later := by
  have hfirst : ∀ g, RoundLeads decided g → g = decidedOnce := by
    rintro g ⟨rounds, hg⟩
    exact Sum.inl.inj (round_unique hg (show simplifyRound 9 decided = .ok (.inl decidedOnce) by decide))
  have hlast : ∀ g, ¬RoundLeads decidedOnce g := by
    rintro g ⟨rounds, hg⟩
    cases round_unique hg (show simplifyRound 9 decidedOnce = .ok (.inr decidedOnce) by decide)
  rcases Relation.ReflTransGen.cases_head h with rfl | ⟨g, hg, hrest⟩
  · exact decided_roundKeeps
  · cases hfirst g hg
    rcases Relation.ReflTransGen.cases_head hrest with rfl | ⟨k, hk, _⟩
    · exact decidedOnce_roundKeeps
    · exact absurd hk (hlast k)

theorem simplify_preserves_decided :
    ∃ g, (∃ n, ∀ rounds ≥ n, simplifyLoop rounds rounds decided = .ok g) ∧ g.WellFormed ∧ g.Indexed ∧
      SameRuns decided g :=
  simplify_preserves decided_wellFormed (by decide) fun _ h => decided_keeps h

def joined : StagedFunction :=
  { decided with
    name := "joined"
    blocks := decided.blocks.map fun block =>
      if block.id = 4 then { block with terminator := .return 4 ⟨"joined.blot", 0, 1⟩ } else block }

def joinedOnce : StagedFunction :=
  { joined with
    blocks := joined.blocks.filterMap fun block =>
      if block.id = 0 then some { block with terminator := .conditional 0 1 [] 2 [] ⟨"decided.blot", 0, 1⟩ }
      else if block.id = 4 then some { block with id := 1 }
      else if block.id = 5 then some { block with id := 2 }
      else none }

theorem joined_wellFormed : joined.WellFormed := by
  refine ⟨by decide, by decide, by decide, by decide, fun seen block h => ?_⟩
  exact dominated_of_scope (fun id => if id = 0 then [] else if id = 4 ∨ id = 5 then [0, 1, 4] else [0, 1]) (by decide)
    (by decide) (by decide) h

/-- **A joined Boolean that is read elsewhere is lost**: the simplified function reads it where nothing defines it, and
does not return. -/
theorem simplify_loses :
    joined.WellFormed ∧ joined.Indexed ∧ simplifyLoop 9 9 joined = .ok joinedOnce ∧ ¬joinedOnce.WellFormed ∧
    ∃ state state', call (moduleOf joined) 0 [WireConstant.boolean true, .boolean true] = .ok (.ok state) ∧
      call ((moduleOf joined).replace joinedOnce) 0 [WireConstant.boolean true, .boolean true] = .ok (.ok state') ∧
      Ends (party (moduleOf joined) constants).next ⟨⟨state, []⟩, (), [], []⟩ ([.returned (.boolean true)], .finished) ∧
      ¬Ends (party ((moduleOf joined).replace joinedOnce) constants).next ⟨⟨state', []⟩, (), [], []⟩
        ([.returned (.boolean true)], .finished) := by
  refine ⟨joined_wellFormed, by decide, by decide, fun h => ?_, _, _, rfl, rfl, ⟨20, by decide⟩, fun h => ?_⟩
  · have harrives : joinedOnce.Arrives _ joinedOnce.blocks[1] :=
      .edge (.entry (show joinedOnce.blocks[0] ∈ _ by decide) (by decide))
        (show (1, []) ∈ joinedOnce.blocks[0].terminator.edges by decide) (by decide) (by decide)
    have huse := (h.dominated _ _ harrives).uses 4 (by decide)
    exact absurd huse (by decide)
  · have hstuck := ends_unique h (⟨20, by decide⟩ : Ends _ _ ([], .stuck))
    exact absurd hstuck (by decide)

end Blot.Suspension.Direct
