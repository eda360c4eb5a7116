import Blot.Suspension.Roundtrips
import Mathlib.Algebra.Order.BigOperators.Group.List

/-!
# The folding of Boolean branches ends

Every turn folds a branch or takes a block off the queue.  A fold replaces the join of a branch by the join of that
join, so that a chain of joins that comes to an end is used up.

* `JoinsAscend` — no join of a round trip comes back to itself;
* `Folding.finishes` — the turns of the folding, from start to end.
-/

namespace Blot.Hir

open Blot.Support
open Blot.Suspension (Failure)

section Joins

variable {f : StagedFunction} {block : StagedBlock}

def JoinsBelow (f : StagedFunction) (depth bound : ℕ → ℕ) : Prop :=
  ∀ block ∈ f.blocks, ∀ r : Roundtrip f block, depth r.join.id < bound block.id

/-- **No chain of joins comes back to itself.** -/
def JoinsAscend (f : StagedFunction) : Prop := ∃ depth, JoinsBelow f depth depth

variable (r : Roundtrip f block) (hindexed : f.Indexed) (hwell : f.WellFormed) (hmem : block ∈ f.blocks)

include hindexed hwell hmem

/-- The sides of a later round trip were there before. -/
theorem Roundtrip.side_of_fold {a' : StagedBlock} (r' : Roundtrip r.fold a') (b : Bool) : r'.side b ∈ f.blocks := by
  obtain ⟨a, ha, hside⟩ := (r.mem_fold hindexed).1 (r'.side_mem b)
  obtain ⟨span, hterminator⟩ := r'.side_terminator b
  by_cases he : a.id = block.id
  · obtain rfl := block_of_id hwell.ids ha hmem he
    rw [← hside, r.foldBlock_self] at hterminator
    cases hterminator
  · rwa [← hside, r.foldBlock_of_ne he]

/-- **The round trips after a fold**: of the folded branch, those that its join had; and otherwise those that were
there. -/
theorem Roundtrip.of_fold {a : StagedBlock} (ha : a ∈ f.blocks) (r' : Roundtrip r.fold (r.foldBlock a)) :
    if a.id = block.id then ∃ s : Roundtrip f r.join, s.join.id = r'.join.id
    else ∃ s : Roundtrip f a, s.join.id = r'.join.id := by
  have hside := r.side_of_fold hindexed hwell hmem r'
  -- the join of the later round trip, as it was before the fold
  obtain ⟨join, hjoin, hsame⟩ := (r.mem_fold hindexed).1 r'.join_mem
  have hjid : r'.join.id = join.id := by rw [← hsame, r.foldBlock_id]
  have hnames : join.names = [r'.parameter] := by rw [← r'.join_names, ← hsame, r.foldBlock_names]
  have hoperations : join.operations = [] := by rw [← r'.join_operations, ← hsame, r.foldBlock_operations]
  have hterminator : ∃ (exit : Bool → ℕ × List ℕ) (span : RuntimeSpan), join.terminator =
      .conditional r'.parameter (exit true).1 (exit true).2 (exit false).1 (exit false).2 span := by
    obtain ⟨span, hterminator⟩ := r'.join_terminator
    by_cases he : join.id = block.id
    · obtain rfl := block_of_id hwell.ids hjoin hmem he
      rw [← hsame, r.foldBlock_self, Roundtrip.folded] at hterminator
      injection hterminator with hcondition
      refine ⟨fun b => if b then ((r.side r.first).id, []) else ((r.side !r.first).id, []), r.span, ?_⟩
      rw [r.terminator, hcondition]
      rfl
    · rw [← hsame, r.foldBlock_of_ne he] at hterminator
      exact ⟨r'.exit, span, hterminator⟩
  obtain ⟨exit, span, hterminator⟩ := hterminator
  split
  · next he =>
    obtain rfl := block_of_id hwell.ids ha hmem he
    have hfolded := r.foldBlock_self.symm.trans r'.terminator
    injection hfolded with _ hfirst hfirst' hsecond hsecond' _
    obtain ⟨jspan, hr⟩ := r.join_terminator
    refine ⟨⟨r.parameter, if r.first then r'.first else !r'.first, jspan, r'.side, r'.operation, join, r'.parameter,
      exit, ?_, hside, r'.side_operations, r'.kind, r'.value, fun b => hjid ▸ r'.side_terminator b, hjoin, hnames,
      hoperations, span, hterminator⟩, hjid.symm⟩
    rw [hr]
    cases hb : r.first with
    | true =>
      rw [hb] at hfirst hfirst' hsecond hsecond'
      simp only [Bool.not_true] at hsecond hsecond'
      simp [hfirst, hfirst', hsecond, hsecond']
    | false =>
      rw [hb] at hfirst hfirst' hsecond hsecond'
      simp only [Bool.not_false] at hsecond hsecond'
      simp [hfirst, hfirst', hsecond, hsecond']
  · next he =>
    have hterm := (congrArg StagedBlock.terminator (r.foldBlock_of_ne he)).symm.trans r'.terminator
    exact ⟨⟨r'.condition, r'.first, r'.span, r'.side, r'.operation, join, r'.parameter, exit, hterm, hside,
      r'.side_operations, r'.kind, r'.value, fun b => hjid ▸ r'.side_terminator b, hjoin, hnames, hoperations, span,
      hterminator⟩, hjid.symm⟩

theorem Roundtrip.joinsBelow {depth bound : ℕ → ℕ} (hdepth : JoinsBelow f depth depth) (h : JoinsBelow f depth bound) :
    JoinsBelow r.fold depth (Function.update bound block.id (depth r.join.id)) := by
  intro a' ha' r'
  obtain ⟨a, ha, rfl⟩ := (r.mem_fold hindexed).1 ha'
  have hcases := r.of_fold hindexed hwell hmem ha r'
  rw [r.foldBlock_id]
  split at hcases
  · next he =>
    obtain ⟨s, hs⟩ := hcases
    rw [he, Function.update_self, ← hs]
    exact hdepth r.join r.join_mem s
  · next he =>
    obtain ⟨s, hs⟩ := hcases
    rw [Function.update_of_ne he, ← hs]
    exact h a ha s

theorem Roundtrip.joinsAscend {depth : ℕ → ℕ} (hdepth : JoinsBelow f depth depth) : JoinsBelow r.fold depth depth := by
  intro a' ha' r'
  refine Nat.lt_of_lt_of_le (r.joinsBelow hindexed hwell hmem hdepth hdepth a' ha' r') ?_
  by_cases he : a'.id = block.id
  · rw [he, Function.update_self]
    exact Nat.le_of_lt (hdepth block hmem r)
  · rw [Function.update_of_ne he]

end Joins

/-! ### The turns of the folding -/

/-- A turn that goes on. -/
def Folding.Leads (folding later : Folding) : Prop := folding.step = .ok (.inl later)

/-- **A turn is right**: what it folds, it may fold. -/
def Folding.Keeps (folding : Folding) : Prop :=
  ∀ id pending block, folding.pending = id :: pending → folding.function.blocks[id]? = some block →
    ∀ r : Roundtrip folding.function block, r.Keeps

structure Folding.Known (folding : Folding) : Prop where
  pending : ∀ id ∈ folding.pending, id < folding.function.blocks.length
  predecessors : ∀ target ids, folding.predecessors.lookup target = some ids →
    ∀ id ∈ ids, id < folding.function.blocks.length

section Turns

theorem mem_enqueue {ids : List ℕ} {queue : List ℕ × List ℕ} {id : ℕ} (h : id ∈ (ids.foldl enqueue queue).1) :
    id ∈ queue.1 ∨ id ∈ ids := by
  induction ids generalizing queue with
  | nil => exact Or.inl h
  | cons first ids ih =>
    rcases ih h with hqueue | hids
    · unfold enqueue at hqueue
      split at hqueue
      · exact Or.inl hqueue
      · rcases List.mem_append.1 hqueue with hqueue | hfirst
        · exact Or.inl hqueue
        · exact Or.inr (by simp [List.mem_singleton.1 hfirst])
    · exact Or.inr (List.mem_cons_of_mem _ hids)

/-- The recorded predecessors: those that were known, and the new one. -/
theorem mem_recordPredecessor {targets : List ℕ} {id : ℕ} {predecessors : Table ℕ (List ℕ)} {target : ℕ} {ids : List ℕ}
    (h : (targets.foldl (recordPredecessor id) predecessors).lookup target = some ids) {p : ℕ} (hp : p ∈ ids) :
    p = id ∨ ∃ ids, predecessors.lookup target = some ids ∧ p ∈ ids := by
  induction targets generalizing predecessors with
  | nil => exact Or.inr ⟨ids, h, hp⟩
  | cons first targets ih =>
    rcases ih h with he | ⟨ids', hids', hp'⟩
    · exact Or.inl he
    · rw [recordPredecessor, Table.lookup_insert] at hids'
      split at hids'
      · next he =>
        cases hids'
        rcases List.mem_append.1 hp' with hp' | hp'
        · cases hl : predecessors.lookup first with
          | none => simp [hl] at hp'
          | some known => exact Or.inr ⟨known, he ▸ hl, by simpa [hl] using hp'⟩
        · exact Or.inl (List.mem_singleton.1 hp')
      · exact Or.inr ⟨ids', hids', hp'⟩

theorem Folding.start_known {f : StagedFunction} (hindexed : f.Indexed) : (Folding.start f).Known := by
  refine ⟨fun id hid => ?_, ?_⟩
  · obtain ⟨block, hblock, rfl⟩ := List.mem_map.1 hid
    exact hindexed.lt hblock
  · have hall : ∀ (blocks : List StagedBlock), blocks ⊆ f.blocks → ∀ (predecessors : Table ℕ (List ℕ)),
        (∀ target ids, predecessors.lookup target = some ids → ∀ id ∈ ids, id < f.blocks.length) →
        ∀ target ids, (blocks.foldl (fun predecessors block =>
            block.terminator.targets.foldl (recordPredecessor block.id) predecessors) predecessors).lookup target =
          some ids → ∀ id ∈ ids, id < f.blocks.length := by
      intro blocks
      induction blocks with
      | nil => exact fun _ _ h => h
      | cons block blocks ih =>
        intro hsub predecessors h
        obtain ⟨hblock, hblocks⟩ := List.cons_subset.1 hsub
        refine ih hblocks _ fun target ids hids id hid => ?_
        rcases mem_recordPredecessor hids hid with rfl | ⟨ids', hids', hid'⟩
        · exact hindexed.lt hblock
        · exact h target ids' hids' id hid'
    exact hall f.blocks (fun _ h => h) [] (by simp)

end Turns

end Blot.Hir

namespace Blot.Suspension.Direct

open Blot.Hir Blot.Support

theorem sum_update_lt {n i : ℕ} (hi : i < n) {bound : ℕ → ℕ} {d : ℕ} (hd : d < bound i) :
    ((List.range n).map (Function.update bound i d)).sum < ((List.range n).map bound).sum := by
  refine List.sum_lt_sum _ _ (fun j _ => ?_) ⟨i, List.mem_range.2 hi, by rwa [Function.update_self]⟩
  by_cases hj : j = i
  · rw [hj, Function.update_self]
    exact Nat.le_of_lt hd
  · rw [Function.update_of_ne hj]

/-- **The folding ends**, and its result has the same runs, where every turn is right and no chain of joins comes back
to itself. -/
theorem Folding.finishes (depth : ℕ → ℕ) : ∀ (n : ℕ) (bound : ℕ → ℕ) (pending : List ℕ) (folding : Folding),
    ((List.range folding.function.blocks.length).map bound).sum = n → folding.pending = pending →
    folding.function.WellFormed → folding.function.Indexed → folding.Known →
    JoinsBelow folding.function depth depth → JoinsBelow folding.function depth bound →
    (∀ later, Relation.ReflTransGen Folding.Leads folding later → later.Keeps) →
    ∃ g n, (∀ rounds ≥ n, folding.run rounds = .ok g) ∧ g.WellFormed ∧ g.Indexed ∧ SameRuns folding.function g ∧
      g.blocks.length = folding.function.blocks.length := by
  intro n
  induction n using Nat.strong_induction_on with
  | _ n ih =>
    intro bound pending
    induction pending with
    | nil =>
      intro folding _ hpending hwell hindexed _ _ _ _
      refine ⟨folding.function, 1, fun rounds hrounds => ?_, hwell, hindexed, .refl hwell, rfl⟩
      obtain ⟨rounds, rfl⟩ := Nat.exists_eq_add_one_of_ne_zero (n := rounds) (by omega)
      simp [Folding.run, Folding.step, hpending]
    | cons id pending ihpending =>
      intro folding hsum hpending hwell hindexed hknown hdepth hbound hkeeps
      have hid := hknown.pending id (by simp [hpending])
      have hblock : folding.function.blocks[id]? = some folding.function.blocks[id] := List.getElem?_eq_getElem hid
      generalize folding.function.blocks[id] = block at hblock
      cases hfolded : foldedBooleanTerminator folding.function block with
      | none =>
        let next : Folding := { folding with pending, queued := folding.queued.filter (· ≠ id) }
        have hstep : folding.Leads next := by
          simp [Folding.Leads, Folding.step, hpending, hblock, hfolded, demand, next]
        obtain ⟨g, n, hrun, hg⟩ := ihpending next hsum rfl hwell hindexed
          ⟨fun i hi => hknown.pending i (by simp [hpending, show i ∈ pending from hi]), hknown.predecessors⟩ hdepth
            hbound
          fun later hlater => hkeeps later (.head hstep hlater)
        refine ⟨g, n + 1, fun rounds hrounds => ?_, hg⟩
        obtain ⟨rounds, rfl⟩ := Nat.exists_eq_add_one_of_ne_zero (n := rounds) (by omega)
        have hstep' : folding.step = .ok (.inl next) := hstep
        simp only [Folding.run, hstep', ok_bind]
        exact hrun rounds (by omega)
      | some terminator =>
        obtain ⟨r, rfl⟩ := roundtrip_of_folded hindexed hfolded
        have hmem := List.mem_of_getElem? hblock
        obtain rfl : block.id = id := hindexed.id_eq hblock
        have hturn := hkeeps folding .refl block.id pending block hpending hblock r
        have hne : r.join.id ≠ block.id := Nat.ne_of_lt (hdepth block hmem r) ∘ congrArg depth
        have hlength : r.fold.blocks.length = folding.function.blocks.length := by
          rw [r.fold_blocks hindexed, List.length_map]
        let predecessors := r.folded.targets.foldl (recordPredecessor block.id) folding.predecessors
        let queue := (block.id :: (predecessors.lookup block.id).getD []).foldl enqueue
          (pending, folding.queued.filter (· ≠ block.id))
        let next : Folding := ⟨r.fold, predecessors, queue.1, queue.2⟩
        have hstep : folding.Leads next := by
          simp only [Folding.Leads, Folding.step, hpending, hblock, hfolded, demand, ok_bind]
          rfl
        have hpredecessors : ∀ target ids, predecessors.lookup target = some ids →
            ∀ p ∈ ids, p < folding.function.blocks.length := by
          intro target ids hids p hp
          rcases mem_recordPredecessor hids hp with rfl | ⟨ids', hids', hp'⟩
          · exact hid
          · exact hknown.predecessors target ids' hids' p hp'
        have hknown' : next.Known := by
          refine ⟨fun p hp => ?_, fun target ids hids p hp => ?_⟩
          · show p < r.fold.blocks.length
            rw [hlength]
            rcases mem_enqueue hp with hp | hp
            · exact hknown.pending p (by simp [hpending, show p ∈ pending from hp])
            · rcases List.mem_cons.1 hp with rfl | hp
              · exact hid
              · cases hl : predecessors.lookup block.id with
                | none => simp [hl] at hp
                | some ids => exact hpredecessors block.id ids hl p (by simpa [hl] using hp)
          · show p < r.fold.blocks.length
            rw [hlength]
            exact hpredecessors target ids hids p hp
        have hfalls : ((List.range r.fold.blocks.length).map
            (Function.update bound block.id (depth r.join.id))).sum < n := by
          rw [hlength, ← hsum]
          exact sum_update_lt (hindexed.lt hmem) (hbound block hmem r)
        obtain ⟨g, n, hrun, hg, hgindexed, hsame, hcount⟩ := ih _ hfalls _ _ next rfl rfl
          (r.wellFormed hindexed hwell hmem hturn) (r.fold_indexed hindexed) hknown'
          (r.joinsAscend hindexed hwell hmem hdepth) (r.joinsBelow hindexed hwell hmem hdepth hbound)
          fun later hlater => hkeeps later (.head hstep hlater)
        refine ⟨g, n + 1, fun rounds hrounds => ?_, hg, hgindexed, ?_, hcount.trans hlength⟩
        · obtain ⟨rounds, rfl⟩ := Nat.exists_eq_add_one_of_ne_zero (n := rounds) (by omega)
          have hstep' : folding.step = .ok (.inl next) := hstep
          simp only [Folding.run, hstep', ok_bind]
          exact hrun rounds (by omega)
        · exact (Roundtrip.sameRuns r hindexed hwell hmem hturn hne).trans hsame

/-- **The folding of a function ends.** -/
theorem fold_finishes {f : StagedFunction} (hwell : f.WellFormed) (hindexed : f.Indexed) (hjoins : JoinsAscend f)
    (hkeeps : ∀ later, Relation.ReflTransGen Folding.Leads (Folding.start f) later → later.Keeps) :
    ∃ g n, (∀ rounds ≥ n, foldBooleanBranchRoundtrips rounds f = .ok g) ∧ g.WellFormed ∧ g.Indexed ∧ SameRuns f g ∧
      g.blocks.length = f.blocks.length := by
  obtain ⟨depth, hdepth⟩ := hjoins
  exact Folding.finishes depth _ depth _ (Folding.start f) rfl rfl hwell hindexed (Folding.start_known hindexed) hdepth
    hdepth hkeeps

end Blot.Suspension.Direct
