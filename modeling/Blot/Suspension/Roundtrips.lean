import Blot.Hir.Simplify
import Blot.Suspension.Rewrite

/-!
# Boolean branches that are joined and branched on again

A block branches on a Boolean, both sides send a constant to a join, and the join branches on what it was sent.  The
folding branches on the first Boolean at once.

* `Roundtrip` — such a block, with its sides and its join;
* `Roundtrip.wellFormed`, `Roundtrip.sameRuns` — the fold is right where the joined Boolean is not read elsewhere.
-/

namespace Blot.Hir

open Blot.Support

/-- **A Boolean branch that is joined and branched on again.**  The sides are named by the constants that they send. -/
structure Roundtrip (f : StagedFunction) (block : StagedBlock) where
  condition : ℕ
  first : Bool
  span : RuntimeSpan
  side : Bool → StagedBlock
  operation : Bool → StagedOperation
  join : StagedBlock
  parameter : ℕ
  exit : Bool → ℕ × List ℕ
  terminator : block.terminator = .conditional condition (side first).id [] (side !first).id [] span
  side_mem : ∀ b, side b ∈ f.blocks
  side_operations : ∀ b, (side b).operations = [operation b]
  kind : ∀ b, (operation b).kind = "constant"
  value : ∀ b, (operation b).value = some (.boolean b)
  side_terminator : ∀ b, ∃ span, (side b).terminator = .branch join.id [(operation b).result] span
  join_mem : join ∈ f.blocks
  join_names : join.names = [parameter]
  join_operations : join.operations = []
  join_terminator : ∃ span,
    join.terminator = .conditional parameter (exit true).1 (exit true).2 (exit false).1 (exit false).2 span

def Roundtrip.folded {f : StagedFunction} {block : StagedBlock} (r : Roundtrip f block) : StagedTerminator :=
  .conditional r.condition (r.exit r.first).1 (r.exit r.first).2 (r.exit !r.first).1 (r.exit !r.first).2 r.span

theorem branchBoolean_eq_some {f : StagedFunction} (hindexed : f.Indexed) {id join : ℕ} {b : Bool}
    (h : branchBoolean f id = some (b, join)) :
    ∃ side ∈ f.blocks, ∃ operation span, side.id = id ∧ side.operations = [operation] ∧ operation.kind = "constant" ∧
      operation.value = some (.boolean b) ∧ side.terminator = .branch join [operation.result] span := by
  simp only [branchBoolean, Option.bind_eq_bind, Option.bind_eq_some_iff] at h
  obtain ⟨side, hside, h⟩ := h
  split at h
  · next operation target arguments span hoperations hterminator =>
    split at h
    · next value hkind hvalue =>
      split at h
      · next harguments =>
        cases h
        subst harguments
        exact ⟨side, List.mem_of_getElem? hside, operation, span, hindexed.id_eq hside, hoperations, hkind, hvalue,
          hterminator⟩
      · cases h
    · cases h
  · cases h

/-- **What is folded is a round trip.** -/
theorem roundtrip_of_folded {f : StagedFunction} (hindexed : f.Indexed) {block : StagedBlock} {t : StagedTerminator}
    (h : foldedBooleanTerminator f block = some t) : ∃ r : Roundtrip f block, r.folded = t := by
  unfold foldedBooleanTerminator at h
  split at h
  · next condition consequent alternate span hterminator =>
    simp only [Option.bind_eq_bind, Option.bind_eq_some_iff] at h
    obtain ⟨⟨b, j⟩, hfirst, ⟨b', j'⟩, hsecond, h⟩ := h
    split at h
    · cases h
    · next hsame =>
      simp only [ne_eq, not_or, not_not] at hsame
      obtain ⟨rfl, hne⟩ := hsame
      obtain rfl : b' = !b := by
        cases b <;> cases b' <;> simp_all
      simp only [Option.bind_eq_some_iff] at h
      obtain ⟨join, hjoin, h⟩ := h
      obtain ⟨side, hside, operation, sspan, hid, hoperations, hkind, hvalue, hside'⟩ :=
        branchBoolean_eq_some hindexed hfirst
      obtain ⟨other, hother, operation', ospan, hid', hoperations', hkind', hvalue', hother'⟩ :=
        branchBoolean_eq_some hindexed hsecond
      cases hindexed.id_eq hjoin
      split at h
      · next parameter jcondition jconsequent jcs jalternate jas jspan hparameters hjoperations hjterminator =>
        split at h
        · cases h
        · next hcondition =>
          simp only [ne_eq, not_not] at hcondition
          subst hcondition
          have hnot : (!b) ≠ b := by simp
          refine ⟨⟨condition, b, span, fun v => if v = b then side else other,
            fun v => if v = b then operation else operation', join, parameter.value,
            fun v => if v then (jconsequent, jcs) else (jalternate, jas), ?_, ?_, ?_, ?_, ?_, ?_,
            List.mem_of_getElem? hjoin, ?_, hjoperations, ⟨jspan, hjterminator⟩⟩, ?_⟩
          · rw [if_pos rfl, if_neg hnot, hid, hid']
            exact hterminator
          · exact (Bool.forall_bool' b).2 ⟨by rwa [if_pos rfl], by rwa [if_neg hnot]⟩
          · refine (Bool.forall_bool' b).2 ⟨?_, ?_⟩
            · rwa [if_pos rfl, if_pos rfl]
            · rwa [if_neg hnot, if_neg hnot]
          · exact (Bool.forall_bool' b).2 ⟨by rwa [if_pos rfl], by rwa [if_neg hnot]⟩
          · exact (Bool.forall_bool' b).2 ⟨by rwa [if_pos rfl], by rwa [if_neg hnot]⟩
          · refine (Bool.forall_bool' b).2 ⟨⟨sspan, ?_⟩, ⟨ospan, ?_⟩⟩
            · rwa [if_pos rfl, if_pos rfl]
            · rwa [if_neg hnot, if_neg hnot]
          · simp [StagedBlock.names, hparameters]
          · cases b
            · cases h
              rfl
            · cases h
              rfl
      · cases h
  · cases h

/-! ### A fold -/

section Fold

variable {f : StagedFunction} {block : StagedBlock}

/-- The function with the folded branch. -/
def Roundtrip.fold (r : Roundtrip f block) : StagedFunction := f.setTerminator block.id r.folded

def Roundtrip.foldBlock (r : Roundtrip f block) (a : StagedBlock) : StagedBlock :=
  if a.id = block.id then { a with terminator := r.folded } else a

/-- Control arrives at the folded branch. -/
def Roundtrip.Reached (r : Roundtrip f block) : Prop := ∃ known, r.fold.Arrives known (r.foldBlock block)

/-- **The joined Boolean is not read elsewhere**: where control arrives at the folded branch, only the block whose
parameter it is reads it. -/
def Roundtrip.Keeps (r : Roundtrip f block) : Prop :=
  r.Reached → ∀ seen b, r.fold.Arrives seen b → r.parameter ∈ b.reads → r.parameter ∈ b.names

def Roundtrip.Leads (r : Roundtrip f block) (edge edge' : ℕ × List ℕ) : Prop :=
  edge = edge' ∨ r.Reached ∧ ∃ b, edge = ((r.side b).id, []) ∧ edge' = r.exit b

variable (r : Roundtrip f block)

@[simp] theorem Roundtrip.foldBlock_id (a : StagedBlock) : (r.foldBlock a).id = a.id := by
  unfold Roundtrip.foldBlock
  split <;> rfl

@[simp] theorem Roundtrip.foldBlock_parameters (a : StagedBlock) : (r.foldBlock a).parameters = a.parameters := by
  unfold Roundtrip.foldBlock
  split <;> rfl

@[simp] theorem Roundtrip.foldBlock_operations (a : StagedBlock) : (r.foldBlock a).operations = a.operations := by
  unfold Roundtrip.foldBlock
  split <;> rfl

@[simp] theorem Roundtrip.foldBlock_names (a : StagedBlock) : (r.foldBlock a).names = a.names := by
  simp [StagedBlock.names]

@[simp] theorem Roundtrip.foldBlock_defined (a : StagedBlock) : (r.foldBlock a).defined = a.defined := by
  simp [StagedBlock.defined]

theorem Roundtrip.foldBlock_self : (r.foldBlock block).terminator = r.folded := by
  simp [Roundtrip.foldBlock]

theorem Roundtrip.foldBlock_of_ne {a : StagedBlock} (h : a.id ≠ block.id) : r.foldBlock a = a := if_neg h

/-- An exit is an edge of the join. -/
theorem Roundtrip.exit_mem (b : Bool) : r.exit b ∈ r.join.terminator.edges := by
  obtain ⟨span, h⟩ := r.join_terminator
  cases b <;> simp [h, StagedTerminator.edges]

theorem Roundtrip.mem_folded {edge : ℕ × List ℕ} (h : edge ∈ r.folded.edges) : ∃ b, edge = r.exit b := by
  simp only [Roundtrip.folded, StagedTerminator.edges, List.mem_cons, List.not_mem_nil, or_false] at h
  rcases h with rfl | rfl
  · exact ⟨_, rfl⟩
  · exact ⟨_, rfl⟩

theorem Roundtrip.side_edge (b : Bool) : ((r.side b).id, []) ∈ block.terminator.edges := by
  rw [r.terminator]
  rcases Bool.eq_or_eq_not b r.first with rfl | rfl <;> simp [StagedTerminator.edges]

theorem Roundtrip.join_edge (b : Bool) : (r.join.id, [(r.operation b).result]) ∈ (r.side b).terminator.edges := by
  obtain ⟨span, h⟩ := r.side_terminator b
  simp [h, StagedTerminator.edges]

variable (hindexed : f.Indexed)

include hindexed

theorem Roundtrip.fold_blocks : r.fold.blocks = f.blocks.map r.foldBlock := hindexed.modify block.id _

theorem Roundtrip.mem_fold {b : StagedBlock} : b ∈ r.fold.blocks ↔ ∃ a ∈ f.blocks, r.foldBlock a = b := by
  rw [r.fold_blocks hindexed, List.mem_map]

theorem Roundtrip.fold_indexed : r.fold.Indexed := by
  show r.fold.blocks.map _ = List.range r.fold.blocks.length
  rw [r.fold_blocks hindexed, List.map_map, List.length_map]
  exact (List.map_congr_left fun a _ => r.foldBlock_id a).trans hindexed

variable (hwell : f.WellFormed) (hmem : block ∈ f.blocks)

include hwell

omit hindexed in
theorem Roundtrip.result_injective {b b' : Bool} (h : (r.operation b).result = (r.operation b').result) : b = b' := by
  have hoperation (b : Bool) : r.operation b ∈ (r.side b).operations := by simp [r.side_operations]
  have hsame := operation_of_result hwell.definitions (r.side_mem b) (r.side_mem b') (hoperation b) (hoperation b') h
  have hvalue := r.value b
  rw [hsame, r.value b'] at hvalue
  simpa using hvalue.symm

include hmem

omit hindexed in
theorem Roundtrip.side_ne (b : Bool) : (r.side b).id ≠ block.id := by
  intro h
  obtain ⟨span, hside⟩ := r.side_terminator b
  rw [block_of_id hwell.ids (r.side_mem b) hmem h, r.terminator] at hside
  cases hside

omit hindexed in
theorem Roundtrip.side_parameters (b : Bool) : (r.side b).parameters = [] := by
  obtain ⟨successor, hsuccessor, hid, hlength⟩ := hwell.edges block hmem _ (r.side_edge b)
  obtain rfl := block_of_id hwell.ids hsuccessor (r.side_mem b) hid
  simpa using hlength

omit hindexed in
/-- What is defined past the join, by one side. -/
theorem Roundtrip.defined_past {b : Bool} {known : List ℕ} {v : ℕ}
    (hv : v ∈ r.join.defined ++ ((r.side b).defined ++ (block.defined ++ known))) :
    v ∈ block.defined ++ known ∨ v = (r.operation b).result ∨ v = r.parameter := by
  have hnames : (r.side b).names = [] := by simp [StagedBlock.names, r.side_parameters hwell hmem]
  simp only [StagedBlock.defined, r.join_names, r.join_operations, hnames, r.side_operations, List.map_nil,
    List.map_cons, List.append_nil, List.nil_append, List.mem_append, List.mem_singleton] at hv ⊢
  rcases hv with hv | hv | hv | hv
  · exact .inr (.inr hv)
  · exact .inr (.inl hv)
  · exact .inl (.inl hv)
  · exact .inl (.inr hv)

/-- **Every way past a folded branch is a way through the join**, by either side. -/
theorem Roundtrip.lift (b : Bool) {seen : List ℕ} {a' : StagedBlock} (h : r.fold.Arrives seen a') :
    ∃ a known, f.Arrives known a ∧ r.foldBlock a = a' ∧ ∀ v ∈ known, v ∈ seen ∨
      r.Reached ∧ (v = (r.operation b).result ∨ v = r.parameter) := by
  refine StagedFunction.Arrives.lift (fun a a' => r.foldBlock a = a') ?_ ?_ h
  · intro a' ha' hid
    obtain ⟨a, ha, rfl⟩ := (r.mem_fold hindexed).1 ha'
    exact ⟨a, .entry ha ((r.foldBlock_id a).symm.trans hid), rfl⟩
  · rintro known seen a _ ha harrives rfl edge hedge c hc hid
    obtain ⟨a', ha', rfl⟩ := (r.mem_fold hindexed).1 hc
    rw [r.foldBlock_id] at hid
    by_cases he : a.id = block.id
    · obtain rfl := block_of_id hwell.ids ha.mem hmem he
      rw [r.foldBlock_self] at hedge
      obtain ⟨u, rfl⟩ := r.mem_folded hedge
      have hside := ha.edge (r.side_edge b) (r.side_mem b) rfl
      have hjoin := hside.edge (r.join_edge b) r.join_mem rfl
      refine ⟨a', _, hjoin.edge (r.exit_mem u) ha' hid, rfl, fun v hv => ?_⟩
      rcases r.defined_past hwell hmem hv with hv | hv
      · exact (List.mem_append.1 hv).imp (fun hv => by simpa [StagedBlock.defined] using hv) Or.inl
      · exact Or.inr (Or.inr ⟨⟨seen, harrives⟩, hv⟩)
    · rw [r.foldBlock_of_ne he] at hedge
      refine ⟨a', _, ha.edge hedge ha' hid, rfl, fun v hv => ?_⟩
      rw [r.foldBlock_defined]
      exact (List.mem_append.1 hv).imp_right Or.inl

omit hindexed hmem in
theorem Roundtrip.settle {seen defined : List ℕ} {v : ℕ} {P : Prop}
    (h : ∀ b, v ∈ defined ∨ v ∈ seen ∨ P ∧ (v = (r.operation b).result ∨ v = r.parameter))
    (hkeeps : P → v = r.parameter → v ∈ defined) : v ∈ defined ++ seen := by
  rcases h true with hdefined | hseen | ⟨hP, htrue | hparameter⟩
  · exact List.mem_append_left _ hdefined
  · exact List.mem_append_right _ hseen
  · rcases h false with hdefined | hseen | ⟨_, hfalse | hparameter⟩
    · exact List.mem_append_left _ hdefined
    · exact List.mem_append_right _ hseen
    · cases r.result_injective hwell (htrue.symm.trans hfalse)
    · exact List.mem_append_left _ (hkeeps hP hparameter)
  · exact List.mem_append_left _ (hkeeps hP hparameter)

variable (hkeeps : r.Keeps)

include hkeeps

/-- **A use after a folded branch is dominated by its definition.** -/
theorem Roundtrip.scoped {seen : List ℕ} {a' : StagedBlock} (h : r.fold.Arrives seen a') : a'.Scoped seen := by
  have hread : ∀ v ∈ a'.reads, r.Reached → v = r.parameter → v ∈ a'.names := by
    rintro v hv hreached rfl
    exact hkeeps hreached seen a' h hv
  refine ⟨fun before operation after hoperations v hv => ?_, fun v hv => ?_⟩
  · have hreads : v ∈ a'.reads := by
      refine List.mem_append_left _ (List.mem_flatMap.2 ⟨operation, ?_, hv⟩)
      simp [hoperations]
    refine r.settle hwell (fun b => ?_) fun hP he => List.mem_append_left _ (hread v hreads hP he)
    obtain ⟨a, known, ha, rfl, hknown⟩ := r.lift hindexed hwell hmem b h
    rw [r.foldBlock_operations] at hoperations
    rw [r.foldBlock_names]
    rcases List.mem_append.1 ((hwell.dominated known a ha).operands before operation after hoperations v hv) with
      hd | hk
    · exact Or.inl hd
    · exact Or.inr (hknown v hk)
  · have hreads : v ∈ a'.reads := List.mem_append_right _ hv
    refine r.settle hwell (fun b => ?_) fun hP he => List.mem_append_left _ (hread v hreads hP he)
    obtain ⟨a, known, ha, rfl, hknown⟩ := r.lift hindexed hwell hmem b h
    rw [r.foldBlock_defined]
    by_cases he : a.id = block.id
    · -- the folded branch reads its condition, and what the join sends on
      obtain rfl := block_of_id hwell.ids ha.mem hmem he
      have hside := ha.edge (r.side_edge b) (r.side_mem b) rfl
      have hjoin := hside.edge (r.join_edge b) r.join_mem rfl
      rw [r.foldBlock_self] at hv
      have hcases : v = r.condition ∨ ∃ u, v ∈ (r.exit u).2 := by
        simp only [Roundtrip.folded, StagedTerminator.uses, List.mem_cons, List.mem_append] at hv
        rcases hv with hv | hv | hv
        · exact Or.inl hv
        · exact Or.inr ⟨_, hv⟩
        · exact Or.inr ⟨_, hv⟩
      rcases hcases with rfl | ⟨u, hu⟩
      · have huse := (hwell.dominated known a ha).uses r.condition (by simp [r.terminator, StagedTerminator.uses])
        rcases List.mem_append.1 huse with hd | hk
        · exact Or.inl hd
        · exact Or.inr (hknown _ hk)
      · have huse := (hwell.dominated _ _ hjoin).uses v (StagedTerminator.uses_of_edge (r.exit_mem u) hu)
        rcases r.defined_past hwell hmem huse with hv | hv
        · exact (List.mem_append.1 hv).imp (fun hv => by simpa [StagedBlock.defined] using hv) (hknown v)
        · exact Or.inr (Or.inr ⟨⟨seen, h⟩, hv⟩)
    · rw [r.foldBlock_of_ne he] at hv
      rcases List.mem_append.1 ((hwell.dominated known a ha).uses v hv) with hd | hk
      · exact Or.inl hd
      · exact Or.inr (hknown v hk)

/-- **A fold keeps the function well formed.** -/
theorem Roundtrip.wellFormed : r.fold.WellFormed := by
  refine ⟨?_, ?_, ?_, ?_, fun seen a' h => r.scoped hindexed hwell hmem hkeeps h⟩
  · rw [r.fold_indexed hindexed]
    exact List.nodup_range
  · obtain ⟨a, ha, hid⟩ := hwell.entry
    exact ⟨r.foldBlock a, (r.mem_fold hindexed).2 ⟨a, ha, rfl⟩, (r.foldBlock_id a).trans hid⟩
  · rw [r.fold_blocks hindexed, List.flatMap_map]
    simpa using hwell.definitions
  · intro a' ha' edge hedge
    obtain ⟨a, ha, rfl⟩ := (r.mem_fold hindexed).1 ha'
    have hsuccessor : ∃ successor ∈ f.blocks, successor.id = edge.1 ∧ successor.parameters.length = edge.2.length := by
      by_cases he : a.id = block.id
      · obtain rfl := block_of_id hwell.ids ha hmem he
        rw [r.foldBlock_self] at hedge
        obtain ⟨u, rfl⟩ := r.mem_folded hedge
        exact hwell.edges r.join r.join_mem _ (r.exit_mem u)
      · rw [r.foldBlock_of_ne he] at hedge
        exact hwell.edges a ha edge hedge
    obtain ⟨successor, hsuccessor, hid, hlength⟩ := hsuccessor
    exact ⟨r.foldBlock successor, (r.mem_fold hindexed).2 ⟨successor, hsuccessor, rfl⟩, by simp [hid],
      by simp [hlength]⟩

end Fold

end Blot.Hir

namespace Blot.Suspension.Direct

open Blot.Hir Blot.Support

/-! ### Runs past a fold -/

section Fold

variable {V σ : Type} [Values V] {truth : Truth V} {execute : Execute V σ}
variable {f : StagedFunction} {block : StagedBlock} (r : Roundtrip f block)
variable (hindexed : f.Indexed) (hwell : f.WellFormed) (hmem : block ∈ f.blocks) (hkeeps : r.Keeps)
variable (hne : r.join.id ≠ block.id)

include hwell hkeeps

omit hkeeps in
theorem retargeted_fold (hmem : block ∈ f.blocks) {a : StagedBlock} (ha : a ∈ f.blocks) {seen : List ℕ}
    (h : r.fold.Arrives seen (r.foldBlock a)) : Retargeted r.Leads a.terminator (r.foldBlock a).terminator := by
  by_cases he : a.id = block.id
  · obtain rfl := block_of_id hwell.ids ha hmem he
    rw [r.foldBlock_self, r.terminator]
    exact .conditional (Or.inr ⟨⟨seen, h⟩, _, rfl, rfl⟩) (Or.inr ⟨⟨seen, h⟩, _, rfl, rfl⟩)
  · rw [r.foldBlock_of_ne he]
    exact .refl (fun e => Or.inl rfl) _

include hindexed

theorem join_of_read (hreached : r.Reached) {seen : List ℕ} {a' : StagedBlock} (h : r.fold.Arrives seen a')
    (hread : r.parameter ∈ a'.reads) : a' = r.foldBlock r.join := by
  obtain ⟨a, ha, rfl⟩ := (r.mem_fold hindexed).1 h.mem
  have hnames := hkeeps hreached seen _ h hread
  rw [r.foldBlock_names] at hnames
  have hjoin : r.parameter ∈ r.join.defined := List.mem_append_left _ (by simp [r.join_names])
  rw [block_of_defined hwell.definitions ha r.join_mem (List.mem_append_left _ hnames) hjoin]

include hmem

/-- **A fold is a rewriting** that loses the joined Boolean. -/
theorem Roundtrip.rewriting : Rewriting f r.fold (fun v => r.Reached ∧ v = r.parameter) r.Leads := by
  refine ⟨hwell, r.wellFormed hindexed hwell hmem hkeeps, rfl, ?_, ?_, ?_⟩
  · rintro seen a' h operation hoperation v hv ⟨hreached, rfl⟩
    have hread : r.parameter ∈ a'.reads := List.mem_append_left _ (List.mem_flatMap.2 ⟨operation, hoperation, hv⟩)
    have hjoin := join_of_read r hindexed hwell hkeeps hreached h hread
    simp [hjoin, r.join_operations] at hoperation
  · rintro seen a' h v hv ⟨hreached, rfl⟩
    have hjoin := join_of_read r hindexed hwell hkeeps hreached h (List.mem_append_right _ hv)
    simp [hjoin, r.join_operations, r.join_names]
  · intro a a' hfind hfind'
    have ha' := List.mem_of_find?_eq_some hfind'
    have hid' : a'.id = r.fold.entryBlock := by simpa using List.find?_some hfind'
    have hid : a.id = f.entryBlock := by simpa using List.find?_some hfind
    obtain ⟨b, hb, rfl⟩ := (r.mem_fold hindexed).1 ha'
    rw [r.foldBlock_id] at hid'
    obtain rfl := block_of_id hwell.ids hb (List.mem_of_find?_eq_some hfind) (hid'.trans hid.symm)
    refine ⟨by simp, by simp, ?_⟩
    exact retargeted_fold r hwell hmem hb (.entry ha' ((r.foldBlock_id b).trans hid'))

include hne

omit hindexed hkeeps hne in
/-- **The way through a side and the join is quiet**, and leads to the end of the join, where the joined Boolean is the
constant that the side sends. -/
theorem detour (hknown : truth.Known execute) {p : Place V} (hplaced : Placed f p) (hp : p.operations = []) {b : Bool}
    (hedge : ((r.side b).id, []) ∈ p.terminator.edges) (s : σ) :
    ∃ p₀ p' : Place V, enter f p.values (r.side b).id [] = .ok (p₀.state f) ∧ Quiet execute f s p₀ p' ∧ Placed f p' ∧
      p'.operations = [] ∧ p'.terminator = r.join.terminator ∧
      ∀ v, readValue p'.values v =
        if v = r.parameter ∨ v = (r.operation b).result then .ok (truth.value b) else readValue p.values v := by
  obtain ⟨hp₀, hside⟩ := hplaced.enters hwell hp hedge (show collect _ _ = .ok [] from rfl) (r.side_mem b) rfl
  have hnames : (r.side b).names = [] := by simp [StagedBlock.names, r.side_parameters hwell hmem]
  have hentered : entered p.values (r.side b) [] = ⟨p.values, [r.operation b], (r.side b).terminator⟩ := by
    simp [entered, hnames, Table.extend, r.side_operations]
  rw [hentered] at hp₀ hside
  -- the constant
  obtain ⟨xs, hxs⟩ := hside.operands hwell rfl
  have hcall : ¬isCall (r.operation b) = true := by simp [isCall, r.kind b]
  have hconstant : deed execute (Place.state ⟨p.values, [r.operation b], (r.side b).terminator⟩ f) s = _ :=
    deed_executed hcall hxs (hknown (instruction (r.operation b)) xs s b (r.kind b) (r.value b))
  have hbound := hside.bind rfl (truth.value b)
  -- the join
  obtain ⟨span, hterminator⟩ := r.side_terminator b
  have hsent : collect (readValue (p.values.insert (r.operation b).result (truth.value b))) [(r.operation b).result] =
      .ok [truth.value b] := by
    simp [collect, readValue_insert]
  obtain ⟨hjoin, hlast⟩ := hbound.enters hwell rfl (r.join_edge b) hsent r.join_mem rfl
  refine ⟨_, _, hp₀, .head hconstant (.single (deed_terminate ?_)), hlast, r.join_operations, rfl, fun v => ?_⟩
  · rw [hterminator]
    exact congrArg (· >>= _) hjoin
  · simp only [entered, r.join_names, List.zip_cons_cons, List.zip_nil_left, Table.extend, List.foldl_cons,
      List.foldl_nil, readValue_insert, Place.bind]
    by_cases hparameter : v = r.parameter
    · simp [hparameter]
    · simp [hparameter]

/-- **The way through a side and the join is quiet**: it leads to the exit of the constant that the side sends. -/
theorem edgesTrack_fold (hknown : truth.Known execute) :
    EdgesTrack truth f r.fold (fun v => r.Reached ∧ v = r.parameter) r.Leads execute := by
  intro p q htracks hq e he e' he' hleads s
  have hp : p.operations = [] := htracks.operations ▸ hq
  have hrewriting := Roundtrip.rewriting r hindexed hwell hmem hkeeps
  have hblocks : ∀ e : ℕ × List ℕ, ∀ a ∈ f.blocks, a.id = e.1 → ∀ seen b, r.fold.Arrives seen b → b.id = e.1 →
      b.names = a.names ∧ b.operations = a.operations ∧ Retargeted r.Leads a.terminator b.terminator := by
    intro e a ha hid seen b hb hid'
    obtain ⟨c, hc, rfl⟩ := (r.mem_fold hindexed).1 hb.mem
    rw [r.foldBlock_id] at hid'
    obtain rfl := block_of_id hwell.ids hc ha (hid'.trans hid.symm)
    exact ⟨by simp, by simp, retargeted_fold r hwell hmem hc hb⟩
  rcases hleads with rfl | ⟨hreached, b, rfl, rfl⟩
  · have hread : ∀ v x, ¬(r.Reached ∧ v = r.parameter) ∨ v ∈ e.2 → readValue q.values v = .ok x →
        readValue p.values v = .ok x := by
      intro v x hv hx
      exact htracks.agree v x (hv.imp_right fun hv => ⟨hq, StagedTerminator.uses_of_edge he' hv⟩) hx
    obtain ⟨p₁, q₁, hp₁, hq₁, htracks'⟩ := hrewriting.arrive htracks hq htracks.placed hp he he' rfl hread (hblocks e)
    exact ⟨p₁, p₁, q₁, hp₁, .refl, hq₁, htracks'⟩
  · -- into the side, past its constant, into the join, and out
    obtain ⟨p₀, p', hp₀, hquiet, hp', hoperations, hterminator, hreads⟩ :=
      detour r hwell hmem hknown htracks.placed hp he s
    obtain ⟨span, hjoin⟩ := r.join_terminator
    have hexit : r.exit b ∈ p'.terminator.edges := hterminator ▸ r.exit_mem b
    have hother : ∀ v, v ∈ (r.exit b).2 → v ≠ r.parameter := by
      rintro v hv rfl
      obtain ⟨known, hblock⟩ := hreached
      have hread : r.parameter ∈ (r.foldBlock block).reads := by
        refine List.mem_append_right _ (StagedTerminator.uses_of_edge (show r.exit b ∈ _ from ?_) hv)
        rw [r.foldBlock_self]
        rcases Bool.eq_or_eq_not b r.first with rfl | rfl <;> simp [Roundtrip.folded, StagedTerminator.edges]
      have hsame := congrArg StagedBlock.id (join_of_read r hindexed hwell hkeeps ⟨known, hblock⟩ hblock hread)
      simp only [r.foldBlock_id] at hsame
      exact hne hsame.symm
    have hread : ∀ v x, ¬(r.Reached ∧ v = r.parameter) ∨ v ∈ (r.exit b).2 → readValue q.values v = .ok x →
        readValue p'.values v = .ok x := by
      intro v x hv hx
      have hv : v ≠ r.parameter := hv.elim (fun hnot he => hnot ⟨hreached, he⟩) (hother v)
      rw [hreads]
      by_cases hresult : v = (r.operation b).result
      · have hside : r.side b ∈ r.fold.blocks :=
          (r.mem_fold hindexed).2 ⟨r.side b, r.side_mem b, r.foldBlock_of_ne (r.side_ne hwell hmem b)⟩
        have hconstant : Constant r.fold v b :=
          ⟨r.side b, hside, r.operation b, by simp [r.side_operations], hresult.symm, r.kind b, r.value b⟩
        rw [if_pos (Or.inr hresult), htracks.constants v b hconstant x hx]
      · rw [if_neg (by simp [hv, hresult])]
        exact htracks.agree v x (Or.inl fun hD => hv hD.2) hx
    obtain ⟨p₁, q₁, hp₁, hq₁, htracks'⟩ := hrewriting.arrive htracks hq hp' hoperations hexit he' rfl hread
      (hblocks (r.exit b))
    refine ⟨p₀, p₁, q₁, hp₀, hquiet.tail ?_, hq₁, htracks'⟩
    have hparameter : readValue p'.values r.parameter = .ok (truth.value b) := by rw [hreads, if_pos (Or.inl rfl)]
    obtain ⟨values, operations, terminator⟩ := p'
    cases hoperations
    refine deed_terminate ?_
    rw [show terminator = _ from hterminator.trans hjoin]
    simp only [terminateDeed, hparameter, ok_bind, truth.condition]
    cases b with
    | true | false => exact congrArg (· >>= _) hp₁

/-- **A fold has the same runs.** -/
theorem Roundtrip.sameRuns : SameRuns f r.fold :=
  (Roundtrip.rewriting r hindexed hwell hmem hkeeps).sameRuns fun _ _ _ _ _ hknown =>
    edgesTrack_fold r hindexed hwell hmem hkeeps hne hknown

end Fold

end Blot.Suspension.Direct
