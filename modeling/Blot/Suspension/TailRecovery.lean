import Blot.Suspension.TailPosition
import Blot.Suspension.Typing

/-!
# Tail calls are given on

A caller whose call was cut off gives the result on: past the constants and the blocks of a unit result, past the
products and indirections before a return, or through blocks that only give their argument on.

* `Lawful` — what is asked of the execution of constants, products and indirections;
* `BranchesGiveOn` — calls that are cut off before a branch: its one argument is their result, and is given on;
* `givesOn_of_typed` — the callers of a typed run give results on;
* `recover_preserves` — recovery preserves behaviour.
-/

namespace Blot.Suspension.Direct

open Blot.Hir Blot.Support Blot.Support.Lockstep

variable {V σ : Type} {f g k : StagedFunction}

/-! ### Where recovery cuts -/

theorem cut_cases (isTail : StagedOperation → Bool) (returns : List StagedOperation → StagedTerminator → Bool)
    (block : StagedBlock) : f.cut isTail returns block = block ∨
      ∃ before call after, block.operations = before ++ call :: after ∧ isTail call = true ∧
        returns after block.terminator = true ∧ f.cut isTail returns block =
          { block with operations := before, terminator := .branch f.entryBlock call.operands call.span } := by
  unfold StagedFunction.cut
  split
  · next before call after hsplit =>
    obtain ⟨hblock, hcall⟩ := splitLast_eq_some hsplit
    split
    · next hreturns => exact .inr ⟨before, call, after, hblock, hcall, hreturns, rfl⟩
    · exact .inl rfl
  · exact .inl rfl

/-- The blocks that do no more than return a unit value, or go on to such a block. -/
inductive UnitReturns (f : StagedFunction) : ℕ → Prop where
  | returned {block : StagedBlock} {v : ℕ} {span : RuntimeSpan} (hmem : block ∈ f.blocks)
      (hoperations : ∀ operation ∈ block.operations, isUnitConstant operation = true)
      (hterminator : block.terminator = .return v span) : UnitReturns f block.id
  | sent {block : StagedBlock} {target : ℕ} {arguments : List ℕ} {span : RuntimeSpan} (hmem : block ∈ f.blocks)
      (hoperations : ∀ operation ∈ block.operations, isUnitConstant operation = true)
      (hterminator : block.terminator = .branch target arguments span) (h : UnitReturns f target) :
      UnitReturns f block.id

def EndsInUnit (f : StagedFunction) (terminator : StagedTerminator) : Prop :=
  (∃ v span, terminator = .return v span) ∨
    ∃ target arguments span, terminator = .branch target arguments span ∧ UnitReturns f target

theorem unitReturns_of_explore {rounds : ℕ} {ids : List ℕ}
    (h : explore f.unitPredecessors rounds f.unitReturning.reverse [] = some ids) : ∀ id ∈ ids, UnitReturns f id := by
  intro id hid
  obtain ⟨first, hfirst, hlead⟩ := (mem_explore h id).1 hid
  clear hid
  induction hlead with
  | refl =>
    obtain ⟨block, hblock, rfl⟩ := List.mem_map.1 (List.mem_reverse.1 hfirst)
    obtain ⟨hmem, hunit⟩ := List.mem_filter.1 hblock
    rw [Bool.and_eq_true, List.all_eq_true] at hunit
    split at hunit
    · next hterminator => exact .returned hmem hunit.1 hterminator
    · cases hunit.2
  | @tail target id _ hstep ih =>
    obtain ⟨block, hblock, rfl⟩ := List.mem_map.1 hstep
    obtain ⟨hmem, hunit⟩ := List.mem_filter.1 hblock
    rw [Bool.and_eq_true, List.all_eq_true] at hunit
    split at hunit
    · next target' arguments span hterminator =>
      obtain rfl : target' = target := by simpa using hunit.2
      exact .sent hmem hunit.1 hterminator ih
    · cases hunit.2

/-- What recovery of unit calls does to a block. -/
def UnitCut (f : StagedFunction) (block block' : StagedBlock) : Prop :=
  block' = block ∨ ∃ before call after span, block.operations = before ++ call :: after ∧ f.callsItself call = true ∧
    call.typeId ∈ f.unitTypes ∧ (∀ operation ∈ after, isUnitConstant operation = true) ∧
    EndsInUnit f block.terminator ∧
    block' = { block with operations := before, terminator := .branch f.entryBlock call.operands span }

theorem unitCut_of_recover {rounds : ℕ} (h : recoverUnitTailCalls rounds f = .ok k) :
    ∃ cut : StagedBlock → StagedBlock, (∀ block, UnitCut f block (cut block)) ∧
      k = { f with blocks := f.blocks.map cut } := by
  unfold recoverUnitTailCalls at h
  split at h
  · cases h
    exact ⟨id, fun _ => .inl rfl, by simp⟩
  · simp only [bind_eq_ok, pure_eq_ok, demand_eq_ok] at h
    obtain ⟨ids, hexplore, rfl⟩ := h
    refine ⟨_, fun block => ?_, rfl⟩
    rcases cut_cases _ _ block with hsame | ⟨before, call, after, hblock, htail, hreturns, hcut⟩
    · exact .inl hsame
    · rw [Bool.and_eq_true] at htail hreturns
      refine .inr ⟨before, call, after, call.span, hblock, htail.1, by simpa using htail.2,
        List.all_eq_true.1 hreturns.2, ?_, hcut⟩
      have hend := hreturns.1
      split at hend
      · next v span heq => exact .inl ⟨v, span, heq⟩
      · next target arguments span heq =>
        exact .inr ⟨target, arguments, span, heq, unitReturns_of_explore hexplore target (by simpa using hend)⟩
      · cases hend

/-- What recovery of demanded calls does to a block. -/
def DemandCut (k : StagedFunction) (calls : List ℕ) (block block' : StagedBlock) : Prop :=
  block' = block ∨ ∃ before call after span, block.operations = before ++ call :: after ∧ k.callsItself call = true ∧
    call.result ∈ calls ∧ tailCallSuffixReturns after block.terminator = true ∧
    block' = { block with operations := before, terminator := .branch k.entryBlock call.operands span }

theorem demandCut_of_recover {rounds : ℕ} (h : recoverDirectTailCalls rounds f = .ok g) :
    ∃ k calls, recoverUnitTailCalls rounds f = .ok k ∧ k.tailCalls rounds = .ok calls ∧
      ∃ cut : StagedBlock → StagedBlock, (∀ block, DemandCut k calls block (cut block)) ∧
        g = { k with blocks := k.blocks.map cut } := by
  simp only [recoverDirectTailCalls, bind_eq_ok] at h
  obtain ⟨k, hk, calls, hcalls, hg⟩ := h
  refine ⟨k, calls, hk, hcalls, ?_⟩
  split at hg
  · cases hg
    exact ⟨id, fun _ => .inl rfl, by simp⟩
  · cases hg
    refine ⟨_, fun block => ?_, rfl⟩
    rcases cut_cases _ _ block with hsame | ⟨before, call, after, hblock, htail, hreturns, hcut⟩
    · exact .inl hsame
    · rw [Bool.and_eq_true] at htail
      exact .inr ⟨before, call, after, call.span, hblock, htail.1, by simpa using htail.2, hreturns, hcut⟩

/-! ### What a call that is cut off goes on to -/

/-- A value that is another one, or is put together from its fields again. -/
def Remade (f : StagedFunction) (after : List StagedOperation) : ℕ → ℕ → Prop :=
  Relation.ReflTransGen fun v source => ∃ make ∈ after, make.result = v ∧ Eta after make source ∧
    (source, make.typeId) ∈ f.valueTypes

/-- A block that only gives its argument on: it returns it, or sends it to such a block. -/
inductive GivesArgument (f : StagedFunction) : ℕ → Prop where
  | returned {target : ℕ} {block : StagedBlock} {parameter : StagedBlockParameter} {span : RuntimeSpan}
      (hfind : f.blocks.find? (·.id == target) = some block) (hparameters : block.parameters = [parameter])
      (hoperations : block.operations = []) (hterminator : block.terminator = .return parameter.value span) :
      GivesArgument f target
  | sent {target next : ℕ} {block : StagedBlock} {parameter : StagedBlockParameter} {span : RuntimeSpan}
      (hfind : f.blocks.find? (·.id == target) = some block) (hparameters : block.parameters = [parameter])
      (hoperations : block.operations = []) (hterminator : block.terminator = .branch next [parameter.value] span)
      (h : GivesArgument f next) : GivesArgument f target

/-- **Calls that are cut off before a branch**: the block is the one it was, the one argument of its branch is the
result of the call, and the block that it leads to only gives it on. -/
def BranchesGiveOn (f : StagedFunction) : Prop :=
  ∀ rounds k calls, recoverUnitTailCalls rounds f = .ok k → k.tailCalls rounds = .ok calls →
    ∀ seen block, f.Arrives seen block → ∀ block' ∈ k.blocks, block'.id = block.id →
      ∀ before call after target argument span, block'.operations = before ++ call :: after →
        f.callsItself call = true → call.result ∈ calls → (∀ operation ∈ after, isAdministrative operation = true) →
          block'.terminator = .branch target [argument] span →
            block' = block ∧ Remade f after argument call.result ∧ GivesArgument f target

/-- The values of a block that returns are read in that block only. -/
def ReturnsOwn (f : StagedFunction) : Prop :=
  ∀ block ∈ f.blocks, (∃ v span, block.terminator = .return v span) → ∀ operation ∈ block.operations,
    ∀ other ∈ f.blocks, operation.result ∈ other.reads → other = block

/-- What follows a call that was cut off, with what it was cut off for. -/
inductive Afterwards (f : StagedFunction) (call : StagedOperation) (after : List StagedOperation) :
    StagedTerminator → Prop where
  | unit {terminator : StagedTerminator} (htype : call.typeId ∈ f.unitTypes)
      (hafter : ∀ operation ∈ after, isUnitConstant operation = true) (hend : EndsInUnit f terminator) :
      Afterwards f call after terminator
  | returned {v : ℕ} {span : RuntimeSpan} (hafter : ∀ operation ∈ after, isAdministrative operation = true)
      (hv : Relation.ReflTransGen (Stems f after) v call.result) : Afterwards f call after (.return v span)
  | sent {target argument : ℕ} {span : RuntimeSpan} (hafter : ∀ operation ∈ after, isAdministrative operation = true)
      (hargument : Remade f after argument call.result) (htarget : GivesArgument f target) :
      Afterwards f call after (.branch target [argument] span)

section Afterwards

variable (hwell : f.WellFormed)

include hwell

/-- A block is arrived at for a first time, when nothing of it is defined yet. -/
theorem first_arrival {seen : List ℕ} {block : StagedBlock} (h : f.Arrives seen block) :
    ∃ seen', f.Arrives seen' block ∧ ∀ v ∈ block.defined, v ∉ seen' := by
  have hfirst {seen : List ℕ} {other : StagedBlock} (hother : f.Arrives seen other) (hmem : block ∈ f.blocks) :
      (∃ seen', f.Arrives seen' block ∧ ∀ v ∈ block.defined, v ∉ seen') ∨
        (∀ v ∈ block.defined, v ∉ seen) ∧ other ≠ block := by
    induction hother with
    | @entry other hentry hid =>
      by_cases heq : other = block
      · exact .inl ⟨[], heq ▸ .entry hentry hid, by simp⟩
      · exact .inr ⟨by simp, heq⟩
    | @edge seen other successor edge harrives hedge hsuccessor hid ih =>
      rcases ih with hfound | ⟨hseen, hne⟩
      · exact .inl hfound
      · have hnone : ∀ v ∈ block.defined, v ∉ other.defined ++ seen := by
          intro v hv hmem'
          rcases List.mem_append.1 hmem' with hdefined | hbefore
          · exact hne (block_of_defined hwell.definitions harrives.mem hmem hdefined hv)
          · exact hseen v hv hbefore
        by_cases heq : successor = block
        · exact .inl ⟨_, heq ▸ .edge harrives hedge hsuccessor hid, hnone⟩
        · exact .inr ⟨hnone, heq⟩
  rcases hfirst h h.mem with hfound | ⟨_, hne⟩
  · exact hfound
  · exact absurd rfl hne

/-- What a block reads of its own results was defined before in it. -/
theorem defined_before {seen : List ℕ} {block : StagedBlock} (h : f.Arrives seen block)
    {before after : List StagedOperation} {operation : StagedOperation}
    (hblock : block.operations = before ++ operation :: after) {v : ℕ} (hv : v ∈ operation.operands)
    (hresult : v ∈ block.operations.map (·.result)) : v ∈ before.map (·.result) := by
  obtain ⟨seen', harrives, hseen⟩ := first_arrival hwell h
  have hdefined : v ∈ block.defined := List.mem_append_right _ hresult
  have hoperand := (hwell.dominated seen' block harrives).operands before operation after hblock v hv
  rw [List.mem_append, List.mem_append] at hoperand
  rcases hoperand with (hname | hbefore) | hbefore
  · have hnodup := (List.nodup_flatMap.1 hwell.definitions).1 block h.mem
    exact absurd rfl ((List.nodup_append.1 hnodup).2.2 v hname v hresult)
  · exact hbefore
  · exact absurd hbefore (hseen v hdefined)

/-- What an operation reads of the results from another one on was defined between the two. -/
theorem read_after {seen : List ℕ} {block : StagedBlock} (h : f.Arrives seen block)
    {before after : List StagedOperation} {call : StagedOperation} (hblock : block.operations = before ++ call :: after)
    {operation : StagedOperation} (hoperation : operation ∈ block.operations) {v : ℕ} (hv : v ∈ operation.operands)
    (hresult : v ∈ (call :: after).map (·.result)) : operation ∈ after := by
  have hnodup : (block.operations.map (·.result)).Nodup :=
    (List.nodup_append.1 ((List.nodup_flatMap.1 hwell.definitions).1 block h.mem)).2.1
  have hnot : v ∉ before.map (·.result) := by
    rw [hblock, List.map_append] at hnodup
    exact fun hbefore => (List.nodup_append.1 hnodup).2.2 v hbefore v hresult rfl
  obtain ⟨pre, post, hsplit⟩ := List.append_of_mem hoperation
  have hread : v ∈ block.operations.map (·.result) := by
    rw [hblock, List.map_append]
    exact List.mem_append_right _ hresult
  have hpre := defined_before hwell h hsplit hv hread
  rcases List.append_eq_append_iff.1 (hsplit.symm.trans hblock) with ⟨rest, rfl, hrest⟩ | ⟨rest, rfl, hrest⟩
  · -- the operation stands before the call, or is the call
    exact absurd (by simpa using .inl (List.mem_map.1 hpre)) hnot
  · cases rest with
    | nil => exact absurd (by simpa using hpre) hnot
    | cons first rest =>
      cases hrest
      simp

theorem closing_of_arrives (hown : ReturnsOwn f) {seen : List ℕ} {block : StagedBlock} (h : f.Arrives seen block)
    {before after : List StagedOperation} {call : StagedOperation} (hblock : block.operations = before ++ call :: after)
    {v : ℕ} {span : RuntimeSpan} (hterminator : block.terminator = .return v span)
    (hafter : ∀ operation ∈ after, isAdministrative operation = true) : Closing f block call after v := by
  have hread : ∀ other ∈ f.blocks, ∀ v ∈ other.reads, v ∈ (call :: after).map (·.result) → other = block := by
    intro other hother v hv hresult
    obtain ⟨operation, hoperation, rfl⟩ := List.mem_map.1 hresult
    refine hown block h.mem ⟨_, span, hterminator⟩ operation ?_ other hother hv
    rw [hblock]
    exact List.mem_append_right _ hoperation
  refine ⟨⟨span, hterminator⟩, fun other hother operation hoperation v hv hresult => ?_,
    fun other hother v hv => hread other hother v (List.mem_append_right _ hv), hafter⟩
  have hreads : v ∈ other.reads := List.mem_append_left _ (List.mem_flatMap.2 ⟨operation, hoperation, hv⟩)
  obtain rfl := hread other hother v hreads hresult
  exact read_after hwell h hblock hoperation hv hresult

end Afterwards

section Cuts

variable {cut : StagedBlock → StagedBlock} (hcut : ∀ block, UnitCut f block (cut block))
  (hk : k = { f with blocks := f.blocks.map cut })

include hcut

theorem operations_cut (block : StagedBlock) : (cut block).operations ⊆ block.operations := by
  rcases hcut block with hsame | ⟨before, call, after, span, hblock, -, -, -, -, hto⟩
  · rw [hsame]
    exact fun _ h => h
  · rw [hto, hblock]
    exact List.subset_append_left _ _

theorem id_cut (block : StagedBlock) : (cut block).id = block.id := by
  rcases hcut block with hsame | ⟨before, call, after, span, -, -, -, -, -, hto⟩
  · rw [hsame]
  · rw [hto]

include hk

theorem valueTypes_cut : k.valueTypes ⊆ f.valueTypes := by
  subst hk
  intro p hp
  obtain ⟨block', hblock', hmem⟩ := List.mem_flatMap.1 hp
  obtain ⟨block, hblock, rfl⟩ := List.mem_map.1 hblock'
  refine List.mem_flatMap.2 ⟨block, hblock, ?_⟩
  rcases List.mem_append.1 hmem with hparameter | hoperation
  · refine List.mem_append_left _ ?_
    rcases hcut block with hsame | ⟨before, call, after, span, -, -, -, -, -, hto⟩
    · rwa [hsame] at hparameter
    · rwa [hto] at hparameter
  · obtain ⟨operation, hkept, rfl⟩ := List.mem_map.1 hoperation
    exact List.mem_append_right _ (List.mem_map.2 ⟨operation, operations_cut hcut block hkept, rfl⟩)

theorem closing_cut {block : StagedBlock} {call : StagedOperation}
    {after : List StagedOperation} {v : ℕ} (h : Closing f block call after v) : Closing k block call after v := by
  subst hk
  refine ⟨h.terminator, fun other' hother' operation hoperation => ?_, fun other' hother' v hv hresult => ?_,
    h.administrative⟩
  · obtain ⟨other, hother, rfl⟩ := List.mem_map.1 hother'
    exact h.operands other hother operation (operations_cut hcut other hoperation)
  · obtain ⟨other, hother, rfl⟩ := List.mem_map.1 hother'
    rcases hcut other with hleft | ⟨before, call', after', span, hblock, hcall, -, -, -, hto⟩
    · rw [hleft] at hv ⊢
      exact h.uses other hother v hv hresult
    · -- the branch to the entry block reads what a call read, which is not among what follows
      rw [hto] at hv
      have hmem := h.operands other hother call' (by simp [hblock]) v hv hresult
      have hadministrative := h.administrative call' hmem
      rw [isAdministrative, (callsItself_iff.1 hcall).1] at hadministrative
      exact absurd hadministrative (by decide)

theorem stems_of_cut {after : List StagedOperation} {v w : ℕ} (h : Stems k after v w) : Stems f after v w := by
  cases h with
  | eta mem fields type => exact .eta mem fields (valueTypes_cut hcut hk type)
  | indirect mem kind operand => exact .indirect mem kind operand

end Cuts

theorem leads_of_tailCalls {rounds : ℕ} {calls : List ℕ} (h : k.tailCalls rounds = .ok calls) {r : ℕ}
    (hr : r ∈ calls) :
    ∃ (search : TailSearch) (d₀ d : TailDemand), search.Found k ∧ d₀ ∈ k.returned ∧ LeadsTo search.next d₀ d ∧
      d.value = r := by
  obtain ⟨search, hsearch, hdemands⟩ := bind_eq_ok.1 h
  obtain ⟨demands, hexplore, heq⟩ := bind_eq_ok.1 hdemands
  obtain rfl := pure_eq_ok.1 heq
  have hfound := tailSearch_found hsearch
  obtain ⟨d, hd, htail⟩ := List.mem_filterMap.1 hr
  obtain ⟨d₀, hd₀, hlead⟩ := (mem_explore (demand_eq_ok.1 hexplore) d).1 hd
  refine ⟨search, d₀, d, hfound, List.mem_reverse.1 hd₀, hlead, ?_⟩
  unfold TailSearch.tailCall at htail
  split at htail
  · next operation horigin =>
    split at htail
    · cases htail
      unfold TailSearch.origin at horigin
      split at horigin
      · cases horigin
      · split at horigin
        · cases horigin
        · exact (hfound.definitions _ _ (Sum.inr.inj horigin)).1.symm
    · cases htail
  · cases htail

/-- **What follows a call that was cut off.** -/
theorem afterwards_of_waits (hwell : f.WellFormed) (hown : ReturnsOwn f) (hgives : BranchesGiveOn f) {rounds : ℕ}
    (hrecover : recoverDirectTailCalls rounds f = .ok g) {r : ValueId} {rest : Place V} (h : Waits f g r rest) :
    ∃ seen block before call, f.Arrives seen block ∧ block.operations = before ++ call :: rest.operations ∧
      block.terminator = rest.terminator ∧ call.result = r ∧ f.callsItself call = true ∧
      Placed f (⟨rest.values, call :: rest.operations, rest.terminator⟩ : Place V) ∧
      Afterwards f call rest.operations rest.terminator := by
  obtain ⟨⟨block, hblock, before, call, hoperations, hterminator, rfl, hself, block', hblock', hid, hbefore⟩, call',
    hresult, hplaced⟩ := h
  obtain ⟨seen, block₂, before₂, harrives, hoperations₂, hterminator₂, hreads⟩ := id hplaced
  -- the block of the place is the block that was cut
  have hcall₂ : call' ∈ block₂.operations := by simp [hoperations₂]
  have hcall : call ∈ block.operations := by simp [hoperations]
  obtain rfl := operation_of_result hwell.definitions harrives.mem hblock hcall₂ hcall hresult
  obtain rfl := block_of_defined hwell.definitions harrives.mem hblock
    (List.mem_append_right _ (List.mem_map_of_mem hcall₂)) (List.mem_append_right _ (List.mem_map_of_mem hcall))
  refine ⟨seen, block₂, before, call', harrives, hoperations, hterminator, rfl, hself, hplaced, ?_⟩
  obtain ⟨k, calls, hk, hcalls, cut', hcut', rfl⟩ := demandCut_of_recover hrecover
  obtain ⟨cut, hcut, hkcut⟩ := unitCut_of_recover hk
  obtain ⟨kept, hkept, rfl⟩ := List.mem_map.1 hblock'
  have hkept' := hkept
  rw [hkcut] at hkept'
  obtain ⟨other, hother, rfl⟩ := List.mem_map.1 hkept'
  have hidCut : (cut' (cut other)).id = (cut other).id := by
    rcases hcut' (cut other) with hsame | ⟨_, _, _, _, -, -, -, -, hto⟩
    · rw [hsame]
    · rw [hto]
  obtain rfl := block_of_id hwell.ids hother hblock ((id_cut hcut other).symm.trans (hidCut.symm.trans hid))
  rcases hcut' (cut other) with hsame' | ⟨before', call, after', span', hoperations', hself', hcall', hreturns, hto'⟩
  · -- the block was cut at a unit call, or not at all
    rw [hsame'] at hbefore
    rcases hcut other with hsame | ⟨before'', call, after, span, hoperations'', -, htype, hafter, hend, hto⟩
    · rw [hsame, hoperations] at hbefore
      simp at hbefore
    · rw [hto] at hbefore
      obtain rfl : before'' = before := hbefore
      have hsplit := List.append_cancel_left (hoperations''.symm.trans hoperations)
      cases hsplit
      exact hterminator ▸ .unit htype hafter hend
  · rw [hto'] at hbefore
    obtain rfl : before' = before := hbefore
    obtain ⟨hadministrative, hend⟩ := Bool.and_eq_true_iff.1 hreturns
    have hafter : ∀ operation ∈ after', isAdministrative operation = true := List.all_eq_true.1 hadministrative
    have hself : f.callsItself call = true := by
      rw [hkcut] at hself'
      exact hself'
    have hbranch : ∀ target arguments span, (cut other).terminator = .branch target arguments span →
        cut other = other ∧ ∃ argument, arguments = [argument] ∧ Remade f after' argument call.result ∧
          GivesArgument f target := by
      intro target arguments span hbranch
      rw [hbranch] at hend
      obtain ⟨argument, rfl⟩ := List.length_eq_one_iff.1 (by simpa using hend)
      obtain ⟨hsame, hargument, htarget⟩ := hgives rounds k calls hk hcalls seen other harrives (cut other) hkept
        (id_cut hcut other) _ call after' target argument span hoperations' hself hcall' hafter hbranch
      exact ⟨hsame, argument, rfl, hargument, htarget⟩
    have hsame : cut other = other := by
      rcases hcut other with hsame | ⟨_, _, _, _, -, -, -, -, -, hto⟩
      · exact hsame
      · exact (hbranch _ _ _ (by rw [hto])).1
    rw [hsame] at hoperations' hend hbranch
    cases List.append_cancel_left (hoperations'.symm.trans hoperations)
    split at hend
    · next v span hreturn =>
      -- the search came to the call from the return of its own block
      obtain ⟨search, d₀, d, hfound, hreturned, hlead, hd⟩ := leads_of_tailCalls hcalls hcall'
      have hclosing := closing_cut hcut hkcut (closing_of_arrives hwell hown harrives hoperations hreturn hafter)
      obtain ⟨-, hchain⟩ := stems_of_leads hclosing hfound hreturned hlead (by simp [hd])
      rw [← hterminator, hreturn]
      exact .returned hafter (hd ▸ Relation.ReflTransGen.mono (fun _ _ => stems_of_cut hcut hkcut) _ _ hchain)
    · next target arguments span hbranching =>
      obtain ⟨-, argument, rfl, hargument, htarget⟩ := hbranch target arguments span hbranching
      rw [← hterminator, hbranching]
      exact .sent hafter hargument htarget
    · cases hend

/-! ### What runs after the call -/

/-- Operations of which none reads or defines again what it or a later one defines. -/
def Fresh : List StagedOperation → Prop
  | [] => True
  | operation :: operations => operation.result ∉ operations.map (·.result) ∧
    (∀ v ∈ operation.operands, v ∉ (operation :: operations).map (·.result)) ∧ Fresh operations

theorem fresh_of_arrives (hwell : f.WellFormed) {seen : List ℕ} {block : StagedBlock} (h : f.Arrives seen block)
    {before operations : List StagedOperation} (hblock : block.operations = before ++ operations) :
    Fresh operations := by
  induction operations generalizing before with
  | nil => trivial
  | cons operation operations ih =>
    have hnodup : (block.operations.map (·.result)).Nodup :=
      (List.nodup_append.1 ((List.nodup_flatMap.1 hwell.definitions).1 block h.mem)).2.1
    rw [hblock, List.map_append] at hnodup
    obtain ⟨-, hrest, hdisjoint⟩ := List.nodup_append.1 hnodup
    have hafter : block.operations = (before ++ [operation]) ++ operations := by simp [hblock]
    refine ⟨(List.nodup_cons.1 hrest).1, fun v hv hresult => ?_, ih hafter⟩
    have hmem : v ∈ block.operations.map (·.result) := by
      rw [hblock, List.map_append]
      exact List.mem_append_right _ hresult
    exact hdisjoint v (defined_before hwell h hblock hv hmem) v hresult rfl

variable [Values V] {HasType : V → TypeId → Prop} {module : StagedModule} {execute : Execute V σ} {s : σ}

omit [Values V] in
/-- What an operation gave is what it gives to the values that are there in the end. -/
def Computed (execute : Execute V σ) (s : σ) (final : Table ValueId V) (operation : StagedOperation) : Prop :=
  ∃ xs y, collect (readValue final) operation.operands = .ok xs ∧ execute (instruction operation) xs s = (.ok y, s) ∧
    readValue final operation.result = .ok y

/-- Operations that execution carries out without a trap and without a change of its state. -/
def Silent (HasType : V → TypeId → Prop) (f : StagedFunction) (execute : Execute V σ) (operation : StagedOperation) :
    Prop :=
  operation ∈ f.operations ∧ ¬isCall operation = true ∧
    ∀ xs s, OperandsTyped HasType f.valueTypes operation.operands xs →
      ∃ x, execute (instruction operation) xs s = (.ok x, s)

/-- **Silent operations** are run up to the end of the block. -/
theorem runs_silent (hwell : f.WellFormed) (hf : f ∈ module.functions) (hexecutes : Executes HasType module execute)
    {values : Table ValueId V} {operations : List StagedOperation} {terminator : StagedTerminator}
    (hplaced : Placed f ⟨values, operations, terminator⟩) (hholding : Holding HasType f.valueTypes values)
    (hsilent : ∀ operation ∈ operations, Silent HasType f execute operation) :
    ∃ final, Quiet execute f s ⟨values, operations, terminator⟩ ⟨final, [], terminator⟩ ∧
      Placed f (⟨final, [], terminator⟩ : Place V) ∧ Holding HasType f.valueTypes final ∧
      (∀ v, v ∉ operations.map (·.result) → readValue final v = readValue values v) ∧
      (Fresh operations → ∀ operation ∈ operations, Computed execute s final operation) := by
  induction operations generalizing values with
  | nil => exact ⟨values, .refl, hplaced, hholding, fun _ _ => rfl, fun _ => List.forall_mem_nil _⟩
  | cons operation operations ih =>
    obtain ⟨⟨hmem, hcall, hexecute⟩, hrest⟩ := List.forall_mem_cons.1 hsilent
    obtain ⟨xs, hxs⟩ := hplaced.operands hwell rfl
    have htyped := hholding.collect hxs
    obtain ⟨x, hx⟩ := hexecute xs s htyped
    obtain ⟨block, hblock, hoperation⟩ := List.mem_flatMap.1 hmem
    have hinserted := hholding.insert (mem_types_operation hblock hoperation)
      (hexecutes.staged f hf operation hmem xs s x s htyped hx)
    obtain ⟨final, hquiet, hplaced', hholding', hreads, hcomputed⟩ := ih (hplaced.bind rfl x) hinserted hrest
    have hread : ∀ v, v ∉ (operation :: operations).map (·.result) → readValue final v = readValue values v := by
      intro v hv
      rw [List.map_cons, List.mem_cons, not_or] at hv
      rw [hreads v hv.2, readValue_insert, if_neg hv.1]
    refine ⟨final, .head (deed_executed hcall hxs hx) hquiet, hplaced', hholding', hread, ?_⟩
    rintro ⟨hresult, hoperands, hfresh⟩
    refine List.forall_mem_cons.2 ⟨⟨xs, x, ?_, hx, ?_⟩, hcomputed hfresh⟩
    · rw [collect_eq_ok] at hxs ⊢
      exact forall₂_imp_of_mem hxs fun v y hv hy => (hread v (hoperands v hv)).trans hy
    · rw [hreads _ hresult, readValue_insert, if_pos rfl]

/-- **What is asked of execution**: unit constants, and the operations that make and read products and indirections and
make sums, neither trap nor change its state; a type of a unit constant has one value; and a product is the product of
its fields. -/
structure Lawful (HasType : V → TypeId → Prop) (f : StagedFunction) (execute : Execute V σ) : Prop where
  constants : ∀ operation ∈ f.operations, isUnitConstant operation = true → ∀ xs s,
    ∃ x, execute (instruction operation) xs s = (.ok x, s)
  units : ∀ t ∈ f.unitTypes, ∀ x y, HasType x t → HasType y t → x = y
  administrative : ∀ operation ∈ f.operations, isAdministrative operation = true → ∀ xs s,
    OperandsTyped HasType f.valueTypes operation.operands xs → ∃ x, execute (instruction operation) xs s = (.ok x, s)
  eta : ∀ make ∈ f.operations, make.kind = "product.make" → ∀ x, HasType x make.typeId → ∀ ys s,
    ys.length = make.operands.length →
      (∀ i y, ys[i]? = some y → ∃ project ∈ f.operations, project.kind = "product.project" ∧ project.field = some i ∧
        ∃ xs, xs.head? = some x ∧ execute (instruction project) xs s = (.ok y, s)) →
      execute (instruction make) ys s = (.ok x, s)

omit [Values V] in
theorem Lawful.silent_constant (h : Lawful HasType f execute) {operation : StagedOperation}
    (hmem : operation ∈ f.operations) (hunit : isUnitConstant operation = true) :
    Silent HasType f execute operation := by
  have hkind : operation.kind = "constant" := by
    rw [isUnitConstant, Bool.and_eq_true] at hunit
    exact beq_iff_eq.1 hunit.1
  exact ⟨hmem, by simp [isCall, hkind], fun xs s _ => h.constants operation hmem hunit xs s⟩

omit [Values V] in
theorem Lawful.silent_administrative (h : Lawful HasType f execute) {operation : StagedOperation}
    (hmem : operation ∈ f.operations) (hadministrative : isAdministrative operation = true) :
    Silent HasType f execute operation := by
  refine ⟨hmem, fun hcall => ?_, fun xs s hxs => h.administrative operation hmem hadministrative xs s hxs⟩
  simp only [isAdministrative, isCall, List.contains_iff_mem, List.mem_cons, List.not_mem_nil, or_false]
    at hadministrative hcall
  rcases hcall with hcall | hcall | hcall <;> simp [hcall] at hadministrative

omit [Values V] in
/-- **A value that is put together again** from the fields of another one is that value. -/
theorem Remade.read (hlaw : Lawful HasType f execute) (hnames : (f.valueTypes.map (·.1)).Nodup)
    {after : List StagedOperation} {v r : ℕ} (h : Remade f after v r) {final : Table ValueId V}
    (hholding : Holding HasType f.valueTypes final) (hmem : after ⊆ f.operations)
    (hcomputed : ∀ operation ∈ after, Computed execute s final operation) {x : V} (hr : readValue final r = .ok x) :
    readValue final v = .ok x := by
  induction h using Relation.ReflTransGen.head_induction_on with
  | refl => exact hr
  | head hstep _ ih =>
    obtain ⟨make, hmake, rfl, heta, htype⟩ := hstep
    obtain ⟨ys, y, hys, hy, hread⟩ := hcomputed make hmake
    have hlength := collect_length hys
    have hremade := hlaw.eta make (hmem hmake) heta.kind x (hholding.read hnames htype ih) ys s hlength ?_
    · rw [hy, Prod.mk.injEq, Except.ok.injEq] at hremade
      rw [hread, hremade.1]
    · intro i z hz
      obtain ⟨hi, rfl⟩ := List.getElem?_eq_some_iff.1 hz
      have hi' : i < make.operands.length := hlength ▸ hi
      have hentry : (make.operands[i], i) ∈ make.operands.zipIdx := List.mk_mem_zipIdx_iff_getElem?.2 (by simp [hi'])
      obtain ⟨project, hproject, hname, hkind, hfield, hhead⟩ := heta.fields _ hentry
      obtain ⟨xs, z, hxs, hz, hreadz⟩ := hcomputed project hproject
      have hget : readValue final make.operands[i] = .ok ys[i] := (collect_eq_ok.1 hys).get hi' hi
      rw [← show project.result = make.operands[i] from hname, hreadz, Except.ok.injEq] at hget
      refine ⟨project, hmem hproject, hkind, hfield, xs, ?_, hget ▸ hz⟩
      cases hoperands : project.operands with
      | nil =>
        rw [hoperands] at hhead
        cases hhead
      | cons first operands =>
        rw [hoperands] at hhead hxs
        cases hhead
        obtain ⟨x', hx', hrest⟩ := bind_eq_ok.1 hxs
        obtain ⟨xs', _, heq⟩ := bind_eq_ok.1 hrest
        cases heq
        exact congrArg some (Except.ok.inj (hx'.symm.trans ih))

/-! ### Indirections -/

/-- A type is an indirection to another one. -/
def IndirectTo (module : StagedModule) (t t' : TypeId) : Prop := module.types[t]? = some (.indirect t')

omit [Values V] in
/-- A value that the search takes for one of its own type is put together again from its fields: an indirection has
another type. -/
theorem remade_of_stems (htyped : StagedTyped module f) (hflat : ∀ t, ¬Relation.TransGen (IndirectTo module) t t)
    {after : List StagedOperation} (hmem : after ⊆ f.operations) {v r : ℕ} {t : TypeId}
    (h : Relation.ReflTransGen (Stems f after) v r) (hv : (v, t) ∈ f.valueTypes) (hr : (r, t) ∈ f.valueTypes) :
    Remade f after v r := by
  have hdeclared {operation : StagedOperation} (hoperation : operation ∈ f.operations) :
      (operation.result, operation.typeId) ∈ f.valueTypes := by
    obtain ⟨block, hblock, hin⟩ := List.mem_flatMap.1 hoperation
    exact mem_types_operation hblock hin
  have hchain : ∀ t', (v, t') ∈ f.valueTypes → (Remade f after v r ∧ t' = t) ∨
      Relation.TransGen (IndirectTo module) t' t := by
    clear hv
    induction h using Relation.ReflTransGen.head_induction_on with
    | refl => exact fun t' ht' => .inl ⟨.refl, type_unique htyped.names ht' hr⟩
    | @head v w hstep hrest ih =>
      intro t' ht'
      cases hstep with
      | @eta make _ mem fields type =>
        obtain rfl := type_unique htyped.names ht' (hdeclared (hmem mem))
        refine (ih _ type).imp_left fun ⟨hremade, heq⟩ => ⟨.head ⟨make, mem, rfl, fields, type⟩ hremade, heq⟩
      | @indirect operation _ mem kind operand =>
        obtain rfl := type_unique htyped.names ht' (hdeclared (hmem mem))
        have hdeclares : ∃ t'', (w, t'') ∈ f.valueTypes := by
          rcases Relation.ReflTransGen.cases_head hrest with rfl | ⟨_, hnext, _⟩
          · exact ⟨t, hr⟩
          · cases hnext with
            | eta mem _ _ => exact ⟨_, hdeclared (hmem mem)⟩
            | indirect mem _ _ => exact ⟨_, hdeclared (hmem mem)⟩
        obtain ⟨t'', ht''⟩ := hdeclares
        have hto : IndirectTo module operation.typeId t'' :=
          htyped.indirections operation (hmem mem) kind w operand t'' ht''
        rcases ih t'' ht'' with ⟨_, rfl⟩ | hmore
        · exact .inr (.single hto)
        · exact .inr (.head hto hmore)
  rcases hchain t hv with ⟨hremade, -⟩ | hcycle
  · exact hremade
  · exact absurd hcycle (hflat t)

/-! ### Callers that give results on -/

/-- A block that gives its argument on comes to return it. -/
theorem GivesArgument.quiet {target : ℕ} (h : GivesArgument f target) (s : σ) (values : Table ValueId V) (v : ValueId)
    (span : RuntimeSpan) {x : V} (hx : readValue values v = .ok x) :
    ∃ p : Place V, Quiet execute f s ⟨values, [], .branch target [v] span⟩ p ∧
      deed execute (p.state f) s = .ok (.returned x, s) := by
  have hxs : collect (readValue values) [v] = .ok [x] := by simp [collect, hx]
  induction h generalizing values v span with
  | @returned target block parameter span' hfind hparameters hoperations hterminator =>
    have henter := enter_of_find hfind hxs (by simp [hparameters])
    have hread : readValue (values.extend (block.names.zip [x])) parameter.value = .ok x := by
      simp [StagedBlock.names, hparameters, Table.extend, readValue_insert]
    refine ⟨entered values block [x], .single (deed_terminate (by simp [terminateDeed, henter])), ?_⟩
    rw [entered, hoperations, hterminator]
    exact deed_terminate (by simp [terminateDeed, returnDeed, hread])
  | @sent target next block parameter span' hfind hparameters hoperations hterminator _ ih =>
    have henter := enter_of_find hfind hxs (by simp [hparameters])
    have hread : readValue (values.extend (block.names.zip [x])) parameter.value = .ok x := by
      simp [StagedBlock.names, hparameters, Table.extend, readValue_insert]
    obtain ⟨p, hquiet, hreturn⟩ := ih _ parameter.value span' hread (by simp [collect, hread])
    refine ⟨p, .head (deed_terminate ?_) hquiet, hreturn⟩
    simp [terminateDeed, henter, entered, hoperations, hterminator]

omit [Values V] in
/-- A call of a typed function by itself: with as many arguments as there are parameters, and declared for its result. -/
theorem selfCall_typed (htyped : StagedTyped module f) (hfind : module.functions.find? (·.id == f.id) = some f)
    {call : StagedOperation} (hmem : call ∈ f.operations) (hself : f.callsItself call = true) :
    ∃ signature, module.signatures[f.signature]? = some signature ∧ call.typeId = signature.result ∧
      call.operands.length = signature.parameters.length := by
  obtain ⟨hkind, hfunction⟩ := callsItself_iff.1 hself
  have htarget : target call = .ok (.function f.id) := by simp [target, hkind, hfunction, demand]
  have hcalled := htyped.calls call hmem (by simp [isCall, hkind]) _ htarget
  generalize call.typeId = declared at hcalled ⊢
  cases hcalled with
  | request hnot => exact absurd rfl (hnot f.id)
  | function hnumber hsignature harguments =>
    rw [signatureOf, hfind] at hnumber
    cases hnumber
    exact ⟨_, hsignature, rfl, harguments.length_eq⟩

section Ends

variable (hwell : f.WellFormed) (hf : f ∈ module.functions) (hmodule : ModuleTyped module)
  (hexecutes : Executes HasType module execute) (hlaw : Lawful HasType f execute) {t : TypeId}
  (hresult : resultOf module f.signature = some t)

include hwell hf hmodule hexecutes hlaw hresult

/-- A block at its end that goes on in unit constants only comes to return a value of the result type. -/
theorem returns_of_ends {values : Table ValueId V} {terminator : StagedTerminator} (hend : EndsInUnit f terminator)
    (hplaced : Placed f ⟨values, [], terminator⟩) (hholding : Holding HasType f.valueTypes values) :
    ∃ (p : Place V) (y : V), Quiet execute f s ⟨values, [], terminator⟩ p ∧
      deed execute (p.state f) s = .ok (.returned y, s) ∧ HasType y t := by
  have hreturn {values : Table ValueId V} {v : ℕ} {span : RuntimeSpan}
      (hplaced : Placed f (⟨values, [], .return v span⟩ : Place V)) (hholding : Holding HasType f.valueTypes values) :
      ∃ y, deed execute ((⟨values, [], .return v span⟩ : Place V).state f) s = .ok (.returned y, s) ∧ HasType y t := by
    obtain ⟨y, hy⟩ := hplaced.uses hwell rfl (v := v) (by simp [StagedTerminator.uses])
    obtain ⟨_, block, _, harrives, _, hterminator, _⟩ := hplaced
    have htyped := hmodule.staged f hf
    refine ⟨y, deed_terminate (by simp [terminateDeed, returnDeed, hy]), ?_⟩
    exact hholding.read htyped.names (htyped.returns block harrives.mem v span hterminator t hresult) hy
  have hsent {target : ℕ} (h : UnitReturns f target) : ∀ {values : Table ValueId V} {arguments : List ℕ}
      {span : RuntimeSpan}, Placed f (⟨values, [], .branch target arguments span⟩ : Place V) →
      Holding HasType f.valueTypes values → ∃ (p : Place V) (y : V),
        Quiet execute f s ⟨values, [], .branch target arguments span⟩ p ∧
          deed execute (p.state f) s = .ok (.returned y, s) ∧ HasType y t := by
    have henters {block : StagedBlock} (hmem : block ∈ f.blocks)
        (hoperations : ∀ operation ∈ block.operations, isUnitConstant operation = true) {values : Table ValueId V}
        {arguments : List ℕ} {span : RuntimeSpan}
        (hplaced : Placed f (⟨values, [], .branch block.id arguments span⟩ : Place V))
        (hholding : Holding HasType f.valueTypes values) : ∃ final,
          Quiet execute f s ⟨values, [], .branch block.id arguments span⟩ ⟨final, [], block.terminator⟩ ∧
            Placed f (⟨final, [], block.terminator⟩ : Place V) ∧ Holding HasType f.valueTypes final := by
      have hedge : (block.id, arguments) ∈ (StagedTerminator.branch block.id arguments span).edges := by
        simp [StagedTerminator.edges]
      obtain ⟨xs, hxs⟩ := collect_of_reads fun v hv => hplaced.uses hwell rfl (v := v) hv
      obtain ⟨henter, hplaced'⟩ := hplaced.enters hwell rfl hedge hxs hmem rfl
      have henter : enter f values block.id arguments = .ok ((entered values block xs).state f) := henter
      obtain ⟨_, source, _, harrives, _, hterminator, _⟩ := hplaced
      rw [show StagedTerminator.branch block.id arguments span = source.terminator from hterminator.symm] at hedge
      have hstate := enter_typed hf (hmodule.staged f hf) hresult hholding harrives.mem hedge henter
      cases hstate with
      | running _ hentered =>
        obtain ⟨final, hquiet, hfinal, hholding', -⟩ := runs_silent hwell hf hexecutes hplaced' hentered
          fun operation hoperation => hlaw.silent_constant (List.mem_flatMap.2 ⟨block, hmem, hoperation⟩)
            (hoperations operation hoperation)
        have hdeed : terminateDeed f values (.branch block.id arguments span) =
            .ok (.on ((entered values block xs).state f)) := by simp [terminateDeed, henter]
        exact ⟨final, .head (deed_terminate hdeed) hquiet, hfinal, hholding'⟩
    induction h with
    | @returned block v span hmem hoperations hterminator =>
      intro values arguments span' hplaced hholding
      obtain ⟨final, hquiet, hplaced', hholding'⟩ := henters hmem hoperations hplaced hholding
      rw [hterminator] at hquiet hplaced'
      obtain ⟨y, hy, htype⟩ := hreturn hplaced' hholding'
      exact ⟨_, y, hquiet, hy, htype⟩
    | @sent block target arguments span hmem hoperations hterminator _ ih =>
      intro values arguments' span' hplaced hholding
      obtain ⟨final, hquiet, hplaced', hholding'⟩ := henters hmem hoperations hplaced hholding
      rw [hterminator] at hquiet hplaced'
      obtain ⟨p, y, hrest, hy, htype⟩ := ih hplaced' hholding'
      exact ⟨p, y, hquiet.trans hrest, hy, htype⟩
  rcases hend with ⟨v, span, rfl⟩ | ⟨target, arguments, span, rfl, hunit⟩
  · obtain ⟨y, hy, htype⟩ := hreturn hplaced hholding
    exact ⟨_, y, .refl, hy, htype⟩
  · exact hsent hunit hplaced hholding

/-- **What follows a call that was cut off** comes to return the value that the call gave. -/
theorem returns_of_afterwards (hflat : ∀ t, ¬Relation.TransGen (IndirectTo module) t t) {seen : List ℕ}
    {block : StagedBlock} (harrives : f.Arrives seen block) {before after : List StagedOperation}
    {call : StagedOperation} (hblock : block.operations = before ++ call :: after) (htype : call.typeId = t)
    (hfollows : Afterwards f call after block.terminator) {values : Table ValueId V}
    (hplaced : Placed f (⟨values, call :: after, block.terminator⟩ : Place V))
    (hholding : Holding HasType f.valueTypes values) {x : V} (hx : HasType x t) :
    ∃ p : Place V, Quiet execute f s ⟨values.insert call.result x, after, block.terminator⟩ p ∧
      deed execute (p.state f) s = .ok (.returned x, s) := by
  have hcall : (call.result, t) ∈ f.valueTypes := htype ▸ mem_types_operation harrives.mem (by simp [hblock])
  have hmem : after ⊆ f.operations := fun operation hoperation =>
    List.mem_flatMap.2 ⟨block, harrives.mem, by simp [hblock, hoperation]⟩
  have hbound : Placed f (⟨values.insert call.result x, after, block.terminator⟩ : Place V) := hplaced.bind rfl x
  have hinserted := hholding.insert hcall hx
  have htyped := hmodule.staged f hf
  have hfresh : Fresh (call :: after) := fresh_of_arrives hwell harrives hblock
  have hread : readValue (values.insert call.result x) call.result = .ok x := by simp [readValue_insert]
  generalize hterminator : block.terminator = terminator at *
  cases hfollows with
  | unit hunit hafter hend =>
    obtain ⟨final, hquiet, hplaced', hholding', -⟩ := runs_silent (s := s) hwell hf hexecutes hbound hinserted
      fun operation hoperation => hlaw.silent_constant (hmem hoperation) (hafter operation hoperation)
    obtain ⟨p, y, hrest, hy, hytype⟩ :=
      returns_of_ends (s := s) hwell hf hmodule hexecutes hlaw hresult hend hplaced' hholding'
    obtain rfl := hlaw.units t (htype ▸ hunit) x y hx hytype
    exact ⟨p, hquiet.trans hrest, hy⟩
  | @returned v span hafter hv =>
    obtain ⟨final, hquiet, -, hholding', hreads, hcomputed⟩ := runs_silent (s := s) hwell hf hexecutes hbound hinserted
      fun operation hoperation => hlaw.silent_administrative (hmem hoperation) (hafter operation hoperation)
    have hreturned := htyped.returns block harrives.mem v span hterminator t hresult
    have hremade := remade_of_stems htyped hflat hmem hv hreturned hcall
    have hvalue := hremade.read hlaw htyped.names hholding' hmem (hcomputed hfresh.2.2)
      ((hreads _ hfresh.1).trans hread)
    exact ⟨_, hquiet, deed_terminate (by simp [terminateDeed, returnDeed, hvalue])⟩
  | @sent target argument span hafter hargument htarget =>
    obtain ⟨final, hquiet, -, hholding', hreads, hcomputed⟩ := runs_silent (s := s) hwell hf hexecutes hbound hinserted
      fun operation hoperation => hlaw.silent_administrative (hmem hoperation) (hafter operation hoperation)
    have hvalue := hargument.read hlaw htyped.names hholding' hmem (hcomputed hfresh.2.2)
      ((hreads _ hfresh.1).trans hread)
    obtain ⟨p, hrest, hy⟩ := htarget.quiet s final argument span hvalue
    exact ⟨p, hquiet.trans hrest, hy⟩

/-- **The callers of a typed run give results on.** -/
theorem givesOn_of_typed (hfind : module.functions.find? (·.id == f.id) = some f) (hown : ReturnsOwn f)
    (hgives : BranchesGiveOn f) (hflat : ∀ t, ¬Relation.TransGen (IndirectTo module) t t) {rounds : ℕ}
    (hrecover : recoverDirectTailCalls rounds f = .ok g) {w : World (Run V) V σ}
    (htyped : w.machine.Typed HasType module) : GivesOn module execute f (Waits f g) w := by
  rintro state r p callers x hw hdeed hwaits
  obtain ⟨seen, block, before, call, harrives, hblock, hterminator, rfl, hself, hplaced, hfollows⟩ :=
    afterwards_of_waits hwell hown hgives hrecover hwaits
  rw [hw] at htyped
  obtain ⟨type, hstate, result', hawait, -⟩ := htyped
  have hx := deed_typed hmodule hexecutes hstate hdeed
  cases hx with
  | returned hx =>
    cases hawait with
    | bind _ hholding hcall =>
      have htypes := hmodule.staged f hf
      have hmem : call ∈ f.operations := List.mem_flatMap.2 ⟨block, harrives.mem, by simp [hblock]⟩
      have hdeclared : call.typeId = t := by
        obtain ⟨signature, hsignature, hcalled, -⟩ := selfCall_typed htypes hfind hmem hself
        rw [resultOf, hsignature] at hresult
        exact hcalled.trans (Option.some.inj hresult)
      obtain rfl : type = t := (type_unique htypes.names hcall
        (mem_types_operation harrives.mem (by simp [hblock]))).trans hdeclared
      rw [← hterminator] at hfollows hplaced
      obtain ⟨p', hquiet, hreturn⟩ := returns_of_afterwards (s := w.store) hwell hf hmodule hexecutes hlaw hresult hflat
        harrives hblock hdeclared hfollows hplaced hholding hx
      rw [hterminator] at hquiet
      exact ⟨p', hquiet.comes callers w.responses w.seen, hreturn⟩

end Ends

/-! ### Runs of a recovered function -/

section Typed

variable (hfind : module.functions.find? (·.id == f.id) = some f) (hmodule : ModuleTyped module)

include hfind hmodule

omit [Values V] in
theorem callsFit_of_typed : CallsFit f := by
  intro block hblock call hcall hself entry hentry hid
  have htypes := hmodule.staged f (List.mem_of_find?_eq_some hfind)
  obtain ⟨signature, hsignature, -, harguments⟩ :=
    selfCall_typed htypes hfind (List.mem_flatMap.2 ⟨block, hblock, hcall⟩) hself
  obtain ⟨signature', hsignature', hparameters⟩ := htypes.entry entry hentry hid
  obtain rfl := Option.some.inj (hsignature.symm.trans hsignature')
  rw [harguments, ← hparameters, List.length_map]

omit hfind [Values V] in
theorem signature_of_call {id : FunctionId} {xs : List V} {state : State V} (h : call module id xs = .ok (.ok state)) :
    ∃ number signature, signatureOf module id = some number ∧ module.signatures[number]? = some signature := by
  unfold call at h
  unfold signatureOf
  cases hstaged : module.functions.find? (·.id == id) with
  | some found =>
    rw [hstaged] at h
    obtain ⟨block, hblock, -⟩ := bind_eq_ok.1 h
    have hentry := demand_eq_ok.1 hblock
    obtain ⟨signature, hsignature, -⟩ := (hmodule.staged found (List.mem_of_find?_eq_some hstaged)).entry block
      (List.mem_of_find?_eq_some hentry) (by simpa using List.find?_some hentry)
    exact ⟨found.signature, signature, rfl, hsignature⟩
  | none =>
    rw [hstaged] at h
    cases hchecked : module.checkedFunctions.find? (·.id == id) with
    | none =>
      rw [hchecked] at h
      cases h
    | some found =>
      rw [hchecked] at h
      obtain ⟨c, hfetch, -⟩ := bind_eq_ok.1 h
      obtain ⟨signature, hsignature, -⟩ := (hmodule.checked found (List.mem_of_find?_eq_some hchecked)).entry c
        (demand_eq_ok.1 hfetch)
      exact ⟨found.signature, signature, rfl, hsignature⟩

end Typed

/-- A Boolean, or two of them. -/
inductive Datum where
  | flag (b : Bool)
  | pair (a b : Bool)

def Datum.type : Datum → TypeId
  | .flag _ => 0
  | .pair _ _ => 1

instance : Values Datum where
  condition
    | .flag b => .ok b
    | .pair _ _ => .error "condition is not Boolean"
  «matches» _ _ := false

def pairs : Execute Datum Unit := fun i xs s =>
  match i.operation.kind, i.operation.field, i.operation.value, xs with
  | "constant", _, some (.boolean b), _ => (.ok (.flag b), s)
  | "product.project", some 0, _, [.pair a _] => (.ok (.flag a), s)
  | "product.project", some 1, _, [.pair _ b] => (.ok (.flag b), s)
  | "product.make", _, _, [.flag a, .flag b] => (.ok (.pair a b), s)
  | _, _, _, _ => (.error "no operation on pairs", s)

/-- Puts `true` before the second component until the first one holds, and gives the result of the self call on with
its fields put together again. -/
def untilFirst : StagedFunction where
  id := 0
  name := "untilFirst"
  signature := 0
  reuse := none
  entryBlock := 0
  span := ⟨"until.blot", 0, 1⟩
  blocks := [
    { id := 0, parameters := [⟨0, 1, "plain", ⟨"until.blot", 0, 1⟩⟩],
      operations := [
        { kind := "product.project", result := 1, typeId := 0, operands := [0], ownership := "plain",
          span := ⟨"until.blot", 0, 1⟩, field := some 0 }],
      terminator := .conditional 1 1 [] 2 [] ⟨"until.blot", 0, 1⟩ },
    { id := 1, parameters := [], operations := [], terminator := .branch 3 [0] ⟨"until.blot", 0, 1⟩ },
    { id := 2, parameters := [],
      operations := [
        { kind := "constant", result := 2, typeId := 0, operands := [], ownership := "plain",
          span := ⟨"until.blot", 0, 1⟩, value := some (.boolean true) },
        { kind := "product.project", result := 3, typeId := 0, operands := [0], ownership := "plain",
          span := ⟨"until.blot", 0, 1⟩, field := some 1 },
        { kind := "product.make", result := 4, typeId := 1, operands := [2, 3], ownership := "plain",
          span := ⟨"until.blot", 0, 1⟩ },
        { kind := "call.direct", result := 5, typeId := 1, operands := [4], ownership := "plain",
          span := ⟨"until.blot", 0, 1⟩, function := some 0 },
        { kind := "product.project", result := 6, typeId := 0, operands := [5], ownership := "plain",
          span := ⟨"until.blot", 0, 1⟩, field := some 0 },
        { kind := "product.project", result := 7, typeId := 0, operands := [5], ownership := "plain",
          span := ⟨"until.blot", 0, 1⟩, field := some 1 },
        { kind := "product.make", result := 8, typeId := 1, operands := [6, 7], ownership := "plain",
          span := ⟨"until.blot", 0, 1⟩ }],
      terminator := .branch 3 [8] ⟨"until.blot", 0, 1⟩ },
    { id := 3, parameters := [⟨9, 1, "plain", ⟨"until.blot", 0, 1⟩⟩], operations := [],
      terminator := .return 9 ⟨"until.blot", 0, 1⟩ }]

def pairModule : StagedModule where
  types := [.boolean, .product "Pair" [⟨"0", 0⟩, ⟨"1", 0⟩]]
  signatures := [⟨[1], 1, []⟩]
  staticStores := []
  functions := [untilFirst]
  checkedFunctions := []
  capabilities := []
  links := []
  resumableRoots := []

theorem untilFirst_wellFormed : untilFirst.WellFormed := by
  refine ⟨by decide, by decide, by decide, by decide, fun seen block h => ?_⟩
  refine dominated_of_scope (fun id => if id = 1 ∨ id = 2 then [0, 1] else []) (by decide) ?_ (by decide) h
  decide

theorem pairModule_typed : ModuleTyped pairModule := by
  refine ⟨List.forall_mem_singleton.2 ?_, nofun⟩
  have hkinds : ∀ operation ∈ untilFirst.operations, operation.kind ≠ "indirect.make" := by decide
  refine ⟨by decide, ?_, ?_, ?_, ?_, fun operation hoperation hkind => absurd hkind (hkinds operation hoperation)⟩
  · have hentry : ∀ block ∈ untilFirst.blocks, block.id = untilFirst.entryBlock →
        block.parameters.map (·.typeId) = [1] := by decide
    exact fun block hblock hid => ⟨⟨[1], 1, []⟩, rfl, hentry block hblock hid⟩
  · decide
  · have hreturns : ∀ block ∈ untilFirst.blocks, block.terminator.targets = [] → ∀ v ∈ block.terminator.uses,
        (v, 1) ∈ untilFirst.valueTypes := by decide
    rintro block hblock v span hterminator t ht
    cases ht
    exact hreturns block hblock (by simp [hterminator, StagedTerminator.targets]) v
      (by simp [hterminator, StagedTerminator.uses])
  · have hcalls : ∀ operation ∈ untilFirst.operations, isCall operation = true →
        operation.kind = "call.direct" ∧ operation.function = some 0 ∧ operation.operands = [4] ∧
          operation.typeId = 1 := by decide
    intro operation hoperation hcall t ht
    obtain ⟨hkind, hfunction, hoperands, htype⟩ := hcalls operation hoperation hcall
    have htarget : target operation = .ok (.function 0) := by simp [target, hkind, hfunction, demand]
    cases htarget.symm.trans ht
    rw [hoperands, htype]
    exact @CallTyped.function _ _ _ 0 0 ⟨[1], 1, []⟩ rfl rfl (.cons (by decide) .nil)

theorem untilFirst_returnsOwn : ReturnsOwn untilFirst := by
  have hnone : ∀ block ∈ untilFirst.blocks, block.terminator.targets = [] → block.operations = [] := by decide
  rintro block hblock ⟨v, span, hterminator⟩ operation hoperation
  rw [hnone block hblock (by simp [hterminator, StagedTerminator.targets])] at hoperation
  cases hoperation

theorem untilFirst_givesOn : BranchesGiveOn untilFirst := by
  intro rounds k calls hk _ seen block harrives block' hblock' hid before call after target argument span hblock hself _
    _ hterminator
  rw [recoverUnitTailCalls, if_pos (by decide)] at hk
  cases hk
  have hwhere : ∀ other ∈ untilFirst.blocks, ∀ operation ∈ other.operations, untilFirst.callsItself operation = true →
      other.id = 2 := by decide
  have hid' := hwhere block' hblock' call (by simp [hblock]) hself
  obtain rfl := block_of_id untilFirst_wellFormed.ids hblock' harrives.mem hid
  refine ⟨rfl, ?_⟩
  have hthird : (untilFirst.blocks[2]) ∈ untilFirst.blocks := List.getElem_mem _
  obtain rfl := block_of_id untilFirst_wellFormed.ids hblock' hthird hid'
  cases hterminator
  refine ⟨?_, .returned (by rfl) rfl rfl rfl⟩
  rcases before with _ | ⟨b₀, _ | ⟨b₁, _ | ⟨b₂, _ | ⟨b₃, before⟩⟩⟩⟩
  · cases hblock
    exact absurd hself (by decide)
  · cases hblock
    exact absurd hself (by decide)
  · cases hblock
    exact absurd hself (by decide)
  · cases hblock
    exact .single ⟨_, List.mem_of_getElem? (i := 2) rfl, rfl, ⟨rfl, by decide, by decide⟩, by decide⟩
  · have hlast : before ++ call :: after = (untilFirst.blocks[2]).operations.drop 4 :=
      congrArg (List.drop 4) hblock.symm
    have hnot : ∀ operation ∈ (untilFirst.blocks[2]).operations.drop 4, ¬untilFirst.callsItself operation = true := by
      decide
    exact absurd hself (hnot call (hlast ▸ by simp))

theorem pairs_ok {i : Instruction} {xs : List Datum} {s s' : Unit} {x : Datum} (h : pairs i xs s = (.ok x, s')) :
    (i.operation.kind = "constant" ∧ x.type = 0) ∨
      (i.operation.kind = "product.project" ∧ ∃ a b, xs = [.pair a b] ∧
        (i.operation.field = some 0 ∧ x = .flag a ∨ i.operation.field = some 1 ∧ x = .flag b)) ∨
      i.operation.kind = "product.make" ∧ ∃ a b, xs = [.flag a, .flag b] ∧ x = .pair a b := by
  unfold pairs at h
  split at h
  · next hkind _ =>
    cases h
    exact .inl ⟨hkind, rfl⟩
  · next hkind hfield =>
    cases h
    exact .inr (.inl ⟨hkind, _, _, rfl, .inl ⟨hfield, rfl⟩⟩)
  · next hkind hfield =>
    cases h
    exact .inr (.inl ⟨hkind, _, _, rfl, .inr ⟨hfield, rfl⟩⟩)
  · next hkind =>
    cases h
    exact .inr (.inr ⟨hkind, _, _, rfl, rfl⟩)
  · cases h

theorem pairs_executes : Executes (fun x t => Datum.type x = t) pairModule pairs := by
  refine ⟨List.forall_mem_singleton.2 fun operation hoperation xs s x s' _ h => ?_, nofun⟩
  have htypes : ∀ operation ∈ untilFirst.operations,
      (operation.kind = "constant" → operation.typeId = 0) ∧
        (operation.kind = "product.project" → operation.typeId = 0) ∧
          (operation.kind = "product.make" → operation.typeId = 1) := by decide
  obtain ⟨hconstant, hproject, hmake⟩ := htypes operation hoperation
  rcases pairs_ok h with ⟨hkind, htype⟩ | ⟨hkind, a, b, -, ⟨-, rfl⟩ | ⟨-, rfl⟩⟩ | ⟨hkind, a, b, -, rfl⟩
  · exact htype.trans (hconstant hkind).symm
  · exact (hproject hkind).symm
  · exact (hproject hkind).symm
  · exact (hmake hkind).symm

theorem datum_pair {x : Datum} (h : x.type = 1) : ∃ a b, x = .pair a b := by
  cases x with
  | flag b => cases h
  | pair a b => exact ⟨a, b, rfl⟩

theorem datum_flag {x : Datum} (h : x.type = 0) : ∃ b, x = .flag b := by
  cases x with
  | flag b => exact ⟨b, rfl⟩
  | pair a b => cases h

theorem operands_typed {ids : List ValueId} {xs : List Datum} {ts : List TypeId}
    (h : OperandsTyped (fun x t => Datum.type x = t) untilFirst.valueTypes ids xs)
    (hids : List.Forall₂ (fun v t => ∀ p ∈ untilFirst.valueTypes, p.1 = v → p.2 = t) ids ts) :
    xs.map Datum.type = ts := by
  induction h generalizing ts with
  | nil =>
    cases hids
    rfl
  | cons hx _ ih =>
    cases hids with
    | cons hv hids =>
      obtain ⟨t, hmem, rfl⟩ := hx
      rw [List.map_cons, ih hids, ← hv _ hmem rfl]

theorem pairs_lawful : Lawful (fun x t => Datum.type x = t) untilFirst pairs := by
  have hnone : ∀ operation ∈ untilFirst.operations, ¬isUnitConstant operation = true := by decide
  have hunits : untilFirst.unitTypes = [] := by decide
  have hshapes : ∀ operation ∈ untilFirst.operations, isAdministrative operation = true →
      (operation.kind = "product.project" ∧ (operation.field = some 0 ∨ operation.field = some 1) ∧
        (operation.operands = [0] ∨ operation.operands = [5])) ∨
      operation.kind = "product.make" ∧ (operation.operands = [2, 3] ∨ operation.operands = [6, 7]) := by decide
  have hmakes : ∀ operation ∈ untilFirst.operations, operation.kind = "product.make" →
      operation.typeId = 1 ∧ operation.operands.length = 2 := by decide
  refine ⟨fun operation hoperation hunit => absurd hunit (hnone operation hoperation),
    fun t ht => absurd ht (by simp [hunits]), ?_, ?_⟩
  · intro operation hoperation hadministrative xs s hxs
    rcases hshapes operation hoperation hadministrative with ⟨hkind, hfield, hoperands⟩ | ⟨hkind, hoperands⟩
    · have htypes : xs.map Datum.type = [1] := operands_typed hxs (by
        rcases hoperands with hoperands | hoperands <;> rw [hoperands] <;> exact .cons (by decide) .nil)
      obtain ⟨x, rfl, hx⟩ := List.map_eq_singleton_iff.1 htypes
      obtain ⟨a, b, rfl⟩ := datum_pair hx
      rcases hfield with hfield | hfield
      · exact ⟨.flag a, by simp [pairs, instruction, hkind, hfield]⟩
      · exact ⟨.flag b, by simp [pairs, instruction, hkind, hfield]⟩
    · have htypes : xs.map Datum.type = [0, 0] := operands_typed hxs (by
        rcases hoperands with hoperands | hoperands <;> rw [hoperands] <;>
          exact .cons (by decide) (.cons (by decide) .nil))
      obtain ⟨x, xs, rfl, hx, hxs⟩ := List.map_eq_cons_iff.1 htypes
      obtain ⟨y, rfl, hy⟩ := List.map_eq_singleton_iff.1 hxs
      obtain ⟨a, rfl⟩ := datum_flag hx
      obtain ⟨b, rfl⟩ := datum_flag hy
      exact ⟨.pair a b, by simp [pairs, instruction, hkind]⟩
  · intro make hmake hkind x hx ys s hlength hfields
    obtain ⟨htype, htwo⟩ := hmakes make hmake hkind
    obtain ⟨a, b, rfl⟩ := datum_pair (hx.trans htype)
    obtain ⟨y, w, rfl⟩ := List.length_eq_two.1 (hlength.trans htwo)
    have hfield (i : ℕ) (z : Datum) (hz : [y, w][i]? = some z) : i = 0 ∧ z = .flag a ∨ i = 1 ∧ z = .flag b := by
      obtain ⟨project, -, hproject, hfield, xs, hhead, hread⟩ := hfields i z hz
      rcases pairs_ok hread with ⟨hconstant, -⟩ | ⟨-, c, d, rfl, hcase⟩ | ⟨hmade, -⟩
      · exact absurd (hproject.symm.trans hconstant) (by decide)
      · cases hhead
        simpa [instruction, hfield] using hcase
      · exact absurd (hproject.symm.trans hmade) (by decide)
    have hfirst : y = .flag a := by simpa using hfield 0 y rfl
    have hsecond : w = .flag b := by simpa using hfield 1 w rfl
    subst hfirst hsecond
    simp [pairs, instruction, hkind]

/-- The function that recovery makes of it. -/
def untilFirstRecovered : StagedFunction :=
  { untilFirst with
    blocks := untilFirst.blocks.map fun block =>
      if block.id = 2 then
        { block with
          operations := block.operations.take 3, terminator := .branch 0 [4] ⟨"until.blot", 0, 1⟩ }
      else block }

theorem recover_untilFirst {rounds : ℕ} (hrounds : 9 ≤ rounds) :
    recoverDirectTailCalls rounds untilFirst = .ok untilFirstRecovered := by
  have hunit : recoverUnitTailCalls rounds untilFirst = .ok untilFirst := by
    rw [recoverUnitTailCalls, if_pos (by decide)]
    rfl
  have hcalls : untilFirst.tailCalls rounds = .ok [5] := by
    have hnine : untilFirst.tailCalls 9 = .ok [5] := by decide
    simp only [StagedFunction.tailCalls, bind_eq_ok, demand_eq_ok] at hnine ⊢
    obtain ⟨search, hsearch, demands, hdemands, heq⟩ := hnine
    exact ⟨search, hsearch, demands, explore_mono hrounds hdemands, heq⟩
  have hcut : untilFirst.blocks.map (untilFirst.cut
      (fun operation => untilFirst.callsItself operation && [5].contains operation.result) tailCallSuffixReturns) =
        untilFirstRecovered.blocks := by decide
  simp only [recoverDirectTailCalls, hunit, hcalls, ok_bind, List.isEmpty_cons, Bool.false_eq_true, if_false, hcut]
  rfl

/-- A module with one function, of a Boolean. -/
def moduleOf (function : StagedFunction) : StagedModule where
  types := [.boolean, .unit]
  signatures := [⟨[0], 0, ["Console"]⟩, ⟨[0], 1, ["Console"]⟩]
  staticStores := []
  functions := [function]
  checkedFunctions := []
  capabilities := [⟨"Console", [⟨"show", 1, true⟩]⟩]
  links := []
  resumableRoots := []

/-! ### Calls that are no tail calls -/

/-- Calls itself with `true` when it is given `false`, shows the result on the console, and returns it. -/
def announce : StagedFunction where
  id := 0
  name := "announce"
  signature := 0
  reuse := none
  entryBlock := 0
  span := ⟨"announce.blot", 0, 1⟩
  blocks := [
    { id := 0, parameters := [⟨0, 0, "plain", ⟨"announce.blot", 0, 1⟩⟩], operations := [],
      terminator := .conditional 0 1 [] 2 [] ⟨"announce.blot", 0, 1⟩ },
    { id := 1, parameters := [], operations := [], terminator := .branch 3 [0] ⟨"announce.blot", 0, 1⟩ },
    { id := 2, parameters := [],
      operations := [
        { kind := "constant", result := 1, typeId := 0, operands := [], ownership := "plain",
          span := ⟨"announce.blot", 0, 1⟩, value := some (.boolean true) },
        { kind := "call.direct", result := 2, typeId := 0, operands := [1], ownership := "plain",
          span := ⟨"announce.blot", 0, 1⟩, function := some 0 }],
      terminator := .branch 3 [2] ⟨"announce.blot", 0, 1⟩ },
    { id := 3, parameters := [⟨3, 0, "plain", ⟨"announce.blot", 0, 1⟩⟩],
      operations := [
        { kind := "host.call", result := 4, typeId := 1, operands := [3], ownership := "plain",
          span := ⟨"announce.blot", 0, 1⟩, capability := some "Console", operation := some "show" }],
      terminator := .return 3 ⟨"announce.blot", 0, 1⟩ }]

/-- The function that recovery makes of it: the result of the inner call is no longer shown. -/
def announceRecovered : StagedFunction :=
  { announce with
    blocks := announce.blocks.map fun block =>
      if block.id = 2 then
        { block with
          operations := block.operations.take 1, terminator := .branch 0 [1] ⟨"announce.blot", 0, 1⟩ }
      else block }

def constants : Execute WireConstant Unit := fun i _ s =>
  match i.operation.value with
  | some value => (.ok value, s)
  | none => (.error "no constant", s)

theorem announce_wellFormed : announce.WellFormed := by
  refine ⟨by decide, by decide, by decide, by decide, fun seen block h => ?_⟩
  exact dominated_of_scope (fun id => if id = 1 ∨ id = 2 then [0] else []) (by decide) (by decide) (by decide) h

theorem announce_typed : ModuleTyped (moduleOf announce) := by
  refine ⟨List.forall_mem_singleton.2 ?_, nofun⟩
  have hkinds : ∀ operation ∈ announce.operations, operation.kind ≠ "indirect.make" := by decide
  refine ⟨by decide, ?_, by decide, ?_, ?_,
    fun operation hoperation hkind => absurd hkind (hkinds operation hoperation)⟩
  · have hentry : ∀ block ∈ announce.blocks, block.id = announce.entryBlock →
        block.parameters.map (·.typeId) = [0] := by decide
    exact fun block hblock hid => ⟨⟨[0], 0, ["Console"]⟩, rfl, hentry block hblock hid⟩
  · have hreturns : ∀ block ∈ announce.blocks, ∀ v ∈ block.terminator.uses, (v, 0) ∈ announce.valueTypes := by decide
    rintro block hblock v span hterminator t ht
    cases ht
    exact hreturns block hblock v (by simp [hterminator, StagedTerminator.uses])
  · have hcalls : ∀ operation ∈ announce.operations, isCall operation = true →
        (target operation = .ok (.function 0) ∧ operation.operands = [1] ∧ operation.typeId = 0) ∨
          target operation = .ok (.host "Console" "show") ∧ operation.typeId = 1 :=
      List.forall_mem_cons.2 ⟨fun hcall => absurd hcall (by decide), List.forall_mem_cons.2
        ⟨fun _ => .inl ⟨rfl, rfl, rfl⟩, List.forall_mem_singleton.2 fun _ => .inr ⟨rfl, rfl⟩⟩⟩
    intro operation hoperation hcall t ht
    rcases hcalls operation hoperation hcall with ⟨htarget, hoperands, htype⟩ | ⟨htarget, htype⟩
    · cases htarget.symm.trans ht
      rw [hoperands, htype]
      exact @CallTyped.function _ _ _ 0 0 ⟨[0], 0, ["Console"]⟩ rfl rfl (.cons (by decide) .nil)
    · cases htarget.symm.trans ht
      rw [htype]
      exact .request (fun _ h => by cases h) rfl

def shown (times : ℕ) : Outcome WireConstant :=
  (List.replicate times (.request (.host "Console" "show") [.boolean true]) ++ [.returned (.boolean true)], .finished)

end Blot.Suspension.Direct
