import Blot.Hir.Flow
import Blot.Support.Worklist
import Blot.Suspension.Validation

/-!
# Recovery of tail calls (`recover_direct_tail_calls`, `recover_unit_tail_calls`)

A self call whose value is given back becomes a branch to the entry block.  Which values are given back is searched
for from the returns, against the flow; the searches are worklists with a bound on their rounds.
-/

namespace Blot.Hir

open Blot.Support
open Blot.Suspension (Failure)

def splitLast {A : Type} (p : A → Bool) : List A → Option (List A × A × List A)
  | [] => none
  | a :: l =>
    match splitLast p l with
    | some (before, found, after) => some (a :: before, found, after)
    | none => if p a then some ([], a, l) else none

theorem splitLast_eq_some {A : Type} {p : A → Bool} {l before after : List A} {found : A}
    (h : splitLast p l = some (before, found, after)) : l = before ++ found :: after ∧ p found = true := by
  induction l generalizing before with
  | nil => cases h
  | cons a l ih =>
    rw [splitLast] at h
    split at h
    · next before' found' after' hl =>
      cases h
      obtain ⟨rfl, hp⟩ := ih hl
      exact ⟨rfl, hp⟩
    · split at h
      · next hp =>
        cases h
        exact ⟨rfl, hp⟩
      · cases h

def StagedBlock.types (block : StagedBlock) : Table ℕ ℕ :=
  block.parameters.map (fun p => (p.value, p.typeId)) ++ block.operations.map fun o => (o.result, o.typeId)

def StagedFunction.callsItself (function : StagedFunction) (operation : StagedOperation) : Bool :=
  operation.kind == "call.direct" && operation.function == some function.id

/-- A block is cut at its last operation with a property, if what follows lets it: the call becomes a branch to the
entry block. -/
def StagedFunction.cut (function : StagedFunction) (isTail : StagedOperation → Bool)
    (returns : List StagedOperation → StagedTerminator → Bool) (block : StagedBlock) : StagedBlock :=
  match splitLast isTail block.operations with
  | some (before, call, after) =>
    if returns after block.terminator then
      { block with operations := before, terminator := .branch function.entryBlock call.operands call.span }
    else block
  | none => block

/-! ### Unit results -/

def isUnitConstant (operation : StagedOperation) : Bool :=
  operation.kind == "constant" && operation.value == some .unit

def StagedFunction.unitTypes (function : StagedFunction) : List ℕ :=
  ((function.blocks.flatMap (·.operations)).filter isUnitConstant).map (·.typeId)

def StagedFunction.unitValues (function : StagedFunction) : List ℕ :=
  ((function.blocks.flatMap (·.types)).filter fun p => p.2 ∈ function.unitTypes).map (·.1)

def StagedFunction.unitPredecessors (function : StagedFunction) (target : ℕ) : List ℕ :=
  (function.blocks.filter fun block =>
    block.operations.all isUnitConstant &&
      match block.terminator with
      | .branch target' _ _ => target' == target
      | _ => false).map (·.id)

def StagedFunction.unitReturning (function : StagedFunction) : List ℕ :=
  (function.blocks.filter fun block =>
    block.operations.all isUnitConstant &&
      match block.terminator with
      | .return value _ => function.unitValues.contains value
      | _ => false).map (·.id)

def recoverUnitTailCalls (rounds : ℕ) (function : StagedFunction) : Except Failure StagedFunction := do
  if function.unitTypes.isEmpty then return function
  let unitReturns ← demand (explore function.unitPredecessors rounds function.unitReturning.reverse []) .unfinished
  let returnsUnit : StagedTerminator → Bool
    | .return value _ => function.unitValues.contains value
    | .branch target _ _ => unitReturns.contains target
    | _ => false
  let isTail operation := function.callsItself operation && function.unitTypes.contains operation.typeId
  -- unit has one value, but to discard the result must not discard pending work
  let returns after terminator := returnsUnit terminator && after.all isUnitConstant
  pure { function with blocks := function.blocks.map (function.cut isTail returns) }

/-! ### Demanded results -/

structure TailDemand where
  value : ℕ
  sumCase : Option ℕ
  deriving DecidableEq, Repr

def StagedFunction.recordIncomingArguments (function : StagedFunction) (target : ℕ) (arguments : List ℕ)
    (incoming : Table ℕ (List ℕ)) : Except Failure (Table ℕ (List ℕ)) := do
  let block ← demand (function.blocks.find? (·.id == target)) .panicked
  require (block.parameters.length == arguments.length) .panicked
  pure ((block.parameters.zip arguments).foldl
    (fun incoming p => incoming.insert p.1.value ((incoming.lookup p.1.value).getD [] ++ [p.2])) incoming)

def StagedFunction.recordBlock (function : StagedFunction) (incoming : Table ℕ (List ℕ)) (block : StagedBlock) :
    Except Failure (Table ℕ (List ℕ)) :=
  match block.terminator with
  | .branch target arguments _ => function.recordIncomingArguments target arguments incoming
  | .conditional _ consequent consequentArguments alternate alternateArguments _ => do
    let incoming ← function.recordIncomingArguments consequent consequentArguments incoming
    function.recordIncomingArguments alternate alternateArguments incoming
  | _ => pure incoming

/-- The source of the fields of a product so far, with one field more. -/
def etaSource (definitions : Table ℕ StagedOperation) (source : Option ℕ) (entry : ℕ × ℕ) : Option (Option ℕ) := do
  let projection ← definitions.lookup entry.1
  if projection.kind = "product.project" ∧ projection.field = some entry.2 then do
    let projected ← projection.operands.head?
    match source with
    | some source => if source = projected then some (some source) else none
    | none => some (some projected)
  else none

/-- `product_eta_source`: the product whose fields an operation puts together again -/
def productEtaSource (operation : StagedOperation) (definitions : Table ℕ StagedOperation) (types : Table ℕ ℕ) :
    Option ℕ := do
  if operation.kind ≠ "product.make" ∨ operation.operands = [] then none else
  let found ← operation.operands.zipIdx.foldlM (etaSource definitions) none
  let source ← found
  if types.lookup source = some operation.typeId then some source else none

structure TailSearch where
  incoming : Table ℕ (List ℕ)
  definitions : Table ℕ StagedOperation
  productAliases : Table ℕ ℕ

def StagedFunction.tailSearch (function : StagedFunction) : Except Failure TailSearch := do
  let incoming ← function.blocks.foldlM function.recordBlock []
  let definitions := Table.extend [] ((function.blocks.flatMap (·.operations)).map fun o => (o.result, o))
  let types := Table.extend [] (function.blocks.flatMap (·.types))
  let productAliases := definitions.filterMap fun p =>
    (productEtaSource p.2 definitions types).map fun source => (p.2.result, source)
  pure ⟨incoming, definitions, productAliases⟩

def StagedOperation.passesOn (operation : StagedOperation) (sumCase : Option ℕ) : List TailDemand :=
  match sumCase with
  | none =>
    if operation.kind = "indirect.load" ∨ operation.kind = "indirect.make" then
      (operation.operands.head?.map fun value => ⟨value, none⟩).toList
    else if operation.kind = "sum.payload" then
      match operation.operands.head?, operation.case with
      | some value, some sumCase => [⟨value, some sumCase⟩]
      | _, _ => []
    else []
  | some sumCase =>
    if operation.kind = "sum.make" ∧ operation.case = some sumCase then
      (operation.operands.head?.map fun value => ⟨value, none⟩).toList
    else []

def TailSearch.origin (search : TailSearch) (demand : TailDemand) : List TailDemand ⊕ Option StagedOperation :=
  match if demand.sumCase = none then search.productAliases.lookup demand.value else none with
  | some source => .inl [⟨source, none⟩]
  | none =>
    match search.incoming.lookup demand.value with
    | some arguments => .inl (arguments.map fun argument => ⟨argument, demand.sumCase⟩)
    | none => .inr (search.definitions.lookup demand.value)

def TailSearch.next (search : TailSearch) (demand : TailDemand) : List TailDemand :=
  match search.origin demand with
  | .inl demands => demands
  | .inr (some operation) => operation.passesOn demand.sumCase
  | .inr none => []

def TailSearch.tailCall (search : TailSearch) (function : StagedFunction) (demand : TailDemand) : Option ℕ :=
  match search.origin demand with
  | .inr (some operation) =>
    if demand.sumCase = none ∧ function.callsItself operation then some operation.result else none
  | _ => none

def StagedFunction.returned (function : StagedFunction) : List TailDemand :=
  function.blocks.filterMap fun block =>
    match block.terminator with
    | .return value _ => some ⟨value, none⟩
    | _ => none

def tailCallSuffixReturns (after : List StagedOperation) (terminator : StagedTerminator) : Bool :=
  after.all (fun operation =>
      ["indirect.make", "product.make", "product.project", "sum.make"].contains operation.kind) &&
    match terminator with
    | .return _ _ => true
    | .branch _ arguments _ => arguments.length == 1
    | _ => false

def StagedFunction.tailCalls (rounds : ℕ) (function : StagedFunction) : Except Failure (List ℕ) := do
  let search ← function.tailSearch
  let demands ← demand (explore search.next rounds function.returned.reverse []) .unfinished
  pure (demands.filterMap (search.tailCall function))

def recoverDirectTailCalls (rounds : ℕ) (function : StagedFunction) : Except Failure StagedFunction := do
  let function ← recoverUnitTailCalls rounds function
  let tailCalls ← function.tailCalls rounds
  if tailCalls.isEmpty then return function
  let isTail operation := function.callsItself operation && tailCalls.contains operation.result
  pure { function with blocks := function.blocks.map (function.cut isTail tailCallSuffixReturns) }

/-! ### Recovery finishes -/

section Finishes

variable {f : StagedFunction}

theorem mem_unitPredecessors {target id : ℕ} (h : id ∈ f.unitPredecessors target) : id ∈ f.blocks.map (·.id) := by
  obtain ⟨block, hblock, rfl⟩ := List.mem_map.1 h
  exact List.mem_map_of_mem (List.mem_filter.1 hblock).1

/-- The search for blocks that return the unit value finishes. -/
theorem recoverUnitTailCalls_finishes (f : StagedFunction) :
    ∃ g n, ∀ rounds ≥ n, recoverUnitTailCalls rounds f = .ok g := by
  have hclosed : ∀ id ∈ f.blocks.map (·.id), f.unitPredecessors id ⊆ f.blocks.map (·.id) :=
    fun _ _ _ hid => mem_unitPredecessors hid
  have hwidth : ∀ id ∈ f.blocks.map (·.id), (f.unitPredecessors id).length ≤ f.blocks.length := by
    intro id _
    rw [StagedFunction.unitPredecessors, List.length_map]
    exact List.length_filter_le _ _
  have hstack : f.unitReturning.reverse ⊆ f.blocks.map (·.id) := by
    intro id hid
    obtain ⟨block, hblock, rfl⟩ := List.mem_map.1 (List.mem_reverse.1 hid)
    exact List.mem_map_of_mem (List.mem_filter.1 hblock).1
  obtain ⟨unitReturns, n, hn⟩ := explore_eventually hclosed hwidth hstack []
  have hok : ∃ g, recoverUnitTailCalls n f = .ok g := by
    unfold recoverUnitTailCalls
    split
    · exact ⟨f, rfl⟩
    · rw [hn n (Nat.le_refl n)]
      exact ⟨_, rfl⟩
  obtain ⟨g, hg⟩ := hok
  refine ⟨g, n, fun rounds hrounds => hg ▸ ?_⟩
  unfold recoverUnitTailCalls
  rw [hn rounds hrounds, hn n (Nat.le_refl n)]

/-- Every branch finds its block, with as many parameters as it has arguments. -/
def StagedFunction.BranchesFit (f : StagedFunction) : Prop :=
  ∀ block ∈ f.blocks, ∀ edge ∈ block.terminator.edges, ∃ successor,
    f.blocks.find? (·.id == edge.1) = some successor ∧ successor.parameters.length = edge.2.length

theorem StagedFunction.WellFormed.branchesFit (h : f.WellFormed) : f.BranchesFit := by
  intro block hblock edge hedge
  obtain ⟨successor, hmem, hid, hlength⟩ := h.edges block hblock edge hedge
  exact ⟨successor, hid ▸ find_block h.ids hmem, hlength⟩

theorem recordIncomingArguments_ok {target : ℕ} {arguments : List ℕ} {block : StagedBlock}
    (hfind : f.blocks.find? (·.id == target) = some block) (hlength : block.parameters.length = arguments.length)
    (incoming : Table ℕ (List ℕ)) :
    ∃ incoming', f.recordIncomingArguments target arguments incoming = .ok incoming' := by
  simp [StagedFunction.recordIncomingArguments, hfind, hlength, demand, require]

theorem recordBlock_ok (h : f.BranchesFit) {block : StagedBlock} (hblock : block ∈ f.blocks)
    (incoming : Table ℕ (List ℕ)) : ∃ incoming', f.recordBlock incoming block = .ok incoming' := by
  have hedges := h block hblock
  unfold StagedFunction.recordBlock
  cases hterminator : block.terminator with
  | branch target arguments span =>
    obtain ⟨successor, hfind, hlength⟩ := hedges (target, arguments) (by simp [hterminator, StagedTerminator.edges])
    exact recordIncomingArguments_ok hfind hlength incoming
  | conditional condition consequent consequentArguments alternate alternateArguments span =>
    obtain ⟨first, hfind, hlength⟩ :=
      hedges (consequent, consequentArguments) (by simp [hterminator, StagedTerminator.edges])
    obtain ⟨second, hfind', hlength'⟩ :=
      hedges (alternate, alternateArguments) (by simp [hterminator, StagedTerminator.edges])
    obtain ⟨incoming', hincoming⟩ := recordIncomingArguments_ok hfind hlength incoming
    simp only [hincoming, ok_bind]
    exact recordIncomingArguments_ok hfind' hlength' incoming'
  | _ => exact ⟨incoming, rfl⟩

/-- The arguments of all blocks are recorded. -/
theorem recordBlocks_ok (h : f.BranchesFit) : ∃ incoming, f.blocks.foldlM f.recordBlock [] = .ok incoming := by
  have hfold : ∀ (blocks : List StagedBlock) (incoming : Table ℕ (List ℕ)), blocks ⊆ f.blocks →
      ∃ incoming', blocks.foldlM f.recordBlock incoming = .ok incoming' := by
    intro blocks
    induction blocks with
    | nil => exact fun incoming _ => ⟨incoming, rfl⟩
    | cons block blocks ih =>
      intro incoming hsub
      obtain ⟨hblock, hblocks⟩ := List.cons_subset.1 hsub
      obtain ⟨next, hnext⟩ := recordBlock_ok h hblock incoming
      obtain ⟨result, hresult⟩ := ih next hblocks
      exact ⟨result, foldlM_cons_eq_ok.2 ⟨next, hnext, hresult⟩⟩
  exact hfold f.blocks [] fun _ hblock => hblock

theorem tailSearch_ok (h : f.BranchesFit) : ∃ search, f.tailSearch = .ok search := by
  obtain ⟨incoming, hincoming⟩ := recordBlocks_ok h
  unfold StagedFunction.tailSearch
  rw [hincoming]
  exact ⟨_, rfl⟩

/-- The values that the search can come to. -/
def TailSearch.values (search : TailSearch) : List ℕ :=
  search.incoming.flatMap (·.2) ++ search.productAliases.map (·.2) ++ search.definitions.flatMap (·.2.operands)

def TailSearch.cases (search : TailSearch) : List (Option ℕ) := none :: search.definitions.map (·.2.case)

/-- **What a demand leads to**: known values, with a case that an operation has, or that the demand had. -/
theorem TailSearch.next_subset (search : TailSearch) {demand : TailDemand} (hcase : demand.sumCase ∈ search.cases) :
    ∀ d ∈ search.next demand, d.value ∈ search.values ∧ d.sumCase ∈ search.cases := by
  intro d hd
  unfold TailSearch.next at hd
  split at hd
  · next demands horigin =>
    unfold TailSearch.origin at horigin
    split at horigin
    · next source hsource =>
      cases horigin
      cases List.mem_singleton.1 hd
      split at hsource
      · refine ⟨?_, List.mem_cons_self ..⟩
        exact List.mem_append_left _ (List.mem_append_right _ (List.mem_map.2 ⟨_, Table.mem_of_lookup hsource, rfl⟩))
      · cases hsource
    · split at horigin
      · next arguments hincoming =>
        cases horigin
        obtain ⟨argument, hargument, rfl⟩ := List.mem_map.1 hd
        refine ⟨?_, hcase⟩
        exact List.mem_append_left _ (List.mem_append_left _
          (List.mem_flatMap.2 ⟨_, Table.mem_of_lookup hincoming, hargument⟩))
      · cases horigin
  · next operation horigin =>
    have hmem : ∃ v, (v, operation) ∈ search.definitions := by
      unfold TailSearch.origin at horigin
      split at horigin
      · cases horigin
      · split at horigin
        · cases horigin
        · exact ⟨demand.value, Table.mem_of_lookup (Sum.inr.inj horigin)⟩
    obtain ⟨v, hmem⟩ := hmem
    have hoperand : ∀ value, operation.operands.head? = some value → value ∈ search.values := fun value hvalue =>
      List.mem_append_right _ (List.mem_flatMap.2 ⟨_, hmem, List.mem_of_head? hvalue⟩)
    have hfirst : ∀ c ∈ search.cases,
        d ∈ (operation.operands.head?.map fun value => (⟨value, c⟩ : TailDemand)).toList →
          d.value ∈ search.values ∧ d.sumCase ∈ search.cases := by
      intro c hc hd
      cases hhead : operation.operands.head? with
      | none => simp [hhead] at hd
      | some value =>
        simp only [hhead, Option.map_some, Option.toList_some, List.mem_singleton] at hd
        subst hd
        exact ⟨hoperand value hhead, hc⟩
    have hnone : none ∈ search.cases := List.mem_cons_self ..
    unfold StagedOperation.passesOn at hd
    split at hd
    · split at hd
      · exact hfirst none hnone hd
      · split at hd
        · split at hd
          · next value sumCase hhead hsum =>
            cases List.mem_singleton.1 hd
            exact ⟨hoperand value hhead, List.mem_cons_of_mem _ (List.mem_map.2 ⟨_, hmem, hsum⟩)⟩
          · cases hd
        · cases hd
    · split at hd
      · exact hfirst none hnone hd
      · cases hd
  · cases hd

theorem TailSearch.next_length (search : TailSearch) (demand : TailDemand) :
    (search.next demand).length ≤ search.values.length + 1 := by
  unfold TailSearch.next
  split
  · next demands horigin =>
    unfold TailSearch.origin at horigin
    split at horigin
    · cases horigin
      simp
    · split at horigin
      · next arguments hincoming =>
        cases horigin
        have hsub : arguments.length ≤ (search.incoming.flatMap (·.2)).length := by
          obtain ⟨before, after, ht, _⟩ := List.lookup_eq_some_iff.1 hincoming
          rw [ht]
          simp
          omega
        simp only [TailSearch.values, List.length_map, List.length_append]
        omega
      · cases horigin
  · next operation _ =>
    have hfirst : ∀ c, (operation.operands.head?.map fun value => (⟨value, c⟩ : TailDemand)).toList.length ≤ 1 := by
      intro c
      cases operation.operands.head? <;> simp
    have hone : (operation.passesOn demand.sumCase).length ≤ 1 := by
      unfold StagedOperation.passesOn
      repeat' split
      all_goals first
        | exact hfirst none
        | simp
    omega
  · simp

theorem tailCalls_finishes (h : f.BranchesFit) : ∃ calls n, ∀ rounds ≥ n, f.tailCalls rounds = .ok calls := by
  obtain ⟨search, hsearch⟩ := tailSearch_ok h
  let whole : List TailDemand :=
    (f.returned.map (·.value) ++ search.values).flatMap fun value => search.cases.map fun c => ⟨value, c⟩
  have hmem : ∀ d : TailDemand, d ∈ whole ↔
      d.value ∈ f.returned.map (·.value) ++ search.values ∧ d.sumCase ∈ search.cases := by
    intro d
    constructor
    · intro hd
      obtain ⟨value, hvalue, hd⟩ := List.mem_flatMap.1 hd
      obtain ⟨c, hc, rfl⟩ := List.mem_map.1 hd
      exact ⟨hvalue, hc⟩
    · rintro ⟨hvalue, hc⟩
      exact List.mem_flatMap.2 ⟨d.value, hvalue, List.mem_map.2 ⟨d.sumCase, hc, rfl⟩⟩
  have hclosed : ∀ d ∈ whole, search.next d ⊆ whole := by
    intro d hd d' hd'
    obtain ⟨hvalue, hcase⟩ := search.next_subset ((hmem d).1 hd).2 d' hd'
    exact (hmem d').2 ⟨List.mem_append_right _ hvalue, hcase⟩
  have hstack : f.returned.reverse ⊆ whole := by
    intro d hd
    have hreturned := List.mem_reverse.1 hd
    refine (hmem d).2 ⟨List.mem_append_left _ (List.mem_map_of_mem hreturned), ?_⟩
    obtain ⟨block, _, hblock⟩ := List.mem_filterMap.1 hreturned
    split at hblock
    · cases hblock
      exact List.mem_cons_self ..
    · cases hblock
  obtain ⟨demands, n, hn⟩ := explore_eventually hclosed (fun d _ => search.next_length d) hstack []
  refine ⟨demands.filterMap (search.tailCall f), n, fun rounds hrounds => ?_⟩
  simp [StagedFunction.tailCalls, hsearch, hn rounds hrounds, demand]

end Finishes

end Blot.Hir
