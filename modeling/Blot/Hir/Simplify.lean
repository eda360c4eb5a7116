import Blot.Hir.TailCalls

/-!
# Simplification of control flow (`simplify_runtime_function`)

The loop after tail-call recovery, without the folding of known sum switches: Boolean branches that are joined and
branched on again are folded, parameters that nobody reads are removed, and blocks that only forward are passed over.
Blocks are found by their index.  The worklists and the loop have a bound on their rounds.
-/

namespace Blot.Hir

open Blot.Support
open Blot.Suspension (Failure)

/-! ### Boolean branch round trips -/

/-- `branch_boolean`: the constant that a block sends on, and where it sends it -/
def branchBoolean (function : StagedFunction) (id : ℕ) : Option (Bool × ℕ) := do
  let block ← function.blocks[id]?
  match block.operations, block.terminator with
  | [operation], .branch target arguments _ =>
    match operation.kind, operation.value with
    | "constant", some (.boolean value) => if arguments = [operation.result] then some (value, target) else none
    | _, _ => none
  | _, _ => none

def foldedBooleanTerminator (function : StagedFunction) (block : StagedBlock) : Option StagedTerminator :=
  match block.terminator with
  | .conditional condition consequent [] alternate [] span => do
    let (consequentValue, consequentJoin) ← branchBoolean function consequent
    let (alternateValue, alternateJoin) ← branchBoolean function alternate
    if consequentJoin ≠ alternateJoin ∨ consequentValue = alternateValue then none else
    let join ← function.blocks[consequentJoin]?
    match join.parameters, join.operations, join.terminator with
    | [parameter], [], .conditional joinedCondition joinedConsequent joinedConsequentArguments joinedAlternate
        joinedAlternateArguments _ =>
      if joinedCondition ≠ parameter.value then none
      else if consequentValue then
        some (.conditional condition joinedConsequent joinedConsequentArguments joinedAlternate joinedAlternateArguments
          span)
      else
        some (.conditional condition joinedAlternate joinedAlternateArguments joinedConsequent joinedConsequentArguments
          span)
    | _, _, _ => none
  | _ => none

/-- The state of the folding: the function, the predecessors that are known of each block, and the queue. -/
structure Folding where
  function : StagedFunction
  predecessors : Table ℕ (List ℕ)
  pending : List ℕ
  queued : List ℕ

def recordPredecessor (id : ℕ) (predecessors : Table ℕ (List ℕ)) (target : ℕ) : Table ℕ (List ℕ) :=
  predecessors.insert target ((predecessors.lookup target).getD [] ++ [id])

def Folding.start (function : StagedFunction) : Folding where
  function := function
  predecessors := function.blocks.foldl
    (fun predecessors block => block.terminator.targets.foldl (recordPredecessor block.id) predecessors) []
  pending := function.blocks.map (·.id)
  queued := function.blocks.map (·.id)

def enqueue (queue : List ℕ × List ℕ) (id : ℕ) : List ℕ × List ℕ :=
  if id ∈ queue.2 then queue else (queue.1 ++ [id], id :: queue.2)

def StagedFunction.setTerminator (function : StagedFunction) (id : ℕ) (terminator : StagedTerminator) :
    StagedFunction :=
  { function with blocks := function.blocks.modify id fun block => { block with terminator := terminator } }

def Folding.step (folding : Folding) : Except Failure (Folding ⊕ StagedFunction) :=
  match folding.pending with
  | [] => pure (.inr folding.function)
  | id :: pending => do
    let queued := folding.queued.filter (· ≠ id)
    let block ← demand folding.function.blocks[id]? .panicked
    match foldedBooleanTerminator folding.function block with
    | none => pure (.inl { folding with pending, queued })
    | some terminator =>
      let predecessors := terminator.targets.foldl (recordPredecessor id) folding.predecessors
      let function := folding.function.setTerminator id terminator
      let queue := (id :: (predecessors.lookup id).getD []).foldl enqueue (pending, queued)
      pure (.inl ⟨function, predecessors, queue.1, queue.2⟩)

def Folding.run : ℕ → Folding → Except Failure StagedFunction
  | 0, _ => .error .unfinished
  | rounds + 1, folding => do
    match ← folding.step with
    | .inl folding => Folding.run rounds folding
    | .inr function => pure function

def foldBooleanBranchRoundtrips (rounds : ℕ) (function : StagedFunction) : Except Failure StagedFunction :=
  (Folding.start function).run rounds

/-! ### Unused parameters -/

def StagedTerminator.reads : StagedTerminator → List ℕ
  | .conditional condition _ _ _ _ _ => [condition]
  | .switch selector _ _ _ => [selector]
  | .return value _ => [value]
  | .branch _ _ _ => []
  | .trap _ _ => []

def StagedFunction.read (function : StagedFunction) : List ℕ :=
  function.blocks.flatMap fun block => block.operations.flatMap (·.operands) ++ block.terminator.reads

def dropPlaces {A : Type} (places : List ℕ) (l : List A) : List A :=
  (l.zipIdx.filter fun entry => entry.2 ∉ places).map (·.1)

def StagedBlock.deadPlaces (live : List ℕ) (block : StagedBlock) : List ℕ :=
  (block.parameters.zipIdx.filter fun entry => entry.1.value ∉ live).map (·.2)

def StagedFunction.removedPlaces (function : StagedFunction) (live : List ℕ) : Table ℕ (List ℕ) :=
  ((function.blocks.filter (·.id ≠ function.entryBlock)).map fun block => (block.id, block.deadPlaces live)).filter
    fun entry => entry.2 ≠ []

def keptArguments {A : Type} (removed : Table ℕ (List ℕ)) (target : ℕ) (arguments : List A) : List A :=
  match removed.lookup target with
  | some places => dropPlaces places arguments
  | none => arguments

def StagedTerminator.keep (removed : Table ℕ (List ℕ)) : StagedTerminator → StagedTerminator
  | .branch target arguments span => .branch target (keptArguments removed target arguments) span
  | .conditional condition consequent consequentArguments alternate alternateArguments span =>
    .conditional condition consequent (keptArguments removed consequent consequentArguments) alternate
      (keptArguments removed alternate alternateArguments) span
  | terminator => terminator

/-- `remove_unused_block_parameters`; what is sent to parameters is recorded as in tail-call recovery -/
def removeUnusedBlockParameters (rounds : ℕ) (function : StagedFunction) : Except Failure StagedFunction := do
  let incoming ← function.blocks.foldlM function.recordBlock []
  -- the queue starts from a set, whose order does not matter
  let live ← demand (explore (fun value => (incoming.lookup value).getD []) rounds function.read []) .unfinished
  let removed := function.removedPlaces live
  if removed = [] then return function
  pure { function with
    blocks := function.blocks.map fun block =>
      { block with
        parameters := keptArguments removed block.id block.parameters, terminator := block.terminator.keep removed } }

/-! ### Forwarding blocks -/

def StagedFunction.forwards (function : StagedFunction) (block : StagedBlock) : Option (ℕ × ℕ) :=
  if block.id = function.entryBlock ∨ block.operations ≠ [] then none
  else
    match block.terminator with
    | .branch target arguments _ => if block.names = arguments then some (block.id, target) else none
    | _ => none

def StagedFunction.forwarding (function : StagedFunction) : Table ℕ ℕ := function.blocks.filterMap function.forwards

/-- The end of a chain of forwarding blocks; a block that was visited before ends it. -/
def resolveFrom (forwarding : Table ℕ ℕ) : ℕ → List ℕ → ℕ → ℕ
  | 0, _, target => target
  | bound + 1, visited, target =>
    match forwarding.lookup target with
    | some next => if target ∈ visited then target else resolveFrom forwarding bound (target :: visited) next
    | none => target

/-- `resolve`; each turn visits another forwarding block -/
def resolve (forwarding : Table ℕ ℕ) (target : ℕ) : ℕ := resolveFrom forwarding (forwarding.length + 1) [] target

def StagedFunction.successors (function : StagedFunction) (id : ℕ) : List ℕ :=
  match function.blocks[id]? with
  | some block => block.terminator.targets.map (resolve function.forwarding)
  | none => []

def StagedTerminator.retarget (rename : ℕ → Except Failure ℕ) : StagedTerminator → Except Failure StagedTerminator
  | .branch target arguments span => do
    let target ← rename target
    pure (.branch target arguments span)
  | .conditional condition consequent consequentArguments alternate alternateArguments span => do
    let consequent ← rename consequent
    let alternate ← rename alternate
    pure (.conditional condition consequent consequentArguments alternate alternateArguments span)
  | .switch selector cases fallback span => do
    let cases ← collect (fun c => do
      let target ← rename c.target
      pure (⟨c.value, target⟩ : RuntimeSwitchCase)) cases
    let fallback ← rename fallback
    pure (.switch selector cases fallback span)
  | terminator => pure terminator

/-- One round of the loop of `simplify_runtime_function`: another function to go on with, or the result. -/
def simplifyRound (rounds : ℕ) (function : StagedFunction) : Except Failure (StagedFunction ⊕ StagedFunction) := do
  let function ← foldBooleanBranchRoundtrips rounds function
  let function ← removeUnusedBlockParameters rounds function
  let forwarding := function.forwarding
  let reachable ← demand (explore function.successors rounds [resolve forwarding function.entryBlock] []) .unfinished
  require (reachable.all (· < function.blocks.length)) .panicked
  if forwarding = [] ∧ reachable.length = function.blocks.length then return .inr function
  let blocks := function.blocks.filter fun block => block.id ∈ reachable ∧ (forwarding.lookup block.id).isNone
  let ids : Table ℕ ℕ := (blocks.map (·.id)).zipIdx
  let rename (target : ℕ) : Except Failure ℕ := demand (ids.lookup target) .panicked
  let blocks ← collect (fun block => do
    let id ← rename block.id
    let terminator ← block.terminator.retarget fun target => rename (resolve forwarding target)
    pure { block with id, terminator }) blocks
  let entryBlock ← rename function.entryBlock
  pure (.inl { function with blocks, entryBlock })

/-- The loop of `simplify_runtime_function`. -/
def simplifyLoop (rounds : ℕ) : ℕ → StagedFunction → Except Failure StagedFunction
  | 0, _ => .error .unfinished
  | n + 1, function => do
    match ← simplifyRound rounds function with
    | .inl function => simplifyLoop rounds n function
    | .inr function => pure function

end Blot.Hir
