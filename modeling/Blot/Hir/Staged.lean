import Blot.Suspension.Graph

/-!
# Staged functions (`hir.rs`)

Functions as blocks of operations with a terminator each.  A staged module also carries functions that were lowered
and checked before.
-/

namespace Blot.Hir

structure StagedOperation where
  kind : RuntimeWord
  result : ℕ
  typeId : ℕ
  operands : List ℕ
  ownership : RuntimeWord
  span : RuntimeSpan
  value : Option WireConstant := none
  update : Option RuntimeWord := none
  case : Option ℕ := none
  capability : Option String := none
  operation : Option String := none
  operator : Option RuntimeWord := none
  conversion : Option RuntimeWord := none
  lane : Option ℕ := none
  field : Option ℕ := none
  function : Option ℕ := none
  signature : Option ℕ := none
  staticStore : Option ℕ := none
  deriving DecidableEq, Repr

structure RuntimeSwitchCase where
  value : WireConstant
  target : ℕ
  deriving DecidableEq, Repr

inductive StagedTerminator where
  | branch (target : ℕ) (arguments : List ℕ) (span : RuntimeSpan)
  | conditional (condition consequent : ℕ) (consequentArguments : List ℕ) (alternate : ℕ)
      (alternateArguments : List ℕ) (span : RuntimeSpan)
  | switch (selector : ℕ) (cases : List RuntimeSwitchCase) (fallback : ℕ) (span : RuntimeSpan)
  | return (value : ℕ) (span : RuntimeSpan)
  | trap (message : String) (span : RuntimeSpan)
  deriving DecidableEq, Repr

structure StagedBlockParameter where
  value : ℕ
  typeId : ℕ
  ownership : RuntimeWord
  span : RuntimeSpan
  deriving DecidableEq, Repr

structure StagedBlock where
  id : ℕ
  parameters : List StagedBlockParameter
  operations : List StagedOperation
  terminator : StagedTerminator
  deriving DecidableEq, Repr

structure StagedFunction where
  id : ℕ
  name : String
  signature : ℕ
  reuse : Option RuntimeWord
  entryBlock : ℕ
  blocks : List StagedBlock
  span : RuntimeSpan
  deriving DecidableEq, Repr

def StagedFunction.operations (function : StagedFunction) : List StagedOperation :=
  function.blocks.flatMap (·.operations)

structure StagedModule where
  types : List RuntimeType
  signatures : List RuntimeSignature
  staticStores : List RuntimeStaticStore
  functions : List StagedFunction
  checkedFunctions : List Suspension.Function
  capabilities : List RuntimeCapability
  links : List RuntimeLink
  resumableRoots : List ℕ

def StagedModule.tables (module : StagedModule) : Tables where
  types := module.types
  signatures := module.signatures
  staticStores := module.staticStores
  capabilities := module.capabilities
  links := module.links

/-- The blocks that a terminator leads to (`runtime_terminator_targets`). -/
def StagedTerminator.targets : StagedTerminator → List ℕ
  | .branch target _ _ => [target]
  | .conditional _ consequent _ alternate _ _ => [consequent, alternate]
  | .switch _ cases fallback _ => cases.map (·.target) ++ [fallback]
  | .return _ _ => []
  | .trap _ _ => []

end Blot.Hir
