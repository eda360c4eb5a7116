import Blot.Hir.TailResults
import Blot.Suspension.Placed
import Blot.Suspension.Safety

/-!
# Types of the values of a run

A staged module is well typed where its operations, its edges and its calls fit the types that the functions declare.
Then each activation of a run holds values of the types of its function, and gives back a value of its result type.

* `StagedModule.Typed` — the module, with its staged and its checked functions;
* `Run.Typed` — what the activations of a run hold, and what each caller waits for;
* `typed_of_comes` — every run from typed arguments, whose host answers with values of the declared types.
-/

namespace Blot.Suspension

open Blot.Hir Blot.Support Blot.Support.Lockstep

def Function.valueTypes (f : Function) : Table ValueId TypeId :=
  (f.continuations.flatMap (·.definitions)).map fun d => (d.value, d.typeId)

namespace Direct

variable {V σ : Type}

/-! ### Typed modules -/

def resultOf (module : StagedModule) (signature : SignatureId) : Option TypeId :=
  (module.signatures[signature]?).map (·.result)

/-- A call of a function takes arguments of its parameters' types and gives its result; a request, what the tables
say of its response. -/
inductive CallTyped (module : StagedModule) (types : Table ValueId TypeId) (arguments : List ValueId) :
    CallTarget → TypeId → Prop where
  | function {id : FunctionId} {number : SignatureId} {signature : RuntimeSignature}
      (hnumber : signatureOf module id = some number) (hsignature : module.signatures[number]? = some signature)
      (harguments : List.Forall₂ (fun v t => (v, t) ∈ types) arguments signature.parameters) :
      CallTyped module types arguments (.function id) signature.result
  | request {target : CallTarget} {type : TypeId} (hnot : ∀ id, target ≠ .function id)
      (hresponse : responseType module.tables target = some type) : CallTyped module types arguments target type

structure StagedTyped (module : StagedModule) (f : StagedFunction) : Prop where
  names : (f.valueTypes.map (·.1)).Nodup
  entry : ∀ block ∈ f.blocks, block.id = f.entryBlock → ∃ signature, module.signatures[f.signature]? = some signature ∧
    block.parameters.map (·.typeId) = signature.parameters
  edges : ∀ block ∈ f.blocks, ∀ edge ∈ block.terminator.edges, ∀ successor ∈ f.blocks, successor.id = edge.1 →
    List.Forall₂ (fun v (p : StagedBlockParameter) => (v, p.typeId) ∈ f.valueTypes) edge.2 successor.parameters
  returns : ∀ block ∈ f.blocks, ∀ v span, block.terminator = .return v span → ∀ t,
    resultOf module f.signature = some t → (v, t) ∈ f.valueTypes
  calls : ∀ operation ∈ f.operations, isCall operation = true → ∀ t, target operation = .ok t →
    CallTyped module f.valueTypes operation.operands t operation.typeId
  indirections : ∀ operation ∈ f.operations, operation.kind = "indirect.make" → ∀ v, operation.operands.head? = some v →
    ∀ t, (v, t) ∈ f.valueTypes → module.types[operation.typeId]? = some (.indirect t)

/-- The arguments of an edge have the types of the parameters; `result` is the type of what a call gives. -/
def EdgeTyped (f : Function) (result : Option TypeId) (edge : Edge) : Prop :=
  ∀ successor, f.continuations[edge.target]? = some successor → ∀ p ∈ successor.parameters.zip edge.arguments,
    match p.2 with
    | .value v => (v, p.1.typeId) ∈ f.valueTypes
    | .result => result = some p.1.typeId

structure CheckedTyped (module : StagedModule) (f : Function) : Prop where
  names : (f.valueTypes.map (·.1)).Nodup
  entry : ∀ c, f.continuations[f.entry]? = some c → ∃ signature, module.signatures[f.signature]? = some signature ∧
    c.parameters.map (·.typeId) = signature.parameters
  edges : ∀ c ∈ f.continuations, (∀ target signature arguments next suspends,
      c.transition ≠ .call target signature arguments next suspends) →
    ∀ edge ∈ c.transition.edges, EdgeTyped f none edge
  returns : ∀ c ∈ f.continuations, ∀ v, c.transition = .return v → ∀ t, resultOf module f.signature = some t →
    (v, t) ∈ f.valueTypes
  calls : ∀ c ∈ f.continuations, ∀ target signature arguments next suspends,
    c.transition = .call target signature arguments next suspends →
      ∃ type, CallTyped module f.valueTypes arguments target type ∧ EdgeTyped f (some type) next

structure ModuleTyped (module : StagedModule) : Prop where
  staged : ∀ f ∈ module.functions, StagedTyped module f
  checked : ∀ f ∈ module.checkedFunctions, CheckedTyped module f

section Typed

variable (HasType : V → TypeId → Prop)

/-- The operands of an operation, with the types that the function declares for them. -/
abbrev OperandsTyped (types : Table ValueId TypeId) : List ValueId → List V → Prop :=
  List.Forall₂ fun v x => ∃ t, (v, t) ∈ types ∧ HasType x t

/-- Execution gives a value of the declared type, from operands of their declared types. -/
structure Executes (module : StagedModule) (execute : Execute V σ) : Prop where
  staged : ∀ f ∈ module.functions, ∀ operation ∈ f.operations, ∀ xs s x s',
    OperandsTyped HasType f.valueTypes operation.operands xs → execute (instruction operation) xs s = (.ok x, s') →
      HasType x operation.typeId
  checked : ∀ f ∈ module.checkedFunctions, ∀ c ∈ f.continuations, ∀ i ∈ c.instructions, ∀ xs s x s',
    OperandsTyped HasType f.valueTypes i.operands xs → execute i xs s = (.ok x, s') → HasType x i.definition.typeId

/-! ### Typed runs -/

/-- What an activation holds has the types that its function declares. -/
def Holding (types : Table ValueId TypeId) (values : Table ValueId V) : Prop :=
  ∀ v x, readValue values v = .ok x → ∃ t, (v, t) ∈ types ∧ HasType x t

def Position.types : Position → Table ValueId TypeId
  | .staged f _ _ => f.valueTypes
  | .checked f _ _ => f.valueTypes

/-- A position in a function of the module that gives back a value of type `result`. -/
inductive Position.Within (module : StagedModule) (result : TypeId) : Position → Prop where
  | staged {f : StagedFunction} {block : StagedBlock} {operations : List StagedOperation} (hf : f ∈ module.functions)
      (hresult : resultOf module f.signature = some result) (hblock : block ∈ f.blocks)
      (hoperations : operations ⊆ block.operations) :
      Position.Within module result (.staged f operations block.terminator)
  | checked {f : Function} {c : Continuation} {instructions : List Instruction} (hf : f ∈ module.checkedFunctions)
      (hresult : resultOf module f.signature = some result) (hc : c ∈ f.continuations)
      (hinstructions : instructions ⊆ c.instructions) :
      Position.Within module result (.checked f instructions c.transition)

/-- An activation of result type `result` that waits for a value of type `type`. -/
inductive Await.Typed (module : StagedModule) (values : Table ValueId V) (type result : TypeId) : Await → Prop where
  | bind {v : ValueId} {position : Position} (hwithin : position.Within module result)
      (hholding : Holding HasType position.types values) (hv : (v, type) ∈ position.types) :
      Await.Typed module values type result (.bind v position)
  | edge {f : Function} {edge : Edge} (hf : f ∈ module.checkedFunctions)
      (hresult : resultOf module f.signature = some result) (hholding : Holding HasType f.valueTypes values)
      (hedge : EdgeTyped f (some type) edge) : Await.Typed module values type result (.edge f edge)

def CallersTyped (module : StagedModule) : TypeId → List (Table ValueId V × Await) → Prop
  | _, [] => True
  | type, frame :: callers =>
    ∃ result, Await.Typed HasType module frame.1 type result frame.2 ∧ CallersTyped module result callers

inductive State.Typed (module : StagedModule) (result : TypeId) : State V → Prop where
  | running {values : Table ValueId V} {position : Position} (hwithin : position.Within module result)
      (hholding : Holding HasType position.types values) : State.Typed module result (.running values position)

/-- A run whose activations hold and await values of their types. -/
def Run.Typed (module : StagedModule) (run : Run V) : Prop :=
  ∃ result, State.Typed HasType module result run.state ∧ CallersTyped HasType module result run.callers

/-- What an activation does has the types it should have. -/
inductive Deed.Typed (module : StagedModule) (result : TypeId) : Deed V → Prop where
  | on {state : State V} (h : State.Typed HasType module result state) : Deed.Typed module result (.on state)
  | call {id : FunctionId} {number : SignatureId} {signature : RuntimeSignature} {xs : List V}
      {values : Table ValueId V} {await : Await} (hnumber : signatureOf module id = some number)
      (hsignature : module.signatures[number]? = some signature) (hxs : List.Forall₂ HasType xs signature.parameters)
      (hawait : Await.Typed HasType module values signature.result result await) :
      Deed.Typed module result (.call (.function id) xs values await)
  | request {target : CallTarget} {type : TypeId} {xs : List V} {values : Table ValueId V} {await : Await}
      (hnot : ∀ id, target ≠ .function id) (hresponse : responseType module.tables target = some type)
      (hawait : Await.Typed HasType module values type result await) :
      Deed.Typed module result (.call target xs values await)
  | returned {x : V} (h : HasType x result) : Deed.Typed module result (.returned x)
  | trapped (message : String) : Deed.Typed module result (.trapped message)
  | refused (message : String) : Deed.Typed module result (.refused message)

end Typed

variable {HasType : V → TypeId → Prop} {module : StagedModule} {types : Table ValueId TypeId}
variable {values : Table ValueId V}

/-! ### What an activation holds -/

theorem type_unique (hnames : (types.map (·.1)).Nodup) {v : ValueId} {t t' : TypeId} (h : (v, t) ∈ types)
    (h' : (v, t') ∈ types) : t = t' :=
  congrArg Prod.snd (List.inj_on_of_nodup_map hnames h h' rfl)

theorem Holding.read (h : Holding HasType types values) (hnames : (types.map (·.1)).Nodup) {v : ValueId} {t : TypeId}
    (hv : (v, t) ∈ types) {x : V} (hx : readValue values v = .ok x) : HasType x t := by
  obtain ⟨t', hv', ht'⟩ := h v x hx
  exact type_unique hnames hv hv' ▸ ht'

theorem Holding.insert (h : Holding HasType types values) {v : ValueId} {t : TypeId} (hv : (v, t) ∈ types) {x : V}
    (hx : HasType x t) : Holding HasType types (values.insert v x) := by
  intro v' y hy
  rw [readValue_insert] at hy
  split at hy
  · next heq =>
    cases hy
    exact ⟨t, heq ▸ hv, hx⟩
  · exact h v' y hy

theorem Holding.extend (h : Holding HasType types values) {names : List ValueId} {xs : List V}
    (hxs : ∀ p ∈ names.zip xs, ∃ t, (p.1, t) ∈ types ∧ HasType p.2 t) :
    Holding HasType types (values.extend (names.zip xs)) := by
  generalize names.zip xs = entries at hxs
  induction entries generalizing values with
  | nil => exact h
  | cons p entries ih =>
    obtain ⟨⟨t, hv, ht⟩, hentries⟩ := List.forall_mem_cons.1 hxs
    exact ih (h.insert hv ht) hentries

theorem Holding.collect (h : Holding HasType types values) {ids : List ValueId} {xs : List V}
    (hxs : Support.collect (readValue values) ids = .ok xs) : OperandsTyped HasType types ids xs :=
  (collect_eq_ok.1 hxs).imp fun v x hx => h v x hx

theorem Holding.collect_typed (h : Holding HasType types values) (hnames : (types.map (·.1)).Nodup)
    {ids : List ValueId} {ts : List TypeId} (hids : List.Forall₂ (fun v t => (v, t) ∈ types) ids ts) {xs : List V}
    (hxs : Support.collect (readValue values) ids = .ok xs) : List.Forall₂ HasType xs ts := by
  induction hids generalizing xs with
  | nil =>
    cases hxs
    exact .nil
  | cons hv _ ih =>
    obtain ⟨x, hx, hrest⟩ := bind_eq_ok.1 hxs
    obtain ⟨xs, hcollect, heq⟩ := bind_eq_ok.1 hrest
    cases heq
    exact .cons (h.read hnames hv hx) (ih hcollect)

theorem Holding.parameters (h : Holding HasType types values) {parameters : List (ValueId × TypeId)}
    (hsub : parameters ⊆ types) {xs : List V} (hxs : List.Forall₂ HasType xs (parameters.map (·.2))) :
    Holding HasType types (values.extend ((parameters.map (·.1)).zip xs)) := by
  refine h.extend fun p hp => ?_
  clear h
  induction parameters generalizing xs with
  | nil => cases hp
  | cons parameter parameters ih =>
    cases hxs with
    | cons hx hxs =>
      obtain ⟨hmem, hsub⟩ := List.cons_subset.1 hsub
      rcases List.mem_cons.1 hp with rfl | hp
      · exact ⟨parameter.2, hmem, hx⟩
      · exact ih hsub hxs hp

theorem holding_nil : Holding HasType types ([] : Table ValueId V) := by
  intro v x hx
  cases hx

theorem mem_types_parameter {f : StagedFunction} {block : StagedBlock} (hblock : block ∈ f.blocks) :
    block.parameters.map (fun p => (p.value, p.typeId)) ⊆ f.valueTypes := fun _ hp =>
  List.mem_flatMap.2 ⟨block, hblock, List.mem_append_left _ hp⟩

theorem mem_types_operation {f : StagedFunction} {block : StagedBlock} (hblock : block ∈ f.blocks)
    {operation : StagedOperation} (hoperation : operation ∈ block.operations) :
    (operation.result, operation.typeId) ∈ f.valueTypes :=
  List.mem_flatMap.2 ⟨block, hblock, List.mem_append_right _ (List.mem_map.2 ⟨operation, hoperation, rfl⟩)⟩

theorem mem_types_definition {f : Function} {c : Continuation} (hc : c ∈ f.continuations) {d : Definition}
    (hd : d ∈ c.definitions) : (d.value, d.typeId) ∈ f.valueTypes :=
  List.mem_map.2 ⟨d, List.mem_flatMap.2 ⟨c, hc, hd⟩, rfl⟩

/-! ### Edges and calls -/

section Edges

variable {f : StagedFunction} {result : TypeId}

theorem typed_entered (hf : f ∈ module.functions) (hresult : resultOf module f.signature = some result)
    {block : StagedBlock} (hblock : block ∈ f.blocks) (hholding : Holding HasType f.valueTypes values) {xs : List V}
    (hxs : List.Forall₂ HasType xs (block.parameters.map (·.typeId))) :
    State.Typed HasType module result ((entered values block xs).state f) := by
  refine .running (.staged hf hresult hblock fun _ h => h) ?_
  have hparameters := hholding.parameters (mem_types_parameter hblock)
    (show List.Forall₂ HasType xs _ by simpa [Function.comp_def] using hxs)
  simpa [Function.comp_def, entered, StagedBlock.names, Place.position, Position.types] using hparameters

theorem enter_typed (hf : f ∈ module.functions) (htyped : StagedTyped module f)
    (hresult : resultOf module f.signature = some result) (hholding : Holding HasType f.valueTypes values)
    {block : StagedBlock} (hblock : block ∈ f.blocks) {edge : ℕ × List ℕ} (hedge : edge ∈ block.terminator.edges)
    {state : State V} (h : enter f values edge.1 edge.2 = .ok state) : State.Typed HasType module result state := by
  obtain ⟨found, hfind, hfound⟩ := bind_eq_ok.1 h
  obtain ⟨xs, hxs, hentered⟩ := bind_eq_ok.1 hfound
  have hmem := List.mem_of_find?_eq_some (demand_eq_ok.1 hfind)
  have hid : found.id = edge.1 := by simpa using List.find?_some (demand_eq_ok.1 hfind)
  split at hentered
  · cases hentered
    refine typed_entered hf hresult hmem hholding (hholding.collect_typed htyped.names ?_ hxs)
    exact List.forall₂_map_right_iff.2 (htyped.edges block hblock edge hedge found hmem hid)
  · cases hentered

end Edges

theorem holding_bound {given : Option V} {entries : List (Definition × Option V)} {store : Table ValueId V}
    (hholding : Holding HasType types values)
    (hentries : ∀ p ∈ entries, (p.1.value, p.1.typeId) ∈ types ∧ ∀ x, p.2.or given = some x → HasType x p.1.typeId)
    (h : entries.foldlM (bindParameter given) values = .ok store) : Holding HasType types store := by
  induction entries generalizing values with
  | nil =>
    cases foldlM_nil_eq_ok.1 h
    exact hholding
  | cons p entries ih =>
    obtain ⟨next, hnext, hstore⟩ := foldlM_cons_eq_ok.1 h
    obtain ⟨⟨hdeclared, htyped⟩, hentries⟩ := List.forall_mem_cons.1 hentries
    obtain ⟨x, hx, hinsert⟩ := bind_eq_ok.1 hnext
    cases hinsert
    exact ih (hholding.insert hdeclared (htyped x (demand_eq_ok.1 hx))) hentries hstore

/-- An edge of a checked function binds values of the types of the parameters. -/
theorem follow_typed {f : Function} {result : TypeId} (hf : f ∈ module.checkedFunctions)
    (hresult : resultOf module f.signature = some result) (hholding : Holding HasType f.valueTypes values)
    (hnames : (f.valueTypes.map (·.1)).Nodup) {type : Option TypeId} {edge : Edge} (hedge : EdgeTyped f type edge)
    {given : Option V} (hgiven : ∀ x t, given = some x → type = some t → HasType x t) {state : State V}
    (h : follow f values edge given = .ok state) : State.Typed HasType module result state := by
  obtain ⟨found, hfetch, hfound⟩ := bind_eq_ok.1 h
  obtain ⟨arguments, harguments, hfollow⟩ := bind_eq_ok.1 hfound
  obtain ⟨store, hstore, hstate⟩ := bind_eq_ok.1 hfollow
  cases hstate
  have hget : f.continuations[edge.target]? = some found := demand_eq_ok.1 hfetch
  have hc : found ∈ f.continuations := List.mem_of_getElem? hget
  refine .running (.checked hf hresult hc fun _ h => h) ?_
  have hread := collect_eq_ok.1 harguments
  -- each parameter is declared, and what is bound to it has its type
  have hentries : ∀ p ∈ found.parameters.zip arguments, (p.1.value, p.1.typeId) ∈ f.valueTypes ∧
      ∀ x, p.2.or given = some x → HasType x p.1.typeId := by
    intro p hp
    obtain ⟨i, hi, rfl⟩ := List.getElem_of_mem hp
    rw [List.getElem_zip]
    have hi' : i < found.parameters.length ∧ i < arguments.length := by simpa using hi
    have hargument : i < edge.arguments.length := hread.length_eq ▸ hi'.2
    have hmem : (found.parameters[i], edge.arguments[i]) ∈ found.parameters.zip edge.arguments :=
      List.mem_iff_getElem.2 ⟨i, by simp [hi'.1, hargument], by simp⟩
    have htyped := hedge found hget _ hmem
    have hvalue : readArgument values edge.arguments[i] = .ok arguments[i] := hread.get hargument hi'.2
    refine ⟨mem_types_definition hc (List.mem_append_left _ (List.getElem_mem hi'.1)), fun x hx => ?_⟩
    cases hkind : edge.arguments[i] with
    | value v =>
      rw [hkind] at htyped hvalue
      obtain ⟨y, hy, heq⟩ := bind_eq_ok.1 hvalue
      rw [← Except.ok.inj heq] at hx
      cases hx
      exact hholding.read hnames htyped hy
    | result =>
      rw [hkind] at htyped hvalue
      rw [← Except.ok.inj hvalue] at hx
      exact hgiven x _ hx htyped
  exact holding_bound hholding hentries hstore

/-- **A caller takes what it waits for.** -/
theorem take_typed (hmodule : ModuleTyped module) {type result : TypeId} {await : Await}
    (h : Await.Typed HasType module values type result await) {x : V} (hx : HasType x type) {state : State V}
    (htake : await.take values x = .ok state) : State.Typed HasType module result state := by
  cases h with
  | bind hwithin hholding hv =>
    cases htake
    exact .running hwithin (hholding.insert hv hx)
  | edge hf hresult hholding hedge =>
    refine follow_typed hf hresult hholding (hmodule.checked _ hf).names hedge (fun y t hy ht => ?_) htake
    cases hy
    cases ht
    exact hx

theorem call_typed (hmodule : ModuleTyped module) {id : FunctionId} {number : SignatureId}
    {signature : RuntimeSignature} (hnumber : signatureOf module id = some number)
    (hsignature : module.signatures[number]? = some signature) {xs : List V}
    (hxs : List.Forall₂ HasType xs signature.parameters) {state : State V}
    (h : call module id xs = .ok (.ok state)) : State.Typed HasType module signature.result state := by
  have hresult {n : SignatureId} (hn : n = number) : resultOf module n = some signature.result := by
    rw [resultOf, hn, hsignature, Option.map_some]
  unfold call at h
  unfold signatureOf at hnumber
  cases hstaged : module.functions.find? (·.id == id) with
  | some found =>
    rw [hstaged] at h hnumber
    have hf := List.mem_of_find?_eq_some hstaged
    obtain rfl : found.signature = number := Option.some.inj hnumber
    obtain ⟨block, hblock, hstart⟩ := bind_eq_ok.1 h
    have hfind := demand_eq_ok.1 hblock
    have hmem := List.mem_of_find?_eq_some hfind
    split at hstart
    · cases hstart
      obtain ⟨signature', hsignature', hparameters⟩ :=
        (hmodule.staged found hf).entry block hmem (by simpa using List.find?_some hfind)
      obtain rfl := Option.some.inj (hsignature.symm.trans hsignature')
      exact typed_entered hf (hresult rfl) hmem holding_nil (hparameters ▸ hxs)
    · cases hstart
  | none =>
    rw [hstaged] at h hnumber
    cases hchecked : module.checkedFunctions.find? (·.id == id) with
    | none =>
      rw [hchecked] at hnumber
      cases hnumber
    | some found =>
      rw [hchecked] at h hnumber
      have hf := List.mem_of_find?_eq_some hchecked
      obtain rfl : found.signature = number := Option.some.inj hnumber
      obtain ⟨c, hfetch, hstart⟩ := bind_eq_ok.1 h
      have hget : found.continuations[found.entry]? = some c := demand_eq_ok.1 hfetch
      have hc := List.mem_of_getElem? hget
      split at hstart
      · cases hstart
        obtain ⟨signature', hsignature', hparameters⟩ := (hmodule.checked found hf).entry c hget
        obtain rfl := Option.some.inj (hsignature.symm.trans hsignature')
        refine .running (.checked hf (hresult rfl) hc fun _ h => h) ?_
        have hsub : c.parameters.map (fun d => (d.value, d.typeId)) ⊆ found.valueTypes := fun p hp => by
          obtain ⟨d, hd, rfl⟩ := List.mem_map.1 hp
          exact mem_types_definition hc (List.mem_append_left _ hd)
        rw [← hparameters] at hxs
        have hentered := (@holding_nil V HasType found.valueTypes).parameters hsub
          (by simpa [Function.comp_def] using hxs)
        simpa [Function.comp_def, Position.types] using hentered
      · cases hstart

/-! ### Deeds -/

section Deeds

variable [Values V] {execute : Execute V σ} {result : TypeId} {state : State V} {s s' : σ} {d : Deed V}

/-- The end of a block does what has the types it should have. -/
theorem terminate_typed (hmodule : ModuleTyped module) {f : StagedFunction} (hf : f ∈ module.functions)
    (hresult : resultOf module f.signature = some result) {block : StagedBlock} (hblock : block ∈ f.blocks)
    (hholding : Holding HasType f.valueTypes values) (h : terminateDeed f values block.terminator = .ok d) :
    Deed.Typed HasType module result d := by
  have htyped := hmodule.staged f hf
  have henter {target : ℕ} {arguments : List ℕ} (hedge : (target, arguments) ∈ block.terminator.edges) {state : State V}
      (h : enter f values target arguments = .ok state) : Deed.Typed HasType module result (.on state) :=
    .on (enter_typed hf htyped hresult hholding hblock hedge h)
  cases hterminator : block.terminator with
  | branch target arguments span =>
    rw [hterminator] at h henter
    obtain ⟨state, hstate, heq⟩ := bind_eq_ok.1 h
    cases heq
    exact henter (by simp [StagedTerminator.edges]) hstate
  | conditional condition consequent consequentArguments alternate alternateArguments span =>
    rw [hterminator] at h henter
    obtain ⟨x, _, hcondition⟩ := bind_eq_ok.1 h
    split at hcondition
    · obtain ⟨state, hstate, heq⟩ := bind_eq_ok.1 hcondition
      cases heq
      exact henter (by simp [StagedTerminator.edges]) hstate
    · obtain ⟨state, hstate, heq⟩ := bind_eq_ok.1 hcondition
      cases heq
      exact henter (by simp [StagedTerminator.edges]) hstate
    · cases hcondition
      exact .refused _
  | switch selector cases fallback span =>
    rw [hterminator] at h henter
    obtain ⟨x, _, hchosen⟩ := bind_eq_ok.1 h
    obtain ⟨state, hstate, heq⟩ := bind_eq_ok.1 hchosen
    cases heq
    refine henter ?_ hstate
    show _ ∈ cases.map _ ++ [_]
    cases hfind : cases.find? fun switchCase => Values.matches x switchCase.value with
    | none => simp
    | some found =>
      refine List.mem_append_left _ (List.mem_map.2 ⟨found, List.mem_of_find?_eq_some hfind, ?_⟩)
      simp
  | «return» value span =>
    rw [hterminator] at h
    obtain ⟨x, hx, heq⟩ := bind_eq_ok.1 h
    cases heq
    exact .returned (hholding.read htyped.names (htyped.returns block hblock value span hterminator _ hresult) hx)
  | trap message span =>
    rw [hterminator] at h
    cases h
    exact .trapped message

omit [Values V] in
theorem CallTyped.deed {arguments : List ValueId} {target : CallTarget} {type : TypeId}
    (h : CallTyped module types arguments target type) (hholding : Holding HasType types values)
    (hnames : (types.map (·.1)).Nodup) {await : Await} (hawait : Await.Typed HasType module values type result await)
    {xs : List V} (hxs : collect (readValue values) arguments = .ok xs) :
    Deed.Typed HasType module result (.call target xs values await) := by
  cases h with
  | function hnumber hsignature harguments =>
    exact .call hnumber hsignature (hholding.collect_typed hnames harguments hxs) hawait
  | request hnot hresponse => exact .request hnot hresponse hawait

theorem transfer_typed (hmodule : ModuleTyped module) {f : Function} (hf : f ∈ module.checkedFunctions)
    (hresult : resultOf module f.signature = some result) {c : Continuation} (hc : c ∈ f.continuations)
    (hholding : Holding HasType f.valueTypes values) (h : transferDeed f values c.transition = .ok d) :
    Deed.Typed HasType module result d := by
  have htyped := hmodule.checked f hf
  have hfollow {edge : Edge} (hedge : EdgeTyped f none edge) {state : State V}
      (h : follow f values edge none = .ok state) : Deed.Typed HasType module result (.on state) :=
    .on (follow_typed hf hresult hholding htyped.names hedge (fun _ _ _ h => by cases h) h)
  have hedges := htyped.edges c hc
  cases htransition : c.transition with
  | jump edge =>
    rw [htransition] at h hedges
    obtain ⟨state, hstate, heq⟩ := bind_eq_ok.1 h
    cases heq
    exact hfollow (hedges (fun _ _ _ _ _ h => by cases h) edge (by simp [Transition.edges])) hstate
  | branch condition consequent alternate =>
    rw [htransition] at h hedges
    obtain ⟨x, _, hcondition⟩ := bind_eq_ok.1 h
    split at hcondition
    · next b _ =>
      obtain ⟨state, hstate, heq⟩ := bind_eq_ok.1 hcondition
      cases heq
      exact hfollow (hedges (fun _ _ _ _ _ h => by cases h) _ (by cases b <;> simp [Transition.edges])) hstate
    · cases hcondition
      exact .refused _
  | switch selector cases fallback =>
    rw [htransition] at h hedges
    obtain ⟨edge, hedge, hselect⟩ := bind_eq_ok.1 h
    obtain ⟨state, hstate, heq⟩ := bind_eq_ok.1 hselect
    cases heq
    exact hfollow (hedges (fun _ _ _ _ _ h => by cases h) edge (selectCase_mem hedge)) hstate
  | call target signature arguments next suspends =>
    rw [htransition] at h
    obtain ⟨type, hcall, hnext⟩ := htyped.calls c hc target signature arguments next suspends htransition
    obtain ⟨xs, hxs, heq⟩ := bind_eq_ok.1 h
    cases heq
    exact hcall.deed hholding htyped.names (.edge hf hresult hholding hnext) hxs
  | «return» value =>
    rw [htransition] at h
    obtain ⟨x, hx, heq⟩ := bind_eq_ok.1 h
    cases heq
    exact .returned (hholding.read htyped.names (htyped.returns c hc value htransition _ hresult) hx)
  | trap message =>
    rw [htransition] at h
    cases h
    exact .trapped message

/-- **What a typed activation does** has the types it should have. -/
theorem deed_typed (hmodule : ModuleTyped module) (hexecutes : Executes HasType module execute)
    (hstate : State.Typed HasType module result state) (h : deed execute state s = .ok (d, s')) :
    Deed.Typed HasType module result d := by
  cases hstate with
  | @running values position hwithin hholding =>
    cases hwithin with
    | @staged f block operations hf hresult hblock hoperations =>
      cases operations with
      | nil =>
        obtain ⟨d', hd', heq⟩ := bind_eq_ok.1 h
        cases heq
        exact terminate_typed hmodule hf hresult hblock hholding hd'
      | cons operation operations =>
        obtain ⟨hoperation, hrest⟩ := List.cons_subset.1 hoperations
        have hmem : operation ∈ f.operations := List.mem_flatMap.2 ⟨block, hblock, hoperation⟩
        have hdeclared := mem_types_operation hblock hoperation
        have hwithin : Position.Within module result (.staged f operations block.terminator) :=
          .staged hf hresult hblock hrest
        unfold deed at h
        dsimp only at h
        split at h
        · next hcall =>
          obtain ⟨t, ht, hcallee⟩ := bind_eq_ok.1 h
          obtain ⟨d', hd', heq⟩ := bind_eq_ok.1 hcallee
          cases heq
          obtain ⟨xs, hxs, heq⟩ := bind_eq_ok.1 hd'
          cases heq
          exact ((hmodule.staged f hf).calls operation hmem hcall t ht).deed hholding (hmodule.staged f hf).names
            (.bind hwithin hholding hdeclared) hxs
        · obtain ⟨xs, hxs, hexecute⟩ := bind_eq_ok.1 h
          split at hexecute
          · next x store hx =>
            cases hexecute
            have htyped := hexecutes.staged f hf operation hmem xs s x _ (hholding.collect hxs) hx
            exact .on (.running hwithin (hholding.insert hdeclared htyped))
          · cases hexecute
            exact .trapped _
    | @checked f c instructions hf hresult hc hinstructions =>
      cases instructions with
      | nil =>
        obtain ⟨d', hd', heq⟩ := bind_eq_ok.1 h
        cases heq
        exact transfer_typed hmodule hf hresult hc hholding hd'
      | cons i instructions =>
        obtain ⟨hi, hrest⟩ := List.cons_subset.1 hinstructions
        have hdeclared : (i.definition.value, i.definition.typeId) ∈ f.valueTypes :=
          mem_types_definition hc (List.mem_append_right _ (List.mem_map_of_mem hi))
        obtain ⟨xs, hxs, hexecute⟩ := bind_eq_ok.1 h
        split at hexecute
        · next x store hx =>
          cases hexecute
          have htyped := hexecutes.checked f hf c hc i hi xs s x _ (hholding.collect hxs) hx
          exact .on (.running (.checked hf hresult hc hrest) (hholding.insert hdeclared htyped))
        · cases hexecute
          exact .trapped _

/-! ### Runs -/

/-- The host answers each request of a run with a value of the type that the tables declare. -/
def Answers (HasType : V → TypeId → Prop) (module : StagedModule) (execute : Execute V σ)
    (w₀ : World (Run V) V σ) : Prop :=
  ∀ w, Comes (party module execute).next w₀ w → ∀ target xs run store,
    move module execute w.machine w.store = .ok (.request target xs run, store) → ∀ type,
      responseType module.tables target = some type → ∀ response responses, w.responses = response :: responses →
        HasType response type

omit [Values V] in
/-- **What a deed makes of the run** is typed, or a request whose response is awaited with its type. -/
theorem carry_typed (hmodule : ModuleTyped module) {callers : List (Table ValueId V × Await)}
    (hcallers : CallersTyped HasType module result callers) (hd : Deed.Typed HasType module result d)
    {m : Move (Run V) V} (h : d.carry module callers = .ok m) :
    (∀ run, m = .on run → run.Typed HasType module) ∧
      ∀ target xs run, m = .request target xs run → ∃ type, responseType module.tables target = some type ∧
        ∀ x, HasType x type → ∀ run', resume run x = .ok run' → run'.Typed HasType module := by
  have hend (hon : ∀ run, m ≠ .on run) (hrequest : ∀ target xs run, m ≠ .request target xs run) :
      (∀ run, m = .on run → run.Typed HasType module) ∧
        ∀ target xs run, m = .request target xs run → ∃ type, responseType module.tables target = some type ∧
          ∀ x, HasType x type → ∀ run', resume run x = .ok run' → run'.Typed HasType module :=
    ⟨fun run heq => absurd heq (hon run), fun target xs run heq => absurd heq (hrequest target xs run)⟩
  cases hd with
  | on hstate =>
    cases h
    refine ⟨fun run heq => ?_, fun _ _ _ heq => (by cases heq)⟩
    cases heq
    exact ⟨result, hstate, hcallers⟩
  | @call id number signature xs values await hnumber hsignature hxs hawait =>
    obtain ⟨answer, hanswer, hmove⟩ := bind_eq_ok.1 h
    cases answer with
    | error message =>
      cases hmove
      exact hend (by simp) (by simp)
    | ok callee =>
      cases hmove
      refine ⟨fun run heq => ?_, fun _ _ _ heq => (by cases heq)⟩
      cases heq
      exact ⟨signature.result, call_typed hmodule hnumber hsignature hxs hanswer, result, hawait, hcallers⟩
  | @request target type xs values await hnot hresponse hawait =>
    cases target with
    | function id => exact absurd rfl (hnot id)
    | host | link =>
      cases h
      refine ⟨fun _ heq => (by cases heq), fun target xs run heq => ?_⟩
      cases heq
      refine ⟨type, hresponse, fun x hx run' hrun => ?_⟩
      obtain ⟨state, hstate, heq⟩ := bind_eq_ok.1 hrun
      cases heq
      exact ⟨result, take_typed hmodule hawait hx hstate, hcallers⟩
  | @returned x hx =>
    cases callers with
    | nil =>
      obtain rfl : Move.returned x = m := Except.ok.inj h
      exact hend (by simp) (by simp)
    | cons frame callers =>
      obtain ⟨held, await⟩ := frame
      obtain ⟨state, hstate, heq⟩ := bind_eq_ok.1 h
      cases heq
      obtain ⟨result', hawait, hcallers⟩ := hcallers
      refine ⟨fun run heq => ?_, fun _ _ _ heq => (by cases heq)⟩
      cases heq
      exact ⟨result', take_typed hmodule hawait hx hstate, hcallers⟩
  | trapped message =>
    obtain rfl : Move.trapped message = m := Except.ok.inj h
    exact hend (by simp) (by simp)
  | refused message =>
    obtain rfl : Move.refused message = m := Except.ok.inj h
    exact hend (by simp) (by simp)

omit [Values V] in
/-- What one step is: a move, or a request with its response. -/
theorem step_cases {M : Type} {p : Party M V σ} {w w' : World M V σ} (h : Step p.next w w') :
    (∃ m s, p.move w.machine w.store = .ok (.on m, s) ∧ w'.machine = m) ∨
      ∃ target xs m s response responses m', p.move w.machine w.store = .ok (.request target xs m, s) ∧
        w.responses = response :: responses ∧ p.resume m response = .ok m' ∧ w'.machine = m' := by
  unfold Step Party.next at h
  split at h
  · next m s hmove =>
    cases h
    exact .inl ⟨m, s, hmove, rfl⟩
  · next target xs m s hmove =>
    split at h
    · cases h
    · next response responses hresponses =>
      split at h
      · next m' hresume =>
        cases h
        exact .inr ⟨target, xs, m, s, response, responses, m', hmove, hresponses, hresume, rfl⟩
      · cases h
  all_goals cases h

/-- **One step** keeps a run typed. -/
theorem step_typed (hmodule : ModuleTyped module) (hexecutes : Executes HasType module execute)
    {w w' : World (Run V) V σ} (htyped : w.machine.Typed HasType module)
    (hanswers : ∀ target xs run store, move module execute w.machine w.store = .ok (.request target xs run, store) →
      ∀ type, responseType module.tables target = some type → ∀ response responses,
        w.responses = response :: responses → HasType response type)
    (h : Step (party module execute).next w w') : w'.machine.Typed HasType module := by
  obtain ⟨⟨state, callers⟩, s, responses, seen⟩ := w
  obtain ⟨result, hstate, hcallers⟩ := htyped
  have hcarried {m : Move (Run V) V} {store : σ} (hmove : move module execute ⟨state, callers⟩ s = .ok (m, store)) :
      ∃ d, Deed.Typed HasType module result d ∧ d.carry module callers = .ok m := by
    rw [move_eq] at hmove
    obtain ⟨⟨d, s'⟩, hdeed, hrest⟩ := bind_eq_ok.1 hmove
    obtain ⟨m', hcarry, heq⟩ := bind_eq_ok.1 hrest
    cases heq
    exact ⟨d, deed_typed hmodule hexecutes hstate hdeed, hcarry⟩
  rcases step_cases h with
    ⟨run, store, hmove, hrun⟩ | ⟨target, xs, run, store, response, rest, run', hmove, hresponses, hresume, hrun⟩
  · obtain ⟨d, hd, hcarry⟩ := hcarried hmove
    exact hrun ▸ (carry_typed hmodule hcallers hd hcarry).1 run rfl
  · obtain ⟨d, hd, hcarry⟩ := hcarried hmove
    obtain ⟨type, htype, hresumed⟩ := (carry_typed hmodule hcallers hd hcarry).2 target xs run rfl
    exact hrun ▸ hresumed response (hanswers target xs run store hmove type htype response rest hresponses) run' hresume

/-- **A run from typed arguments** stays typed. -/
theorem typed_of_comes (hmodule : ModuleTyped module) (hexecutes : Executes HasType module execute)
    {w₀ w : World (Run V) V σ} (htyped : w₀.machine.Typed HasType module)
    (hanswers : Answers HasType module execute w₀) (h : Comes (party module execute).next w₀ w) :
    w.machine.Typed HasType module := by
  induction h with
  | refl => exact htyped
  | tail hcomes hstep ih => exact step_typed hmodule hexecutes ih (hanswers _ hcomes) hstep

end Deeds

end Direct

end Blot.Suspension
