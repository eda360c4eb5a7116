import Blot.Hir.Staged
import Mathlib.Data.List.Nodup
import Mathlib.Data.List.Pairwise

/-!
# Control flow of a staged function

How control arrives at a block, and the functions that are well formed: every value has one definition, which stands
before each of its uses on every way to it.

* `Arrives` — the ways to a block, with the values that were defined on them;
* `WellFormed` — blocks with distinct ids, branches with as many arguments as parameters, uses dominated by definitions;
* `dominated_of_scope` — a table of values for each block is enough to know the last;
* `Arrives.lift` — the ways of one function, found again in another.
-/

namespace Blot.Hir

def StagedTerminator.edges : StagedTerminator → List (ℕ × List ℕ)
  | .branch target arguments _ => [(target, arguments)]
  | .conditional _ consequent consequentArguments alternate alternateArguments _ =>
    [(consequent, consequentArguments), (alternate, alternateArguments)]
  | .switch _ cases fallback _ => cases.map (fun c => (c.target, [])) ++ [(fallback, [])]
  | .return _ _ => []
  | .trap _ _ => []

def StagedTerminator.uses : StagedTerminator → List ℕ
  | .branch _ arguments _ => arguments
  | .conditional condition _ consequentArguments _ alternateArguments _ =>
    condition :: (consequentArguments ++ alternateArguments)
  | .switch selector _ _ _ => [selector]
  | .return value _ => [value]
  | .trap _ _ => []

def StagedBlock.names (block : StagedBlock) : List ℕ := block.parameters.map (·.value)

def StagedBlock.reads (block : StagedBlock) : List ℕ := block.operations.flatMap (·.operands) ++ block.terminator.uses

def StagedBlock.defined (block : StagedBlock) : List ℕ := block.names ++ block.operations.map (·.result)

/-- **The ways to a block**, with what is defined in the blocks before it. -/
inductive StagedFunction.Arrives (function : StagedFunction) : List ℕ → StagedBlock → Prop where
  | entry {block : StagedBlock} (hmem : block ∈ function.blocks) (hid : block.id = function.entryBlock) :
      function.Arrives [] block
  | edge {seen : List ℕ} {block successor : StagedBlock} {edge : ℕ × List ℕ} (h : function.Arrives seen block)
      (hedge : edge ∈ block.terminator.edges) (hmem : successor ∈ function.blocks) (hid : successor.id = edge.1) :
      function.Arrives (block.defined ++ seen) successor

/-- What is read in a block was defined before: on the way to it, or in it. -/
structure StagedBlock.Scoped (block : StagedBlock) (seen : List ℕ) : Prop where
  operands : ∀ before operation after, block.operations = before ++ operation :: after →
    ∀ v ∈ operation.operands, v ∈ block.names ++ before.map (·.result) ++ seen
  uses : ∀ v ∈ block.terminator.uses, v ∈ block.defined ++ seen

/-- **A well-formed function.** -/
structure StagedFunction.WellFormed (function : StagedFunction) : Prop where
  ids : (function.blocks.map (·.id)).Nodup
  entry : ∃ block ∈ function.blocks, block.id = function.entryBlock
  definitions : (function.blocks.flatMap (·.defined)).Nodup
  edges : ∀ block ∈ function.blocks, ∀ edge ∈ block.terminator.edges, ∃ successor ∈ function.blocks,
    successor.id = edge.1 ∧ successor.parameters.length = edge.2.length
  dominated : ∀ seen block, function.Arrives seen block → block.Scoped seen

section Arrives

variable {function : StagedFunction} {seen : List ℕ} {block : StagedBlock}

theorem StagedFunction.Arrives.mem (h : function.Arrives seen block) : block ∈ function.blocks := by
  cases h with
  | entry hmem => exact hmem
  | edge _ _ hmem => exact hmem

theorem StagedTerminator.uses_of_edge {terminator : StagedTerminator} {edge : ℕ × List ℕ}
    (h : edge ∈ terminator.edges) {v : ℕ} (hv : v ∈ edge.2) : v ∈ terminator.uses := by
  cases terminator with
  | branch target arguments span =>
    cases List.mem_singleton.1 h
    exact hv
  | conditional condition consequent consequentArguments alternate alternateArguments span =>
    simp only [StagedTerminator.edges, List.mem_cons, List.not_mem_nil, or_false] at h
    rcases h with rfl | rfl
    · simp [StagedTerminator.uses, show v ∈ consequentArguments from hv]
    · simp [StagedTerminator.uses, show v ∈ alternateArguments from hv]
  | switch selector cases fallback span =>
    simp only [StagedTerminator.edges, List.mem_append, List.mem_map, List.mem_singleton] at h
    rcases h with ⟨c, _, rfl⟩ | rfl <;> cases hv
  | «return» value span => cases h
  | trap message span => cases h

/-- **Ways found again.**  Blocks of two functions go together; an edge of the one goes with a way in the other, on
which nothing new is defined but the values of `K`. -/
theorem StagedFunction.Arrives.lift {f g : StagedFunction} (Same : StagedBlock → StagedBlock → Prop) {K : ℕ → Prop}
    (hentry : ∀ b ∈ g.blocks, b.id = g.entryBlock → ∃ a, f.Arrives [] a ∧ Same a b)
    (hedge : ∀ known seen a b, f.Arrives known a → g.Arrives seen b → Same a b → ∀ edge ∈ b.terminator.edges,
      ∀ b' ∈ g.blocks, b'.id = edge.1 → ∃ a' known', f.Arrives known' a' ∧ Same a' b' ∧
        ∀ v ∈ known', v ∈ b.defined ∨ v ∈ known ∨ K v)
    {seen : List ℕ} {b : StagedBlock} (h : g.Arrives seen b) :
    ∃ a known, f.Arrives known a ∧ Same a b ∧ ∀ v ∈ known, v ∈ seen ∨ K v := by
  induction h with
  | @entry b hmem hid =>
    obtain ⟨a, ha, hsame⟩ := hentry b hmem hid
    exact ⟨a, [], ha, hsame, by simp⟩
  | @edge seen b b' edge hb hmem hmem' hid ih =>
    obtain ⟨a, known, ha, hsame, hknown⟩ := ih
    obtain ⟨a', known', ha', hsame', hknown'⟩ := hedge known seen a b ha hb hsame edge hmem b' hmem' hid
    refine ⟨a', known', ha', hsame', fun v hv => ?_⟩
    rcases hknown' v hv with hdefined | hbefore | hK
    · exact Or.inl (List.mem_append_left _ hdefined)
    · exact (hknown v hbefore).imp_left (List.mem_append_right _)
    · exact Or.inr hK

theorem find_block (hids : (function.blocks.map (·.id)).Nodup) (h : block ∈ function.blocks) :
    function.blocks.find? (·.id == block.id) = some block := by
  obtain ⟨before, after, hblocks⟩ := List.append_of_mem h
  rw [hblocks, List.map_append, List.map_cons, List.nodup_append] at hids
  rw [hblocks, List.find?_append, List.find?_eq_none.2 fun other hother => ?_]
  · simp
  · have hne := hids.2.2 other.id (List.mem_map_of_mem hother) block.id (by simp)
    simpa using hne

/-- The ids of the blocks are their places. -/
def StagedFunction.Indexed (function : StagedFunction) : Prop :=
  function.blocks.map (·.id) = List.range function.blocks.length

section Indexed

variable (h : function.Indexed)

include h

theorem StagedFunction.Indexed.id_eq {i : ℕ} (hblock : function.blocks[i]? = some block) : block.id = i := by
  have hi : i < function.blocks.length := (List.getElem?_eq_some_iff.1 hblock).1
  have hget : (function.blocks.map (·.id))[i]? = some block.id := by rw [List.getElem?_map, hblock, Option.map_some]
  rw [h, List.getElem?_range hi] at hget
  exact (Option.some.inj hget).symm

theorem StagedFunction.Indexed.get (hmem : block ∈ function.blocks) : function.blocks[block.id]? = some block := by
  obtain ⟨i, hi⟩ := List.mem_iff_getElem?.1 hmem
  rwa [h.id_eq hi]

theorem StagedFunction.Indexed.lt (hmem : block ∈ function.blocks) : block.id < function.blocks.length :=
  (List.getElem?_eq_some_iff.1 (h.get hmem)).1

/-- A block is changed in its place. -/
theorem StagedFunction.Indexed.modify (id : ℕ) (change : StagedBlock → StagedBlock) :
    function.blocks.modify id change = function.blocks.map fun block =>
      if block.id = id then change block else block := by
  refine List.ext_getElem? fun i => ?_
  rw [List.getElem?_modify, List.getElem?_map]
  cases hi : function.blocks[i]? with
  | none => rfl
  | some block =>
    have hid := h.id_eq hi
    by_cases he : id = i
    · simp [hid, he]
    · simp [hid, he, Ne.symm he]

end Indexed

theorem block_of_id (hids : (function.blocks.map (·.id)).Nodup) {other : StagedBlock} (h : block ∈ function.blocks)
    (h' : other ∈ function.blocks) (hid : block.id = other.id) : block = other :=
  List.inj_on_of_nodup_map hids h h' hid

/-- The reads of a block, checked from its start. -/
def scopedFrom (known : List ℕ) : List StagedOperation → StagedTerminator → Bool
  | [], terminator => terminator.uses.all known.contains
  | operation :: operations, terminator =>
    operation.operands.all known.contains && scopedFrom (operation.result :: known) operations terminator

/-- What is known further on in a block is its results so far, or was known before. -/
theorem scopedFrom_append {known : List ℕ} {terminator : StagedTerminator} {before after : List StagedOperation}
    (h : scopedFrom known (before ++ after) terminator = true) : ∃ known', scopedFrom known' after terminator = true ∧
      ∀ v ∈ known', v ∈ before.map (·.result) ∨ v ∈ known := by
  induction before generalizing known with
  | nil => exact ⟨known, h, fun v hv => .inr hv⟩
  | cons first before ih =>
    simp only [List.cons_append, scopedFrom, Bool.and_eq_true] at h
    obtain ⟨known', hafter, hknown⟩ := ih h.2
    refine ⟨known', hafter, fun v hv => ?_⟩
    rw [List.map_cons, List.mem_cons]
    rcases hknown v hv with hbefore | hknown
    · exact .inl (.inr hbefore)
    · exact (List.mem_cons.1 hknown).imp_left .inl

theorem scopedFrom_operands {known : List ℕ} {terminator : StagedTerminator} {before after : List StagedOperation}
    {operation : StagedOperation} (h : scopedFrom known (before ++ operation :: after) terminator = true) :
    ∀ v ∈ operation.operands, v ∈ before.map (·.result) ∨ v ∈ known := by
  obtain ⟨known', hafter, hknown⟩ := scopedFrom_append h
  simp only [scopedFrom, Bool.and_eq_true, List.all_eq_true, List.contains_iff_mem] at hafter
  exact fun v hv => hknown v (hafter.1 v hv)

theorem scopedFrom_uses {known : List ℕ} {terminator : StagedTerminator} {operations : List StagedOperation}
    (h : scopedFrom known operations terminator = true) :
    ∀ v ∈ terminator.uses, v ∈ operations.map (·.result) ∨ v ∈ known := by
  rw [← List.append_nil operations] at h
  obtain ⟨known', hafter, hknown⟩ := scopedFrom_append h
  simp only [scopedFrom, List.all_eq_true, List.contains_iff_mem] at hafter
  exact fun v hv => hknown v (hafter v hv)

/-- **Values that are known at each block** and cover its reads dominate their uses. -/
theorem dominated_of_scope (scope : ℕ → List ℕ) (hentry : scope function.entryBlock = [])
    (hedges : ∀ block ∈ function.blocks, ∀ edge ∈ block.terminator.edges,
      scope edge.1 ⊆ block.defined ++ scope block.id)
    (hreads : ∀ block ∈ function.blocks,
      scopedFrom (block.names ++ scope block.id) block.operations block.terminator = true)
    (h : function.Arrives seen block) : block.Scoped seen := by
  have hscope : scope block.id ⊆ seen := by
    induction h with
    | entry _ hid => simp [hid, hentry]
    | @edge seen block successor edge h hedge _ hid ih =>
      intro v hv
      rcases List.mem_append.1 (hedges block h.mem edge hedge (hid ▸ hv)) with hdefined | hbefore
      · exact List.mem_append_left _ hdefined
      · exact List.mem_append_right _ (ih hbefore)
  have hread := hreads block h.mem
  constructor
  · intro before operation after hops v hv
    rcases scopedFrom_operands (hops ▸ hread) v hv with hbefore | hknown
    · simp [hbefore]
    · rcases List.mem_append.1 hknown with hnames | hbefore
      · simp [hnames]
      · exact List.mem_append_right _ (hscope hbefore)
  · intro v hv
    rcases scopedFrom_uses hread v hv with hops | hknown
    · exact List.mem_append_left _ (List.mem_append_right _ hops)
    · rcases List.mem_append.1 hknown with hnames | hbefore
      · exact List.mem_append_left _ (List.mem_append_left _ hnames)
      · exact List.mem_append_right _ (hscope hbefore)

end Arrives

/-! ### One definition for each value -/

section Definitions

variable {function : StagedFunction} (h : (function.blocks.flatMap (·.defined)).Nodup) {a b : StagedBlock}

include h

theorem block_of_defined (ha : a ∈ function.blocks) (hb : b ∈ function.blocks) {v : ℕ} (hva : v ∈ a.defined)
    (hvb : v ∈ b.defined) : a = b := by
  by_contra hne
  obtain ⟨_, hpairwise⟩ := List.nodup_flatMap.1 h
  have hsymm : Std.Symm (Function.onFun List.Disjoint StagedBlock.defined) := ⟨fun _ _ hxy _ hy hx => hxy hx hy⟩
  exact hpairwise.forall ha hb hne hva hvb

theorem names_disjoint (ha : a ∈ function.blocks) (hb : b ∈ function.blocks) {v : ℕ} (hv : v ∈ a.names)
    {operation : StagedOperation} (hoperation : operation ∈ b.operations) : operation.result ≠ v := by
  rintro rfl
  have hresult : operation.result ∈ b.operations.map (·.result) := List.mem_map_of_mem hoperation
  cases block_of_defined h ha hb (List.mem_append_left _ hv) (List.mem_append_right _ hresult)
  have hnodup := (List.nodup_flatMap.1 h).1 a ha
  exact (List.nodup_append.1 hnodup).2.2 _ hv _ hresult rfl

theorem operation_of_result (ha : a ∈ function.blocks) (hb : b ∈ function.blocks) {o o' : StagedOperation}
    (ho : o ∈ a.operations) (ho' : o' ∈ b.operations) (hresult : o.result = o'.result) : o = o' := by
  have hmem : o.result ∈ a.operations.map (·.result) := List.mem_map_of_mem ho
  have hmem' : o.result ∈ b.operations.map (·.result) := hresult ▸ List.mem_map_of_mem ho'
  cases block_of_defined h ha hb (List.mem_append_right _ hmem) (List.mem_append_right _ hmem')
  have hnodup := (List.nodup_append.1 ((List.nodup_flatMap.1 h).1 a ha)).2.1
  exact List.inj_on_of_nodup_map hnodup ho ho' hresult

end Definitions

/-! ### A function in its module -/

/-- The module with another function for the one of its id. -/
def StagedModule.replace (module : StagedModule) (function : StagedFunction) : StagedModule :=
  { module with functions := module.functions.map fun f => if f.id = function.id then function else f }

theorem StagedModule.find_replace (module : StagedModule) (function : StagedFunction) (id : ℕ) :
    (module.replace function).functions.find? (·.id == id) =
      (module.functions.find? (·.id == id)).map fun f => if f.id = function.id then function else f := by
  show (module.functions.map fun f => if f.id = function.id then function else f).find? _ = _
  rw [List.find?_map]
  congr 2
  funext f
  by_cases h : f.id = function.id
  · simp [h]
  · simp [h]

end Blot.Hir
