import Blot.Hir.TailCalls

/-!
# What a search for tail calls finds

The search goes from the returns against the flow, whatever the blocks on the way do.  In a block that returns, whose
values are used in it only, it can come to a self call by its own return alone.

* `TailSearch.Found` — what the tables of a search hold;
* `Eta` — a product that is put together from the fields of another one;
* `Stems` — one value of a block is another one, as the search takes it;
* `stems_of_leads` — a self call that the search comes to is carried to the return of its block.
-/

namespace Blot.Hir

open Blot.Support

variable {f : StagedFunction}

/-! ### The tables of a search -/

def StagedFunction.valueTypes (f : StagedFunction) : Table ℕ ℕ := f.blocks.flatMap (·.types)

theorem mem_of_lookup_extend {A : Type} {l : Table ℕ A} {k : ℕ} {a : A}
    (h : (Table.extend [] l).lookup k = some a) : (k, a) ∈ l := by
  rw [Table.lookup_extend, List.lookup_nil, Option.or_none] at h
  exact List.mem_reverse.1 (Table.mem_of_lookup h)

/-- The operation makes a product of the fields of another one, which other operations read. -/
structure Eta (operations : List StagedOperation) (make : StagedOperation) (source : ℕ) : Prop where
  kind : make.kind = "product.make"
  operands : make.operands ≠ []
  fields : ∀ entry ∈ make.operands.zipIdx, ∃ project ∈ operations, project.result = entry.1 ∧
    project.kind = "product.project" ∧ project.field = some entry.2 ∧ project.operands.head? = some source

theorem etaSource_eq_some {definitions : Table ℕ StagedOperation} {source found : Option ℕ} {entry : ℕ × ℕ}
    (h : etaSource definitions source entry = some found) : ∃ projected project, found = some projected ∧
      (source = none ∨ source = some projected) ∧ definitions.lookup entry.1 = some project ∧
      project.kind = "product.project" ∧ project.field = some entry.2 ∧ project.operands.head? = some projected := by
  obtain ⟨project, hproject, hfield⟩ := Option.bind_eq_some_iff.1 h
  split at hfield
  · next hkind =>
    obtain ⟨projected, hhead, hsource⟩ := Option.bind_eq_some_iff.1 hfield
    cases source with
    | none =>
      cases hsource
      exact ⟨projected, project, rfl, .inl rfl, hproject, hkind.1, hkind.2, hhead⟩
    | some source =>
      dsimp only at hsource
      split at hsource
      · next heq =>
        cases hsource
        exact ⟨source, project, rfl, .inr rfl, hproject, hkind.1, hkind.2, heq ▸ hhead⟩
      · cases hsource
  · cases hfield

theorem etaSources_eq_some {definitions : Table ℕ StagedOperation} {entries : List (ℕ × ℕ)} {source found : Option ℕ}
    (h : entries.foldlM (etaSource definitions) source = some found) :
    (∀ projected, source = some projected → found = some projected) ∧
      ∀ entry ∈ entries, ∃ projected project, found = some projected ∧ definitions.lookup entry.1 = some project ∧
        project.kind = "product.project" ∧ project.field = some entry.2 ∧
        project.operands.head? = some projected := by
  induction entries generalizing source with
  | nil =>
    cases h
    exact ⟨fun _ h => h, nofun⟩
  | cons entry entries ih =>
    rw [List.foldlM_cons] at h
    obtain ⟨next, hnext, h⟩ := Option.bind_eq_some_iff.1 h
    obtain ⟨projected, project, rfl, hsource, hproject⟩ := etaSource_eq_some hnext
    obtain ⟨hkeep, hentries⟩ := ih h
    have hfound : found = some projected := hkeep projected rfl
    refine ⟨fun other hother => ?_, List.forall_mem_cons.2 ⟨⟨projected, project, hfound, hproject⟩, hentries⟩⟩
    rcases hsource with hnone | hsome
    · rw [hnone] at hother
      cases hother
    · rw [hfound, ← hsome, hother]

theorem productEtaSource_eq_some {operation : StagedOperation} {definitions : Table ℕ StagedOperation}
    {types : Table ℕ ℕ} {source : ℕ} (h : productEtaSource operation definitions types = some source) :
    operation.kind = "product.make" ∧ operation.operands ≠ [] ∧
      (∀ entry ∈ operation.operands.zipIdx, ∃ project, definitions.lookup entry.1 = some project ∧
        project.kind = "product.project" ∧ project.field = some entry.2 ∧ project.operands.head? = some source) ∧
      types.lookup source = some operation.typeId := by
  unfold productEtaSource at h
  split at h
  · cases h
  · next hmake =>
    rw [not_or, not_not] at hmake
    obtain ⟨found, hfound, hsource⟩ := Option.bind_eq_some_iff.1 h
    obtain ⟨source', rfl, htyped⟩ := Option.bind_eq_some_iff.1 hsource
    split at htyped
    · next htype =>
      cases htyped
      refine ⟨hmake.1, hmake.2, fun entry hentry => ?_, htype⟩
      obtain ⟨projected, project, heq, hproject⟩ := (etaSources_eq_some hfound).2 entry hentry
      cases heq
      exact ⟨project, hproject⟩
    · cases htyped

/-- **What the tables of a search hold.** -/
structure TailSearch.Found (f : StagedFunction) (search : TailSearch) : Prop where
  incoming : ∀ v arguments, search.incoming.lookup v = some arguments → ∀ argument ∈ arguments,
    ∃ block ∈ f.blocks, ∃ edge ∈ block.terminator.edges, argument ∈ edge.2
  definitions : ∀ v operation, search.definitions.lookup v = some operation → operation.result = v ∧
    operation ∈ f.operations
  aliases : ∀ v source, search.productAliases.lookup v = some source → ∃ make ∈ f.operations, make.result = v ∧
    Eta f.operations make source ∧ (source, make.typeId) ∈ f.valueTypes

/-- Every argument that was recorded is one of an edge. -/
def Recorded (f : StagedFunction) (incoming : Table ℕ (List ℕ)) : Prop :=
  ∀ v arguments, incoming.lookup v = some arguments → ∀ argument ∈ arguments,
    ∃ block ∈ f.blocks, ∃ edge ∈ block.terminator.edges, argument ∈ edge.2

theorem recorded_incoming {target : ℕ} {arguments : List ℕ} {incoming incoming' : Table ℕ (List ℕ)}
    (h : f.recordIncomingArguments target arguments incoming = .ok incoming') (hrecorded : Recorded f incoming)
    (hedge : ∃ block ∈ f.blocks, ∃ edge ∈ block.terminator.edges, edge.2 = arguments) : Recorded f incoming' := by
  simp only [StagedFunction.recordIncomingArguments, bind_eq_ok, pure_eq_ok] at h
  obtain ⟨successor, _, _, _, rfl⟩ := h
  have hall : ∀ p ∈ successor.parameters.zip arguments, p.2 ∈ arguments := fun p hp => (List.of_mem_zip hp).2
  generalize successor.parameters.zip arguments = entries at hall
  induction entries generalizing incoming with
  | nil => exact hrecorded
  | cons p entries ih =>
    obtain ⟨hp, hentries⟩ := List.forall_mem_cons.1 hall
    refine ih (fun v found hfound argument hargument => ?_) hentries
    rw [Table.lookup_insert] at hfound
    split at hfound
    · cases hfound
      rcases List.mem_append.1 hargument with hbefore | hnew
      · cases hlookup : incoming.lookup p.1.value with
        | none =>
          rw [hlookup] at hbefore
          cases hbefore
        | some before =>
          rw [hlookup] at hbefore
          exact hrecorded _ _ hlookup _ hbefore
      · obtain ⟨block, hblock, edge, hedge, rfl⟩ := hedge
        exact ⟨block, hblock, edge, hedge, List.mem_singleton.1 hnew ▸ hp⟩
    · exact hrecorded v found hfound argument hargument

theorem recorded_block {block : StagedBlock} (hblock : block ∈ f.blocks) {incoming incoming' : Table ℕ (List ℕ)}
    (h : f.recordBlock incoming block = .ok incoming') (hrecorded : Recorded f incoming) : Recorded f incoming' := by
  unfold StagedFunction.recordBlock at h
  have hedge : ∀ edge ∈ block.terminator.edges, ∃ block ∈ f.blocks, ∃ edge' ∈ block.terminator.edges,
      edge'.2 = edge.2 := fun edge hedge => ⟨block, hblock, edge, hedge, rfl⟩
  cases hterminator : block.terminator with
  | branch target arguments span =>
    rw [hterminator] at h hedge
    exact recorded_incoming h hrecorded (hedge (target, arguments) (by simp [StagedTerminator.edges]))
  | conditional condition consequent consequentArguments alternate alternateArguments span =>
    rw [hterminator] at h hedge
    obtain ⟨between, hbetween, h⟩ := bind_eq_ok.1 h
    have hfirst := recorded_incoming hbetween hrecorded
      (hedge (consequent, consequentArguments) (by simp [StagedTerminator.edges]))
    exact recorded_incoming h hfirst (hedge (alternate, alternateArguments) (by simp [StagedTerminator.edges]))
  | _ =>
    rw [hterminator] at h
    cases h
    exact hrecorded

theorem mem_definitions {p : ℕ × StagedOperation}
    (h : p ∈ Table.extend [] (f.operations.map fun o => (o.result, o))) : p.2.result = p.1 ∧ p.2 ∈ f.operations := by
  rcases Table.mem_extend h with h | h
  · obtain ⟨o, ho, rfl⟩ := List.mem_map.1 h
    exact ⟨rfl, ho⟩
  · cases h

theorem tailSearch_found {search : TailSearch} (h : f.tailSearch = .ok search) : search.Found f := by
  obtain ⟨incoming, hincoming, hsearch⟩ := bind_eq_ok.1 h
  cases hsearch
  refine ⟨?_, fun v operation hlookup => mem_definitions (Table.mem_of_lookup hlookup), fun v source hlookup => ?_⟩
  · have hfold : ∀ (blocks : List StagedBlock) (before : Table ℕ (List ℕ)), blocks ⊆ f.blocks → Recorded f before →
        blocks.foldlM f.recordBlock before = .ok incoming → Recorded f incoming := by
      intro blocks
      induction blocks with
      | nil =>
        intro before _ hbefore hfold
        cases foldlM_nil_eq_ok.1 hfold
        exact hbefore
      | cons block blocks ih =>
        intro before hsub hbefore hfold
        obtain ⟨hblock, hblocks⟩ := List.cons_subset.1 hsub
        obtain ⟨between, hbetween, hfold⟩ := foldlM_cons_eq_ok.1 hfold
        exact ih between hblocks (recorded_block hblock hbetween hbefore) hfold
    exact hfold f.blocks [] (fun _ hblock => hblock) nofun hincoming
  · obtain ⟨p, hp, heq⟩ := List.mem_filterMap.1 (Table.mem_of_lookup hlookup)
    obtain ⟨source', hsource, heq⟩ := Option.map_eq_some_iff.1 heq
    cases heq
    obtain ⟨hkind, hoperands, hfields, htype⟩ := productEtaSource_eq_some hsource
    refine ⟨p.2, (mem_definitions hp).2, rfl, ⟨hkind, hoperands, fun entry hentry => ?_⟩, mem_of_lookup_extend htype⟩
    obtain ⟨project, hproject, hproject'⟩ := hfields entry hentry
    obtain ⟨hresult, hmem⟩ := mem_definitions (Table.mem_of_lookup hproject)
    exact ⟨project, hmem, hresult, hproject'⟩

/-! ### Blocks that return -/

/-- One value is another one, as the search takes it: a product made of its fields again, or an indirection to it. -/
inductive Stems (f : StagedFunction) (operations : List StagedOperation) : ℕ → ℕ → Prop where
  | eta {make : StagedOperation} {source : ℕ} (mem : make ∈ operations) (fields : Eta operations make source)
      (type : (source, make.typeId) ∈ f.valueTypes) : Stems f operations make.result source
  | indirect {operation : StagedOperation} {source : ℕ} (mem : operation ∈ operations)
      (kind : operation.kind = "indirect.make") (operand : operation.operands.head? = some source) :
      Stems f operations operation.result source

def isAdministrative (operation : StagedOperation) : Bool :=
  ["indirect.make", "product.make", "product.project", "sum.make"].contains operation.kind

/-- A block that returns, from a call on: what is defined there is used only there, and only after its definition. -/
structure Closing (f : StagedFunction) (block : StagedBlock) (call : StagedOperation) (after : List StagedOperation)
    (returned : ℕ) : Prop where
  terminator : ∃ span, block.terminator = .return returned span
  operands : ∀ other ∈ f.blocks, ∀ operation ∈ other.operations, ∀ v ∈ operation.operands,
    v ∈ (call :: after).map (·.result) → operation ∈ after
  uses : ∀ other ∈ f.blocks, ∀ v ∈ other.terminator.uses, v ∈ (call :: after).map (·.result) → other = block
  administrative : ∀ operation ∈ after, isAdministrative operation = true

section Closing

variable {block : StagedBlock} {call : StagedOperation} {after : List StagedOperation} {returned : ℕ}
variable {search : TailSearch}

/-- **Against the flow**, a demand within the block comes from a demand within the block. -/
theorem Closing.step (hclosing : Closing f block call after returned) (hfound : search.Found f) {d d' : TailDemand}
    (hnext : d' ∈ search.next d) (hd' : d'.value ∈ (call :: after).map (·.result)) :
    d.value ∈ (call :: after).map (·.result) ∧
      (d.sumCase = none → d'.sumCase = none ∧ Stems f after d.value d'.value) := by
  obtain ⟨_, hreturn⟩ := hclosing.terminator
  have hafter : ∀ operation ∈ f.operations, d'.value ∈ operation.operands → operation ∈ after := by
    intro operation hoperation hv
    obtain ⟨other, hother, hmem⟩ := List.mem_flatMap.1 hoperation
    exact hclosing.operands other hother operation hmem _ hv hd'
  have hresult : ∀ operation ∈ after, operation.result ∈ (call :: after).map (·.result) := fun operation hmem =>
    List.mem_cons_of_mem _ (List.mem_map_of_mem hmem)
  unfold TailSearch.next at hnext
  split at hnext
  · next demands horigin =>
    unfold TailSearch.origin at horigin
    split at horigin
    · next source hsource =>
      -- a product of the fields of a value of the block
      cases horigin
      cases List.mem_singleton.1 hnext
      split at hsource
      · next hcase =>
        obtain ⟨make, hmake, hvalue, heta, htype⟩ := hfound.aliases _ _ hsource
        have hfields : ∀ entry ∈ make.operands.zipIdx, ∃ project ∈ after, project.result = entry.1 ∧
            project.kind = "product.project" ∧ project.field = some entry.2 ∧
            project.operands.head? = some source := by
          intro entry hentry
          obtain ⟨project, hproject, hrest⟩ := heta.fields entry hentry
          exact ⟨project, hafter project hproject (List.mem_of_head? hrest.2.2.2), hrest⟩
        have hmem : make ∈ after := by
          obtain ⟨first, hfirst⟩ := List.exists_mem_of_ne_nil _ heta.operands
          obtain ⟨i, hi, rfl⟩ := List.getElem_of_mem hfirst
          have hentry : (make.operands[i], i) ∈ make.operands.zipIdx := List.mk_mem_zipIdx_iff_getElem?.2 (by simp [hi])
          obtain ⟨project, hproject, hname, -⟩ := hfields _ hentry
          obtain ⟨other, hother, hmake⟩ := List.mem_flatMap.1 hmake
          have hdefined := hresult project hproject
          rw [hname] at hdefined
          exact hclosing.operands other hother make hmake _ hfirst hdefined
        exact ⟨hvalue ▸ hresult make hmem, fun _ => ⟨rfl, hvalue ▸ .eta hmem ⟨heta.kind, heta.operands, hfields⟩ htype⟩⟩
      · cases hsource
    · split at horigin
      · next arguments hincoming =>
        -- an argument of an edge of the block, of which there is none
        cases horigin
        obtain ⟨argument, hargument, rfl⟩ := List.mem_map.1 hnext
        obtain ⟨other, hother, edge, hedge, hmem⟩ := hfound.incoming _ _ hincoming argument hargument
        obtain rfl := hclosing.uses other hother argument (StagedTerminator.uses_of_edge hedge hmem) hd'
        rw [hreturn] at hedge
        cases hedge
      · cases horigin
  · next operation horigin =>
    have hdefinition : search.definitions.lookup d.value = some operation := by
      unfold TailSearch.origin at horigin
      split at horigin
      · cases horigin
      · split at horigin
        · cases horigin
        · exact Sum.inr.inj horigin
    obtain ⟨hvalue, hoperation⟩ := hfound.definitions _ _ hdefinition
    have hfirst : ∀ c, d' ∈ (operation.operands.head?.map fun value => (⟨value, c⟩ : TailDemand)).toList →
        operation.operands.head? = some d'.value ∧ d'.sumCase = c ∧ operation ∈ after := by
      intro c hd
      cases hhead : operation.operands.head? with
      | none =>
        rw [hhead] at hd
        cases hd
      | some value =>
        rw [hhead] at hd
        cases List.mem_singleton.1 hd
        exact ⟨rfl, rfl, hafter operation hoperation (List.mem_of_head? hhead)⟩
    unfold StagedOperation.passesOn at hnext
    split at hnext
    · next hcase =>
      split at hnext
      · next hkind =>
        obtain ⟨hhead, hnone, hmem⟩ := hfirst none hnext
        have hadministrative := hclosing.administrative operation hmem
        have hmake : operation.kind = "indirect.make" := by
          rcases hkind with hload | hmake
          · rw [isAdministrative, hload] at hadministrative
            exact absurd hadministrative (by decide)
          · exact hmake
        exact ⟨hvalue ▸ hresult operation hmem, fun _ => ⟨hnone, hvalue ▸ .indirect hmem hmake hhead⟩⟩
      · split at hnext
        · next hkind =>
          split at hnext
          · next value sumCase hhead _ =>
            cases List.mem_singleton.1 hnext
            have hadministrative := hclosing.administrative operation
              (hafter operation hoperation (List.mem_of_head? hhead))
            rw [isAdministrative, hkind] at hadministrative
            exact absurd hadministrative (by decide)
          · cases hnext
        · cases hnext
    · next hcase =>
      split at hnext
      · obtain ⟨_, _, hmem⟩ := hfirst none hnext
        exact ⟨hvalue ▸ hresult operation hmem, fun hnone => by rw [hnone] at hcase; cases hcase⟩
      · cases hnext
  · cases hnext

/-- **A self call that the search comes to** is carried to the return of its block. -/
theorem stems_of_leads (hclosing : Closing f block call after returned) (hfound : search.Found f) {d₀ d : TailDemand}
    (hreturned : d₀ ∈ f.returned) (hlead : LeadsTo search.next d₀ d)
    (hd : d.value ∈ (call :: after).map (·.result)) :
    d.sumCase = none ∧ Relation.ReflTransGen (Stems f after) returned d.value := by
  induction hlead with
  | refl =>
    obtain ⟨other, hother, hterminator⟩ := List.mem_filterMap.1 hreturned
    split at hterminator
    · next value span hreturn =>
      cases hterminator
      obtain rfl := hclosing.uses other hother value (by simp [hreturn, StagedTerminator.uses]) hd
      obtain ⟨_, hreturn'⟩ := hclosing.terminator
      cases hreturn.symm.trans hreturn'
      exact ⟨rfl, .refl⟩
    · cases hterminator
  | tail _ hnext ih =>
    obtain ⟨hbefore, hstep⟩ := hclosing.step hfound hnext hd
    obtain ⟨hnone, hchain⟩ := ih hbefore
    obtain ⟨hnone', hstems⟩ := hstep hnone
    exact ⟨hnone', hchain.tail hstems⟩

end Closing

end Blot.Hir
