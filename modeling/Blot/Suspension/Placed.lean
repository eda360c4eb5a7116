import Blot.Suspension.Replacement

/-!
# Where an activation of a well-formed function is

A place of an activation stands in a block that control arrives at, and what was defined on the way there has a value.
So nothing that a well-formed function reads is absent, and its branches find their blocks.
-/

namespace Blot.Suspension.Direct

open Blot.Hir Blot.Support

variable {V σ : Type} {f : StagedFunction}

/-- **A place that control comes to**, with values for all that was defined on the way. -/
def Placed (f : StagedFunction) (p : Place V) : Prop :=
  ∃ seen block before, f.Arrives seen block ∧ block.operations = before ++ p.operations ∧
    block.terminator = p.terminator ∧
    ∀ v ∈ block.names ++ before.map (·.result) ++ seen, ∃ x, readValue p.values v = .ok x

theorem readValue_insert (values : Table ValueId V) (v v' : ValueId) (x : V) :
    readValue (values.insert v x) v' = if v' = v then .ok x else readValue values v' := by
  unfold readValue
  rw [Table.lookup_insert]
  split <;> rfl

/-- A value that is read stays readable when another one is added. -/
theorem read_insert {values : Table ValueId V} {v : ValueId} (v' : ValueId) (x : V)
    (h : v = v' ∨ ∃ y, readValue values v = .ok y) : ∃ y, readValue (values.insert v' x) v = .ok y := by
  rw [readValue_insert]
  split
  · exact ⟨x, rfl⟩
  · next hne => exact h.resolve_left hne

theorem read_extend {values : Table ValueId V} {names : List ValueId} {xs : List V} (hlength : names.length = xs.length)
    {v : ValueId} (h : v ∈ names ∨ ∃ y, readValue values v = .ok y) :
    ∃ y, readValue (values.extend (names.zip xs)) v = .ok y := by
  induction names generalizing values xs with
  | nil => simpa [Table.extend] using h
  | cons name names ih =>
    cases xs with
    | nil => cases hlength
    | cons x xs =>
      refine ih (by simpa using hlength) ?_
      rcases h with h | h
      · rcases List.mem_cons.1 h with rfl | h
        · exact Or.inr (read_insert v x (Or.inl rfl))
        · exact Or.inl h
      · exact Or.inr (read_insert name x (Or.inr h))

theorem collect_of_reads {values : Table ValueId V} {ids : List ValueId}
    (h : ∀ v ∈ ids, ∃ x, readValue values v = .ok x) : ∃ xs, collect (readValue values) ids = .ok xs :=
  collect_of_forall h

section Enter

variable {values : Table ValueId V} {block : StagedBlock}

/-- The place at the start of a block. -/
def entered (values : Table ValueId V) (block : StagedBlock) (xs : List V) : Place V :=
  ⟨values.extend (block.names.zip xs), block.operations, block.terminator⟩

theorem enter_of_find {target : ℕ} {arguments : List ValueId} (hfind : f.blocks.find? (·.id == target) = some block)
    {xs : List V} (hxs : collect (readValue values) arguments = .ok xs)
    (hlength : block.parameters.length = xs.length) :
    enter f values target arguments = .ok ((entered values block xs).state f) := by
  simp [enter, hfind, demand, hxs, hlength, entered, Place.state, Place.position, StagedBlock.names]

theorem start_of_find (hfind : f.blocks.find? (·.id == f.entryBlock) = some block) {xs : List V}
    (hlength : block.parameters.length = xs.length) : start f xs = .ok (.ok ((entered [] block xs).state f)) := by
  simp [start, hfind, demand, hlength, entered, Place.state, Place.position, StagedBlock.names]

theorem start_of_ne (hfind : f.blocks.find? (·.id == f.entryBlock) = some block) {xs : List V}
    (hlength : block.parameters.length ≠ xs.length) :
    start f xs = .ok (.error "interpreter entry arity differs from its arguments") := by
  simp [start, hfind, demand, hlength]

/-- A block leaves the values that are no parameters of it. -/
theorem read_entered_of_notMem {xs : List V} {v : ℕ} (hv : v ∉ block.names) :
    readValue (entered values block xs).values v = readValue values v := by
  have hnone : ((block.names.zip xs).reverse).lookup v = none := by
    rw [List.lookup_eq_none_iff]
    intro entry hentry
    have hmem := (List.of_mem_zip (List.mem_reverse.1 hentry)).1
    simpa using fun he : v = entry.1 => hv (he ▸ hmem)
  unfold readValue
  rw [entered, Table.lookup_extend, hnone, Option.none_or]

theorem read_entered {values values' : Table ValueId V} {a b : StagedBlock} {xs ys : List V} {v : ℕ}
    (hsame : ((b.names.zip ys).reverse).lookup v = ((a.names.zip xs).reverse).lookup v)
    (hlength : a.parameters.length = xs.length) (hv : v ∈ a.names) :
    readValue (entered values b ys).values v = readValue (entered values' a xs).values v := by
  have hsome : ∃ x, ((a.names.zip xs).reverse).lookup v = some x := by
    cases hl : ((a.names.zip xs).reverse).lookup v with
    | some x => exact ⟨x, rfl⟩
    | none =>
      rw [List.lookup_eq_none_iff] at hl
      obtain ⟨i, hi, rfl⟩ := List.getElem_of_mem hv
      have hi' : i < xs.length := by simpa [StagedBlock.names, hlength] using hi
      have hmem : (a.names[i], xs[i]) ∈ a.names.zip xs := by
        rw [List.mem_iff_getElem]
        exact ⟨i, by simp [hi, hi'], by simp⟩
      exact absurd (hl _ (List.mem_reverse.2 hmem)) (by simp)
  obtain ⟨x, hx⟩ := hsome
  unfold readValue
  rw [entered, entered, Table.lookup_extend, Table.lookup_extend, hsame, hx]
  rfl

theorem Placed.entered {seen : List ℕ} (h : f.Arrives seen block) {xs : List V}
    (hlength : block.parameters.length = xs.length) (hseen : ∀ v ∈ seen, ∃ x, readValue values v = .ok x) :
    Placed f (entered values block xs) := by
  refine ⟨seen, block, [], h, rfl, rfl, fun v hv => ?_⟩
  refine read_extend (by simpa [StagedBlock.names] using hlength) ?_
  rcases List.mem_append.1 hv with hv | hv
  · exact Or.inl (by simpa using hv)
  · exact Or.inr (hseen v hv)

end Enter

section Deeds

variable [Values V] {execute : Execute V σ} {values : Table ValueId V} {operation : StagedOperation}
variable {operations : List StagedOperation} {terminator : StagedTerminator} {xs : List V} {s : σ}

theorem deed_target_fault (hcall : isCall operation = true) {fault : Fault} (h : target operation = .error fault) :
    deed execute ((⟨values, operation :: operations, terminator⟩ : Place V).state f) s = .error fault := by
  simp [deed, Place.state, Place.position, hcall, h]

theorem deed_call (hcall : isCall operation = true) {t : CallTarget} (h : target operation = .ok t)
    (hxs : collect (readValue values) operation.operands = .ok xs) :
    deed execute ((⟨values, operation :: operations, terminator⟩ : Place V).state f) s =
      .ok (.call t xs values (.bind operation.result (.staged f operations terminator)), s) := by
  simp [deed, Place.state, Place.position, hcall, h, callDeed, hxs]

theorem deed_executed (hcall : ¬isCall operation = true)
    (hxs : collect (readValue values) operation.operands = .ok xs) {x : V} {s' : σ}
    (h : execute (instruction operation) xs s = (.ok x, s')) :
    deed execute ((⟨values, operation :: operations, terminator⟩ : Place V).state f) s =
      .ok (.on (((⟨values, operations, terminator⟩ : Place V).bind operation.result x).state f), s') := by
  simp [deed, Place.state, Place.position, Place.bind, hcall, hxs, h]

theorem deed_trapped (hcall : ¬isCall operation = true)
    (hxs : collect (readValue values) operation.operands = .ok xs) {message : String} {s' : σ}
    (h : execute (instruction operation) xs s = (.error message, s')) :
    deed execute ((⟨values, operation :: operations, terminator⟩ : Place V).state f) s =
      .ok (.trapped message, s') := by
  simp [deed, Place.state, Place.position, hcall, hxs, h]

theorem deed_terminate {d : Deed V} (h : terminateDeed f values terminator = .ok d) :
    deed execute ((⟨values, [], terminator⟩ : Place V).state f) s = .ok (d, s) := by
  simp [deed, Place.state, Place.position, h]

end Deeds

section Placed

variable (hwell : f.WellFormed) {p : Place V} (h : Placed f p)

include h

theorem Placed.bind {operation : StagedOperation} {operations : List StagedOperation}
    (hoperations : p.operations = operation :: operations) (x : V) :
    Placed f (({ p with operations } : Place V).bind operation.result x) := by
  obtain ⟨seen, block, before, harrives, hblock, hterminator, hreads⟩ := h
  refine ⟨seen, block, before ++ [operation], harrives, by simp [hblock, hoperations, Place.bind], hterminator, ?_⟩
  intro v hv
  refine read_insert operation.result x ?_
  have hcases : v = operation.result ∨ v ∈ block.names ++ before.map (·.result) ++ seen := by
    simp only [List.map_append, List.map_cons, List.map_nil, List.mem_append, List.mem_cons, List.not_mem_nil] at hv ⊢
    tauto
  exact hcases.imp_right (hreads v)

include hwell

/-- **The operands of the next operation have values.** -/
theorem Placed.operands {operation : StagedOperation} {operations : List StagedOperation}
    (hoperations : p.operations = operation :: operations) :
    ∃ xs, collect (readValue p.values) operation.operands = .ok xs := by
  obtain ⟨seen, block, before, harrives, hblock, _, hreads⟩ := h
  refine collect_of_reads fun v hv => hreads v ?_
  exact (hwell.dominated seen block harrives).operands before operation operations (hoperations ▸ hblock) v hv

/-- **What the end of the block reads has a value.** -/
theorem Placed.uses (hoperations : p.operations = []) {v : ValueId} (hv : v ∈ p.terminator.uses) :
    ∃ x, readValue p.values v = .ok x := by
  obtain ⟨seen, block, before, harrives, hblock, hterminator, hreads⟩ := h
  rw [hoperations, List.append_nil] at hblock
  refine hreads v ?_
  have huse := (hwell.dominated seen block harrives).uses v (hterminator ▸ hv)
  rwa [StagedBlock.defined, hblock] at huse

/-- **An edge leads to its block**, with a value for each parameter. -/
theorem Placed.edge (hoperations : p.operations = []) {edge : ℕ × List ℕ} (hedge : edge ∈ p.terminator.edges)
    {xs : List V}
    (hxs : collect (readValue p.values) edge.2 = .ok xs) :
    ∃ block, f.blocks.find? (·.id == edge.1) = some block ∧ block.parameters.length = xs.length ∧
      Placed f (Direct.entered p.values block xs) := by
  obtain ⟨seen, block, before, harrives, hblock, hterminator, hreads⟩ := h
  rw [hoperations, List.append_nil] at hblock
  obtain ⟨successor, hmem, hid, hlength⟩ := hwell.edges block harrives.mem edge (hterminator ▸ hedge)
  have harity : successor.parameters.length = xs.length := hlength.trans (collect_length hxs).symm
  refine ⟨successor, hid ▸ find_block hwell.ids hmem, harity,
    .entered (.edge harrives (hterminator ▸ hedge) hmem hid) harity fun v hv => hreads v ?_⟩
  rwa [StagedBlock.defined, hblock] at hv

theorem Placed.enters (hoperations : p.operations = []) {edge : ℕ × List ℕ} (hedge : edge ∈ p.terminator.edges)
    {xs : List V} (hxs : collect (readValue p.values) edge.2 = .ok xs) {block : StagedBlock} (hmem : block ∈ f.blocks)
    (hid : block.id = edge.1) :
    enter f p.values edge.1 edge.2 = .ok ((Direct.entered p.values block xs).state f) ∧
      Placed f (Direct.entered p.values block xs) := by
  obtain ⟨found, hfind, hlength, hplaced⟩ := h.edge hwell hoperations hedge hxs
  have hfound : found.id = edge.1 := by simpa using List.find?_some hfind
  obtain rfl := block_of_id hwell.ids (List.mem_of_find?_eq_some hfind) hmem (hfound.trans hid.symm)
  exact ⟨enter_of_find hfind hxs hlength, hplaced⟩

end Placed

theorem start_cases (hwell : f.WellFormed) (xs : List V) :
    ∃ block, f.blocks.find? (·.id == f.entryBlock) = some block ∧
      (block.parameters.length = xs.length ∧ Placed f (entered [] block xs) ∨ block.parameters.length ≠ xs.length) := by
  obtain ⟨block, hmem, hid⟩ := hwell.entry
  refine ⟨block, hid ▸ find_block hwell.ids hmem, ?_⟩
  by_cases hlength : block.parameters.length = xs.length
  · exact Or.inl ⟨hlength, .entered (.entry hmem hid) hlength (by simp)⟩
  · exact Or.inr hlength

end Blot.Suspension.Direct
