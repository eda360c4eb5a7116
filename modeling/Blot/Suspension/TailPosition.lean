import Blot.Hir.TailCalls
import Blot.Suspension.Placed

/-!
# Recovered tail calls

A recovered function branches to its entry block where the function it was made from called itself and went on.  The
two show the host the same as long as the rest of an activation that was cut off only gives the result on.

* `Recovered` — what recovery does to a function, whatever the calls it finds;
* `Waits` — a caller whose call was cut off;
* `recovered_replaces` — an activation and the one loop that stands for it and its callers.
-/

namespace Blot.Suspension.Direct

open Blot.Hir Blot.Support Blot.Support.Lockstep

variable {V σ : Type} {f g : StagedFunction}

/-! ### What recovery does -/

inductive CutAt (f : StagedFunction) (block : StagedBlock) : StagedBlock → Prop where
  | same : CutAt f block block
  | cut {before after : List StagedOperation} {call : StagedOperation} (span : RuntimeSpan)
      (hblock : block.operations = before ++ call :: after) (hcall : f.callsItself call = true) :
      CutAt f block { block with operations := before, terminator := .branch f.entryBlock call.operands span }

theorem CutAt.id_eq {block block' : StagedBlock} (h : CutAt f block block') : block'.id = block.id := by
  cases h <;> rfl

theorem CutAt.names_eq {block block' : StagedBlock} (h : CutAt f block block') : block'.names = block.names := by
  cases h <;> rfl

theorem CutAt.trans {a b c : StagedBlock} (h : CutAt f a b) (h' : CutAt f b c) : CutAt f a c := by
  cases h with
  | same => exact h'
  | @cut before after call span hblock hcall =>
    cases h' with
    | same => exact .cut span hblock hcall
    | @cut before' after' call' span' hblock' hcall' =>
      have hblock' : before = before' ++ call' :: after' := hblock'
      have hsplit : a.operations = before' ++ call' :: (after' ++ call :: after) := by simp [hblock, hblock']
      exact .cut span' hsplit hcall'

/-- **A recovered function**: some blocks are cut at a self call. -/
def Recovered (f g : StagedFunction) : Prop :=
  ∃ cut : StagedBlock → StagedBlock, (∀ block, CutAt f block (cut block)) ∧ g = { f with blocks := f.blocks.map cut }

theorem Recovered.trans {f g k : StagedFunction} (h : Recovered f g) (h' : Recovered g k) : Recovered f k := by
  obtain ⟨cut, hcut, rfl⟩ := h
  obtain ⟨cut', hcut', rfl⟩ := h'
  refine ⟨cut' ∘ cut, fun block => (hcut block).trans ?_, by simp⟩
  show CutAt f (cut block) (cut' (cut block))
  generalize hto : cut' (cut block) = block'
  have hat := hto ▸ hcut' (cut block)
  cases hat with
  | same => exact .same
  | cut span hblock hcall => exact .cut span hblock hcall

theorem cutAt_cut (f : StagedFunction) {isTail : StagedOperation → Bool}
    (returns : List StagedOperation → StagedTerminator → Bool)
    (htail : ∀ operation, isTail operation = true → f.callsItself operation = true) (block : StagedBlock) :
    CutAt f block (f.cut isTail returns block) := by
  unfold StagedFunction.cut
  split
  · next before call after hsplit =>
    obtain ⟨hblock, hcall⟩ := splitLast_eq_some hsplit
    split
    · exact .cut call.span hblock (htail call hcall)
    · exact .same
  · exact .same

theorem recovered_refl (f : StagedFunction) : Recovered f f := ⟨id, fun _ => .same, by simp⟩

theorem recovered_of_recoverUnit {rounds : ℕ} (h : recoverUnitTailCalls rounds f = .ok g) : Recovered f g := by
  unfold recoverUnitTailCalls at h
  split at h
  · cases h
    exact recovered_refl f
  · simp only [bind_eq_ok, pure_eq_ok] at h
    obtain ⟨unitReturns, _, rfl⟩ := h
    exact ⟨_, cutAt_cut f _ fun _ htail => (Bool.and_eq_true_iff.1 htail).1, rfl⟩

/-- **Recovery only cuts blocks at self calls.** -/
theorem recovered_of_recover {rounds : ℕ} (h : recoverDirectTailCalls rounds f = .ok g) : Recovered f g := by
  simp only [recoverDirectTailCalls, bind_eq_ok] at h
  obtain ⟨k, hk, calls, _, hg⟩ := h
  refine (recovered_of_recoverUnit hk).trans ?_
  split at hg
  · cases hg
    exact recovered_refl _
  · cases hg
    exact ⟨_, cutAt_cut k _ fun _ htail => (Bool.and_eq_true_iff.1 htail).1, rfl⟩

/-- **A call that was cut off**, as its caller waits for the result: what follows the call is left of the block, and
the block of the recovered function ends before it. -/
def CutOff (f g : StagedFunction) (result : ValueId) (rest : Place V) : Prop :=
  ∃ block ∈ f.blocks, ∃ before call, block.operations = before ++ call :: rest.operations ∧
    block.terminator = rest.terminator ∧ call.result = result ∧ f.callsItself call = true ∧
    ∃ block' ∈ g.blocks, block'.id = block.id ∧ block'.operations = before

/-- A caller whose call was cut off, at the place that control came to. -/
def Waits (f g : StagedFunction) (result : ValueId) (rest : Place V) : Prop :=
  CutOff f g result rest ∧ ∃ call : StagedOperation, call.result = result ∧
    Placed f (⟨rest.values, call :: rest.operations, rest.terminator⟩ : Place V)

/-- The self calls of a function have an argument for each parameter of the entry block. -/
def CallsFit (f : StagedFunction) : Prop :=
  ∀ block ∈ f.blocks, ∀ call ∈ block.operations, f.callsItself call = true →
    ∀ entry ∈ f.blocks, entry.id = f.entryBlock → entry.parameters.length = call.operands.length

/-- The branches of a recovered function find their blocks. -/
theorem Recovered.branchesFit (hwell : f.WellFormed) (hfit : CallsFit f) (h : Recovered f g) : g.BranchesFit := by
  obtain ⟨cut, hcut, rfl⟩ := h
  have hfinds : ∀ target block, f.blocks.find? (·.id == target) = some block →
      (f.blocks.map cut).find? (·.id == target) = some (cut block) := by
    intro target block hfind
    have hkeys : (fun b : StagedBlock => b.id == target) ∘ cut = fun b : StagedBlock => b.id == target := by
      funext b
      exact congrArg (· == target) (hcut b).id_eq
    rw [List.find?_map, hkeys, hfind, Option.map_some]
  have hlength : ∀ block, (cut block).parameters.length = block.parameters.length := by
    intro block
    have hnames := congrArg List.length (hcut block).names_eq
    simpa only [StagedBlock.names, List.length_map] using hnames
  intro block' hblock' edge hedge
  obtain ⟨block, hblock, rfl⟩ := List.mem_map.1 hblock'
  generalize hto : cut block = block' at hedge
  have hat := hto ▸ hcut block
  cases hat with
  | same =>
    obtain ⟨successor, hfind, hl⟩ := hwell.branchesFit block hblock edge hedge
    exact ⟨cut successor, hfinds _ _ hfind, (hlength successor).trans hl⟩
  | @cut before after call span hsplit hcall =>
    cases List.mem_singleton.1 hedge
    obtain ⟨entry, hentry, hid⟩ := hwell.entry
    have hfind : f.blocks.find? (·.id == f.entryBlock) = some entry := hid ▸ find_block hwell.ids hentry
    have hl := hfit block hblock call (by simp [hsplit]) hcall entry hentry hid
    exact ⟨cut entry, hfinds _ _ hfind, (hlength entry).trans hl⟩

/-- **Recovery returns a function.** -/
theorem recover_finishes (hwell : f.WellFormed) (hfit : CallsFit f) :
    ∃ g n, ∀ rounds ≥ n, recoverDirectTailCalls rounds f = .ok g := by
  obtain ⟨k, n, hn⟩ := recoverUnitTailCalls_finishes f
  have hk := recovered_of_recoverUnit (hn n (Nat.le_refl n))
  obtain ⟨calls, n', hn'⟩ := tailCalls_finishes (hk.branchesFit hwell hfit)
  have hrounds : ∀ rounds ≥ max n n', recoverUnitTailCalls rounds f = .ok k ∧ k.tailCalls rounds = .ok calls :=
    fun rounds h => ⟨hn rounds (by omega), hn' rounds (by omega)⟩
  have hok : ∃ g, recoverDirectTailCalls (max n n') f = .ok g := by
    simp only [recoverDirectTailCalls, hrounds _ (Nat.le_refl _), ok_bind]
    split <;> exact ⟨_, rfl⟩
  obtain ⟨g, hg⟩ := hok
  refine ⟨g, max n n', fun rounds h => hg ▸ ?_⟩
  simp only [recoverDirectTailCalls, hrounds rounds h, hrounds _ (Nat.le_refl _), ok_bind]

/-! ### Activations -/

/-- What is left of a block, and of the block it was cut to. -/
inductive Rest (f g : StagedFunction) (p q : Place V) : Prop where
  | same (hoperations : q.operations = p.operations) (hterminator : q.terminator = p.terminator)
  | cut {after : List StagedOperation} {call : StagedOperation} (span : RuntimeSpan)
      (hoperations : p.operations = q.operations ++ call :: after)
      (hterminator : q.terminator = .branch f.entryBlock call.operands span) (hcall : f.callsItself call = true)
      (hcut : ∀ values, CutOff f g call.result (⟨values, after, p.terminator⟩ : Place V))

/-- **An activation, and the loop that stands for it**: what the one has computed, the other has too. -/
structure Loops (f g : StagedFunction) (p q : Place V) : Prop where
  placed : Placed f p
  within : Within p.values q.values
  rest : Rest f g p q

section Loops

variable {cut : StagedBlock → StagedBlock} (hcut : ∀ block, CutAt f block (cut block))
  (hg : g = { f with blocks := f.blocks.map cut })

include hcut hg

theorem find_cut (target : ℕ) :
    g.blocks.find? (·.id == target) = (f.blocks.find? (·.id == target)).map cut := by
  subst hg
  show (f.blocks.map cut).find? _ = _
  rw [List.find?_map]
  congr 2
  funext block
  exact congrArg (· == target) (hcut block).id_eq

/-- Activations enter a block and what it was cut to. -/
theorem loops_entered {block : StagedBlock} (hmem : block ∈ f.blocks) {values store : Table ValueId V}
    {xs : List V} (hplaced : Placed f (entered values block xs)) (hwithin : Within values store) :
    Loops f g (entered values block xs) (entered store (cut block) xs) := by
  have hentry := (hcut block).names_eq
  refine ⟨hplaced, ?_, ?_⟩
  · show Within (values.extend (block.names.zip xs)) (store.extend ((cut block).names.zip xs))
    rw [hentry]
    exact hwithin.extend _
  · have hmem' : cut block ∈ g.blocks := hg ▸ List.mem_map_of_mem hmem
    generalize hto : cut block = block' at hmem'
    have hat := hto ▸ hcut block
    cases hat with
    | same => exact .same rfl rfl
    | @cut before after call span hblock hcall =>
      exact .cut span hblock rfl hcall fun values =>
        ⟨block, hmem, before, call, hblock, rfl, rfl, hcall, _, hmem', rfl, rfl⟩

end Loops

theorem Rest.cons {p q : Place V} (h : Rest f g p q) {operation : StagedOperation} {operations : List StagedOperation}
    (hoperations : p.operations = operation :: operations) :
    (∃ operations', q.operations = operation :: operations' ∧
      ∀ values store, Rest f g (⟨values, operations, p.terminator⟩ : Place V) ⟨store, operations', q.terminator⟩) ∨
    q.operations = [] ∧ f.callsItself operation = true ∧
      (∃ span, q.terminator = .branch f.entryBlock operation.operands span) ∧
      ∀ values, CutOff f g operation.result (⟨values, operations, p.terminator⟩ : Place V) := by
  cases h with
  | same hsame hterminator =>
    exact Or.inl ⟨operations, hsame.trans hoperations, fun _ _ => .same rfl hterminator⟩
  | @cut after call span hsplit hterminator hcall hcut =>
    rw [hoperations] at hsplit
    cases hq : q.operations with
    | nil =>
      rw [hq] at hsplit
      cases hsplit
      exact Or.inr ⟨rfl, hcall, ⟨span, hterminator⟩, hcut⟩
    | cons first operations' =>
      rw [hq] at hsplit
      cases hsplit
      exact Or.inl ⟨operations', rfl, fun _ _ => .cut span rfl hterminator hcall hcut⟩

theorem Rest.nil {p q : Place V} (h : Rest f g p q) (hoperations : p.operations = []) :
    q.operations = [] ∧ q.terminator = p.terminator := by
  cases h with
  | same hsame hterminator => exact ⟨hsame.trans hoperations, hterminator⟩
  | cut span hsplit => simp [hoperations] at hsplit

variable [Values V] {execute : Execute V σ}

omit [Values V] in
theorem callsItself_iff {operation : StagedOperation} :
    f.callsItself operation = true ↔ operation.kind = "call.direct" ∧ operation.function = some f.id := by
  simp [StagedFunction.callsItself]

/-- **The next operation** of an activation and of the loop that stands for it. -/
theorem joins_operation (hwell : f.WellFormed) (hfit : CallsFit f) {cut : StagedBlock → StagedBlock}
    (hcut : ∀ block, CutAt f block (cut block)) (hg : g = { f with blocks := f.blocks.map cut }) {p q : Place V}
    (h : Loops f g p q) (s : σ) {operation : StagedOperation} {operations : List StagedOperation}
    (hoperations : p.operations = operation :: operations) :
    Joins f g (Loops f g) (Waits f g) execute s p q := by
  obtain ⟨values, _, terminator⟩ := p
  obtain ⟨store, operations', terminator'⟩ := q
  cases hoperations
  obtain ⟨hplaced, hwithin, hrest⟩ := h
  obtain ⟨xs, hxs⟩ := hplaced.operands hwell rfl
  have hxs' : collect (readValue store) operation.operands = .ok xs := hwithin.collect hxs
  rcases hrest.cons rfl with ⟨rest', rfl, hrest'⟩ | ⟨rfl, hcall, ⟨span, rfl⟩, hcutoff⟩
  · have hbind : ∀ x, Loops f g ((⟨values, operations, terminator⟩ : Place V).bind operation.result x)
        ((⟨store, rest', terminator'⟩ : Place V).bind operation.result x) := fun x =>
      ⟨hplaced.bind rfl x, hwithin.insert operation.result x, hrest' _ _⟩
    by_cases hcall : isCall operation = true
    · rcases htarget : target operation with fault | t
      · exact .fault (deed_target_fault hcall htarget) (deed_target_fault hcall htarget)
      · exact .deeds (deed_call hcall htarget hxs) (deed_call hcall htarget hxs') (.call t xs (.act hbind))
    · rcases hexecute : execute (instruction operation) xs s with ⟨message | x, s'⟩
      · exact .deeds (deed_trapped hcall hxs hexecute) (deed_trapped hcall hxs' hexecute) (.trapped message)
      · exact .deeds (deed_executed hcall hxs hexecute) (deed_executed hcall hxs' hexecute) (.on (.act (hbind x)))
  · obtain ⟨hkind, hfunction⟩ := callsItself_iff.1 hcall
    have htarget : target operation = .ok (.function f.id) := by simp [target, hkind, hfunction, demand]
    have hwaits : Waits f g operation.result (⟨values, operations, terminator⟩ : Place V) :=
      ⟨hcutoff values, operation, rfl, hplaced⟩
    obtain ⟨seen, block, before, harrives, hblock, _, _⟩ := hplaced
    obtain ⟨entry, hentry, hid⟩ := hwell.entry
    have hlength : entry.parameters.length = xs.length :=
      (hfit block harrives.mem operation (by simp [hblock]) hcall entry hentry hid).trans (collect_length hxs).symm
    have hfind : f.blocks.find? (·.id == f.entryBlock) = some entry := hid ▸ find_block hwell.ids hentry
    have hfind' : g.blocks.find? (·.id == f.entryBlock) = some (cut entry) := by
      rw [find_cut hcut hg, hfind, Option.map_some]
    have hlength' : (cut entry).parameters.length = xs.length := by
      have hnames := congrArg List.length (hcut entry).names_eq
      simp only [StagedBlock.names, List.length_map] at hnames
      exact hnames.trans hlength
    have henter := enter_of_find hfind' hxs' hlength'
    have hempty : Within [] store := fun _ _ hv => by cases hv
    refine .jump ?_ ?_ hwaits (start_of_find hfind hlength)
      (loops_entered hcut hg hentry (.entered (.entry hentry hid) hlength (by simp)) hempty)
    · exact deed_call (by simp [isCall, hkind]) htarget hxs
    · exact deed_terminate (by simp [terminateDeed, henter])

section Recovered

variable (hwell : f.WellFormed) {cut : StagedBlock → StagedBlock} (hcut : ∀ block, CutAt f block (cut block))
  (hg : g = { f with blocks := f.blocks.map cut })

include hwell hcut hg

omit [Values V] in
theorem enters_alike {p : Place V} {store : Table ValueId V} (hplaced : Placed f p) (hwithin : Within p.values store)
    (hoperations : p.operations = []) {edge : ℕ × List ℕ} (hedge : edge ∈ p.terminator.edges)
    (hreads : ∀ v ∈ edge.2, v ∈ p.terminator.uses) :
    ∃ state state', enter f p.values edge.1 edge.2 = .ok state ∧ enter g store edge.1 edge.2 = .ok state' ∧
      StatesAlike f g (Loops f g) state state' := by
  obtain ⟨xs, hxs⟩ := collect_of_reads fun v hv => hplaced.uses hwell hoperations (hreads v hv)
  obtain ⟨block, hfind, hlength, hentered⟩ := hplaced.edge hwell hoperations hedge hxs
  have hnames := congrArg List.length (hcut block).names_eq
  simp only [StagedBlock.names, List.length_map] at hnames
  have hfind' : g.blocks.find? (·.id == edge.1) = some (cut block) := by rw [find_cut hcut hg, hfind, Option.map_some]
  exact ⟨_, _, enter_of_find hfind hxs hlength, enter_of_find hfind' (hwithin.collect hxs) (hnames.trans hlength),
    .act (loops_entered hcut hg (List.mem_of_find?_eq_some hfind) hentered hwithin)⟩

/-- **The end of a block** of an activation and of the loop that stands for it. -/
theorem joins_end {p q : Place V} (h : Loops f g p q) (s : σ) (hoperations : p.operations = []) :
    Joins f g (Loops f g) (Waits f g) execute s p q := by
  obtain ⟨hplaced, hwithin, hrest⟩ := h
  obtain ⟨hoperations', hterminator⟩ := hrest.nil hoperations
  obtain ⟨values, _, terminator⟩ := p
  obtain ⟨store, _, _⟩ := q
  cases hoperations
  cases hoperations'
  cases hterminator
  have hread : ∀ v ∈ terminator.uses, ∃ x, readValue values v = .ok x ∧ readValue store v = .ok x := by
    intro v hv
    obtain ⟨x, hx⟩ := hplaced.uses hwell rfl hv
    exact ⟨x, hx, hwithin.read hx⟩
  have henter : ∀ edge ∈ terminator.edges, (∀ v ∈ edge.2, v ∈ terminator.uses) → ∃ state state',
      enter f values edge.1 edge.2 = .ok state ∧ enter g store edge.1 edge.2 = .ok state' ∧
        StatesAlike f g (Loops f g) state state' :=
    fun edge hedge hreads => enters_alike hwell hcut hg hplaced hwithin rfl hedge hreads
  cases terminator with
  | branch target arguments span =>
    obtain ⟨state, state', hs, hs', halike⟩ := henter (target, arguments) (by simp [StagedTerminator.edges])
      (fun v hv => hv)
    exact .deeds (deed_terminate (by simp [terminateDeed, hs])) (deed_terminate (by simp [terminateDeed, hs']))
      (.on halike)
  | conditional condition consequent consequentArguments alternate alternateArguments span =>
    obtain ⟨x, hx, hx'⟩ := hread condition (by simp [StagedTerminator.uses])
    rcases hcondition : Values.condition x with message | (_ | _)
    · exact .deeds (deed_terminate (by simp [terminateDeed, hx, hcondition]))
        (deed_terminate (by simp [terminateDeed, hx', hcondition])) (.refused message)
    · obtain ⟨state, state', hs, hs', halike⟩ := henter (alternate, alternateArguments)
        (by simp [StagedTerminator.edges])
        (fun v hv => by simp [StagedTerminator.uses, show v ∈ alternateArguments from hv])
      exact .deeds (deed_terminate (by simp [terminateDeed, hx, hcondition, hs]))
        (deed_terminate (by simp [terminateDeed, hx', hcondition, hs'])) (.on halike)
    · obtain ⟨state, state', hs, hs', halike⟩ := henter (consequent, consequentArguments)
        (by simp [StagedTerminator.edges])
        (fun v hv => by simp [StagedTerminator.uses, show v ∈ consequentArguments from hv])
      exact .deeds (deed_terminate (by simp [terminateDeed, hx, hcondition, hs]))
        (deed_terminate (by simp [terminateDeed, hx', hcondition, hs'])) (.on halike)
  | switch selector cases fallback span =>
    obtain ⟨x, hx, hx'⟩ := hread selector (by simp [StagedTerminator.uses])
    let chosen := ((cases.find? fun switchCase => Values.matches x switchCase.value).map (·.target)).getD fallback
    have hchosen : (chosen, []) ∈ (StagedTerminator.switch selector cases fallback span).edges := by
      show _ ∈ cases.map _ ++ [_]
      cases hfind : cases.find? fun switchCase => Values.matches x switchCase.value with
      | none => simp [chosen, hfind]
      | some found =>
        refine List.mem_append_left _ (List.mem_map.2 ⟨found, List.mem_of_find?_eq_some hfind, ?_⟩)
        simp [chosen, hfind]
    obtain ⟨state, state', hs, hs', halike⟩ := henter (chosen, []) hchosen (by simp)
    exact .deeds (deed_terminate (by simp only [terminateDeed, hx, ok_bind]; exact congrArg (· >>= _) hs))
      (deed_terminate (by simp only [terminateDeed, hx', ok_bind]; exact congrArg (· >>= _) hs')) (.on halike)
  | «return» value span =>
    obtain ⟨x, hx, hx'⟩ := hread value (by simp [StagedTerminator.uses])
    exact .deeds (deed_terminate (by simp [terminateDeed, returnDeed, hx]))
      (deed_terminate (by simp [terminateDeed, returnDeed, hx'])) (.returned x)
  | trap message span => exact .deeds (deed_terminate rfl) (deed_terminate rfl) (.trapped message)

/-- **A recovered function can stand for the one it was made from.** -/
theorem recovered_replaces (hfit : CallsFit f) : Replaces f g (Loops f g) (Waits f g) execute := by
  refine ⟨by rw [hg], fun xs => ?_, fun p q h s => ⟨p, q, .refl, .refl, ?_⟩⟩
  · obtain ⟨block, hfind, hcases⟩ := start_cases (V := V) hwell xs
    have hfind' : g.blocks.find? (·.id == g.entryBlock) = some (cut block) := by
      have hentry : g.entryBlock = f.entryBlock := by rw [hg]
      rw [hentry, find_cut hcut hg, hfind, Option.map_some]
    have hnames := congrArg List.length (hcut block).names_eq
    simp only [StagedBlock.names, List.length_map] at hnames
    rcases hcases with ⟨hlength, hplaced⟩ | hlength
    · rw [start_of_find hfind hlength, start_of_find hfind' (hnames.trans hlength)]
      exact .on (.act (loops_entered hcut hg (List.mem_of_find?_eq_some hfind) hplaced (.refl [])))
    · rw [start_of_ne hfind hlength, start_of_ne hfind' (by rwa [hnames])]
      exact .refused _
  · cases hoperations : p.operations with
    | nil => exact joins_end hwell hcut hg h s hoperations
    | cons operation operations => exact joins_operation hwell hfit hcut hg h s hoperations

end Recovered

end Blot.Suspension.Direct
