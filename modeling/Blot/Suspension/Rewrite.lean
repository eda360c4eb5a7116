import Blot.Suspension.Placed

/-!
# Functions with rewritten branches

A function whose blocks keep their operations while its branches lead elsewhere: past blocks that do nothing that can be
seen, or to blocks with fewer parameters.  Some values are then no longer read, and need not be there.

* `Retargeted` — the same end of a block with other edges;
* `Tracks` — an activation of the function, and one of the rewritten function that has all it still reads;
* `Rewriting.replaces` — what a rewriting has to show of its edges, to stand for the function;
* `SameRuns` — a module shows the host the same with the one function and with the other.
-/

namespace Blot.Suspension.Direct

open Blot.Hir Blot.Support Blot.Support.Lockstep

variable {V σ : Type} {f g : StagedFunction}

inductive Retargeted (E : ℕ × List ℕ → ℕ × List ℕ → Prop) : StagedTerminator → StagedTerminator → Prop where
  | branch {target target' : ℕ} {arguments arguments' : List ℕ} {span span' : RuntimeSpan}
      (h : E (target, arguments) (target', arguments')) :
      Retargeted E (.branch target arguments span) (.branch target' arguments' span')
  | conditional {condition consequent consequent' alternate alternate' : ℕ}
      {consequentArguments consequentArguments' alternateArguments alternateArguments' : List ℕ}
      {span span' : RuntimeSpan} (h : E (consequent, consequentArguments) (consequent', consequentArguments'))
      (h' : E (alternate, alternateArguments) (alternate', alternateArguments')) :
      Retargeted E (.conditional condition consequent consequentArguments alternate alternateArguments span)
        (.conditional condition consequent' consequentArguments' alternate' alternateArguments' span')
  | switch {selector fallback fallback' : ℕ} {cases cases' : List RuntimeSwitchCase} {span span' : RuntimeSpan}
      (h : List.Forall₂ (fun c c' => c.value = c'.value ∧ E (c.target, []) (c'.target, [])) cases cases')
      (h' : E (fallback, []) (fallback', [])) :
      Retargeted E (.switch selector cases fallback span) (.switch selector cases' fallback' span')
  | return (value : ℕ) (span : RuntimeSpan) : Retargeted E (.return value span) (.return value span)
  | trap (message : String) (span : RuntimeSpan) : Retargeted E (.trap message span) (.trap message span)

theorem Retargeted.refl {E : ℕ × List ℕ → ℕ × List ℕ → Prop} (h : ∀ e, E e e) (t : StagedTerminator) :
    Retargeted E t t := by
  cases t with
  | branch target arguments span => exact .branch (h _)
  | conditional condition consequent consequentArguments alternate alternateArguments span =>
    exact .conditional (h _) (h _)
  | switch selector cases fallback span =>
    exact .switch (List.forall₂_same.2 fun c _ => ⟨rfl, h _⟩) (h _)
  | «return» value span => exact .return value span
  | trap message span => exact .trap message span

def Constant (f : StagedFunction) (v : ℕ) (b : Bool) : Prop :=
  ∃ block ∈ f.blocks, ∃ operation ∈ block.operations, operation.result = v ∧ operation.kind = "constant" ∧
    operation.value = some (.boolean b)

structure Truth (V : Type) [Values V] where
  value : Bool → V
  condition : ∀ b, Values.condition (value b) = .ok b

variable [Values V]

/-- An executor for which Boolean constants are the Boolean values, and have no effect. -/
def Truth.Known (truth : Truth V) (execute : Execute V σ) : Prop :=
  ∀ i xs s b, i.operation.kind = "constant" → i.operation.value = some (.boolean b) →
    execute i xs s = (.ok (truth.value b), s)

/-- **Activations of a function and of the rewritten one**, where the values of `D` are no longer read, except as
parameters of a block that does nothing else. -/
structure Tracks (truth : Truth V) (f g : StagedFunction) (D : ℕ → Prop) (E : ℕ × List ℕ → ℕ × List ℕ → Prop)
    (p q : Place V) : Prop where
  placed : Placed f p
  placed' : Placed g q
  operations : q.operations = p.operations
  terminator : Retargeted E p.terminator q.terminator
  agree : ∀ v x, (¬D v ∨ q.operations = [] ∧ v ∈ q.terminator.uses) → readValue q.values v = .ok x →
    readValue p.values v = .ok x
  constants : ∀ v b, Constant g v b → ∀ x, readValue q.values v = .ok x → x = truth.value b

/-- **What is asked of a rewriting** of well-formed functions: the reads, and the entry. -/
structure Rewriting (f g : StagedFunction) (D : ℕ → Prop) (E : ℕ × List ℕ → ℕ × List ℕ → Prop) : Prop where
  wellFormed : f.WellFormed
  wellFormed' : g.WellFormed
  id_eq : g.id = f.id
  operands : ∀ seen block, g.Arrives seen block → ∀ operation ∈ block.operations, ∀ v ∈ operation.operands, ¬D v
  uses : ∀ seen block, g.Arrives seen block → ∀ v ∈ block.terminator.uses, D v →
    block.operations = [] ∧ v ∈ block.names
  entry : ∀ block block', f.blocks.find? (·.id == f.entryBlock) = some block →
    g.blocks.find? (·.id == g.entryBlock) = some block' →
    block'.names = block.names ∧ block'.operations = block.operations ∧
      Retargeted E block.terminator block'.terminator

section Rewriting

variable {truth : Truth V} {D : ℕ → Prop} {E : ℕ × List ℕ → ℕ × List ℕ → Prop} {execute : Execute V σ}
variable (h : Rewriting f g D E)

include h

/-- **A block is entered** on both sides: what it still reads, and what it is sent, is the same. -/
theorem Rewriting.tracks_entered {p : Place V} {values : Table ValueId V} {block : StagedBlock} {xs : List V}
    (hplaced : Placed f p) (hplaced' : Placed g (entered values block xs))
    (hoperations : block.operations = p.operations)
    (hterminator : Retargeted E p.terminator block.terminator)
    (hconstants : ∀ v b, Constant g v b → ∀ x, readValue values v = .ok x → x = truth.value b)
    (hmem : block ∈ g.blocks) (harrives : ∃ seen, g.Arrives seen block)
    (hvalues : ∀ v x, ¬D v → v ∉ block.names → readValue values v = .ok x → readValue p.values v = .ok x)
    (hnames : ∀ v x, v ∈ block.names → readValue (entered values block xs).values v = .ok x →
      readValue p.values v = .ok x) :
    Tracks truth f g D E p (entered values block xs) := by
  have hother : ∀ v, v ∉ block.names → readValue (entered values block xs).values v = readValue values v :=
    fun v hv => read_entered_of_notMem hv
  refine ⟨hplaced, hplaced', hoperations, hterminator, fun v x hread hx => ?_, fun v b hconstant x hx => ?_⟩
  · by_cases hv : v ∈ block.names
    · exact hnames v x hv hx
    · rw [hother v hv] at hx
      refine hvalues v x (fun hD => ?_) hv hx
      rcases hread with hnot | ⟨_, huse⟩
      · exact hnot hD
      · obtain ⟨seen, hseen⟩ := harrives
        exact hv (h.uses seen block hseen v huse hD).2
  · refine hconstants v b hconstant x ?_
    rwa [hother v] at hx
    obtain ⟨other, hother', operation, hoperation, rfl, _⟩ := hconstant
    exact fun hv => names_disjoint h.wellFormed'.definitions hmem hother' hv hoperation rfl

theorem Rewriting.operands_agree {p q : Place V} (htracks : Tracks truth f g D E p q) {operation : StagedOperation}
    {operations : List StagedOperation} (hoperations : q.operations = operation :: operations) :
    ∃ xs, collect (readValue q.values) operation.operands = .ok xs ∧
      collect (readValue p.values) operation.operands = .ok xs := by
  obtain ⟨xs, hxs⟩ := htracks.placed'.operands h.wellFormed' hoperations
  refine ⟨xs, hxs, collect_eq_ok.2 ?_⟩
  obtain ⟨seen, block, before, harrives, hblock, _, _⟩ := htracks.placed'
  have hfree := h.operands seen block harrives operation (by simp [hblock, hoperations])
  have hall := collect_eq_ok.1 hxs
  refine List.forall₂_iff_get.2 ⟨hall.length_eq, fun i hi hi' => ?_⟩
  have hget := (List.forall₂_iff_get.1 hall).2 i hi hi'
  exact htracks.agree _ _ (Or.inl (hfree _ (List.get_mem _ _))) hget

theorem Rewriting.bind {p q : Place V} (htracks : Tracks truth f g D E p q) {operation : StagedOperation}
    {operations : List StagedOperation} (hoperations : q.operations = operation :: operations) {x : V}
    (hx : ∀ b, operation.kind = "constant" → operation.value = some (.boolean b) → x = truth.value b) :
    Tracks truth f g D E (({ p with operations } : Place V).bind operation.result x)
      (({ q with operations } : Place V).bind operation.result x) := by
  have hoperations' : p.operations = operation :: operations := htracks.operations ▸ hoperations
  refine ⟨htracks.placed.bind hoperations' x, htracks.placed'.bind hoperations x, rfl, htracks.terminator,
    fun v y hread hy => ?_, fun v b hconstant y hy => ?_⟩
  · simp only [Place.bind, readValue_insert] at hy ⊢
    split at hy
    · next he => rw [if_pos he, hy]
    · next he =>
      rw [if_neg he]
      refine htracks.agree v y (Or.inl fun hD => ?_) hy
      rcases hread with hnot | ⟨_, huse⟩
      · exact hnot hD
      · -- a block that has an operation reads no such value at its end
        obtain ⟨seen, block, before, harrives, hblock, hterminator, _⟩ := htracks.placed'
        have hnil := (h.uses seen block harrives v (hterminator ▸ huse) hD).1
        simp [hblock, hoperations] at hnil
  · simp only [Place.bind, readValue_insert] at hy
    split at hy
    · next he =>
      cases hy
      obtain ⟨block, hblock, o, ho, hresult, hkind, hvalue⟩ := hconstant
      obtain ⟨seen, block', before, harrives, hblock', _, _⟩ := htracks.placed'
      have hsame : o = operation := operation_of_result h.wellFormed'.definitions hblock harrives.mem ho
        (by simp [hblock', hoperations]) (hresult.trans he)
      subst hsame
      exact hx b hkind hvalue
    · exact htracks.constants v b hconstant y hy

/-- **The next operation** on both sides. -/
theorem Rewriting.joins_operation (hknown : truth.Known execute) {p q : Place V} (htracks : Tracks truth f g D E p q)
    (s : σ) {operation : StagedOperation} {operations : List StagedOperation}
    (hoperations : q.operations = operation :: operations) :
    Joins f g (Tracks truth f g D E) (fun _ _ => False) execute s p q := by
  obtain ⟨xs, hxs', hxs⟩ := h.operands_agree htracks hoperations
  have hbind := fun x hx => h.bind htracks hoperations (x := x) hx
  have hsame := htracks.operations
  obtain ⟨values, _, terminator⟩ := p
  obtain ⟨values', _, terminator'⟩ := q
  cases hoperations
  cases hsame
  by_cases hcall : isCall operation = true
  · have hkind : operation.kind ≠ "constant" := by
      rintro hkind
      simp [isCall, hkind] at hcall
    rcases htarget : target operation with fault | t
    · exact .fault (deed_target_fault hcall htarget) (deed_target_fault hcall htarget)
    · exact .deeds (deed_call hcall htarget hxs) (deed_call hcall htarget hxs')
        (.call t xs (.act fun x => hbind x fun _ hconstant => absurd hconstant hkind))
  · rcases hexecute : execute (instruction operation) xs s with ⟨message | x, s'⟩
    · exact .deeds (deed_trapped hcall hxs hexecute) (deed_trapped hcall hxs' hexecute) (.trapped message)
    · refine .deeds (deed_executed hcall hxs hexecute) (deed_executed hcall hxs' hexecute) (.on (.act (hbind x ?_)))
      intro b hkind hvalue
      have hlaw := hknown (instruction operation) xs s b hkind hvalue
      rw [hexecute] at hlaw
      cases hlaw
      rfl

omit h

/-- An edge leads alike, when the one side comes quietly to a place that goes with the start of the other's block. -/
theorem joins_edge {R : Place V → Place V → Prop} {p p₀ p₁ q q₁ : Place V} {s : σ}
    (hp : deed execute (p.state f) s = .ok (.on (p₀.state f), s)) (hquiet : Quiet execute f s p₀ p₁)
    (hq : deed execute (q.state g) s = .ok (.on (q₁.state g), s)) (hR : R p₁ q₁) :
    ∃ p' q', Quiet execute f s p p' ∧ Quiet execute g s q q' ∧
      Joins f g R (fun _ _ => False) execute s p' q' := by
  have hgoes : Relation.TransGen (fun a b : Place V => deed execute (a.state f) s = .ok (.on (b.state f), s)) p p₁ :=
    .head' hp hquiet
  obtain ⟨p', hp', hlast⟩ := Relation.TransGen.tail'_iff.1 hgoes
  exact ⟨p', q, hp', .refl, .deeds hlast hq (.on (.act hR))⟩

include h

/-- **A block that both sides have is entered from the ends of two blocks**, with the same arguments. -/
theorem Rewriting.arrive {p q p' : Place V} (htracks : Tracks truth f g D E p q) (hq : q.operations = [])
    (hp' : Placed f p') (hoperations : p'.operations = []) {e e' : ℕ × List ℕ} (he : e ∈ p'.terminator.edges)
    (he' : e' ∈ q.terminator.edges) (harguments : e.2 = e'.2)
    (hread : ∀ v x, ¬D v ∨ v ∈ e'.2 → readValue q.values v = .ok x → readValue p'.values v = .ok x)
    (hblocks : ∀ a ∈ f.blocks, a.id = e.1 → ∀ seen b, g.Arrives seen b → b.id = e'.1 →
      b.names = a.names ∧ b.operations = a.operations ∧ Retargeted E a.terminator b.terminator) :
    ∃ p₁ q₁, enter f p'.values e.1 e.2 = .ok (Place.state p₁ f) ∧
      enter g q.values e'.1 e'.2 = .ok (Place.state q₁ g) ∧ Tracks truth f g D E p₁ q₁ := by
  obtain ⟨xs, hxs⟩ := collect_of_reads fun v hv =>
    htracks.placed'.uses h.wellFormed' hq (StagedTerminator.uses_of_edge he' hv)
  have hxs' : collect (readValue p'.values) e.2 = .ok xs := by
    rw [harguments, collect_eq_ok]
    have hall := collect_eq_ok.1 hxs
    refine List.forall₂_iff_get.2 ⟨hall.length_eq, fun i hi hi' => ?_⟩
    exact hread _ _ (Or.inr (List.get_mem _ _)) ((List.forall₂_iff_get.1 hall).2 i hi hi')
  obtain ⟨a, hfind, hlength, hplaced⟩ := hp'.edge h.wellFormed hoperations he hxs'
  obtain ⟨b, hfind', hlength', hplaced'⟩ := htracks.placed'.edge h.wellFormed' hq he' hxs
  have hmem := List.mem_of_find?_eq_some hfind'
  have hid : b.id = e'.1 := by simpa using List.find?_some hfind'
  obtain ⟨seen, block, before, harrives, hblock, hterminator, _⟩ := htracks.placed'
  have hb := StagedFunction.Arrives.edge harrives (hterminator ▸ he') hmem hid
  obtain ⟨hnames, hops, hretargeted⟩ := hblocks a (List.mem_of_find?_eq_some hfind)
    (by simpa using List.find?_some hfind) _ b hb hid
  refine ⟨_, _, enter_of_find hfind hxs' hlength, enter_of_find hfind' hxs hlength', ?_⟩
  refine h.tracks_entered hplaced hplaced' hops hretargeted htracks.constants hmem ⟨_, hb⟩ ?_ ?_
  · intro v x hD hv hx
    have hnot : v ∉ a.names := hnames ▸ hv
    rw [read_entered_of_notMem hnot]
    exact hread v x (Or.inl hD) hx
  · intro v x hv hx
    rwa [← read_entered (by rw [hnames]) hlength (hnames ▸ hv)]

omit h

/-- **What a rewriting has to show of an edge**: the one function comes quietly from it to where the other goes at
once. -/
def EdgesTrack (truth : Truth V) (f g : StagedFunction) (D : ℕ → Prop) (E : ℕ × List ℕ → ℕ × List ℕ → Prop)
    (execute : Execute V σ) : Prop :=
  ∀ p q, Tracks truth f g D E p q → q.operations = [] → ∀ e ∈ p.terminator.edges, ∀ e' ∈ q.terminator.edges, E e e' →
    ∀ s, ∃ p₀ p₁ q₁, enter f p.values e.1 e.2 = .ok (Place.state p₀ f) ∧ Quiet execute f s p₀ p₁ ∧
      enter g q.values e'.1 e'.2 = .ok (Place.state q₁ g) ∧ Tracks truth f g D E p₁ q₁

include h

/-- **The end of a block** on both sides. -/
theorem Rewriting.joins_end (hedges : EdgesTrack truth f g D E execute) {p q : Place V}
    (htracks : Tracks truth f g D E p q) (hoperations : q.operations = []) (s : σ) :
    ∃ p' q', Quiet execute f s p p' ∧ Quiet execute g s q q' ∧
      Joins f g (Tracks truth f g D E) (fun _ _ => False) execute s p' q' := by
  have hsound := hedges p q htracks hoperations
  have hread : ∀ v ∈ q.terminator.uses, ∃ x, readValue q.values v = .ok x ∧ readValue p.values v = .ok x := by
    intro v hv
    obtain ⟨x, hx⟩ := htracks.placed'.uses h.wellFormed' hoperations hv
    exact ⟨x, hx, htracks.agree v x (Or.inr ⟨hoperations, hv⟩) hx⟩
  have hterminator := htracks.terminator
  have hsame := htracks.operations
  obtain ⟨values, _, terminator⟩ := p
  obtain ⟨values', _, terminator'⟩ := q
  cases hoperations
  cases hsame
  cases hterminator with
  | @branch target target' arguments arguments' span span' he =>
    obtain ⟨p₀, p₁, q₁, hp₀, hquiet, hq₁, htracks'⟩ := hsound (target, arguments) (by simp [StagedTerminator.edges])
      (target', arguments') (by simp [StagedTerminator.edges]) he s
    exact joins_edge (deed_terminate (by simp [terminateDeed, hp₀])) hquiet
      (deed_terminate (by simp [terminateDeed, hq₁])) htracks'
  | @conditional condition consequent consequent' alternate alternate' cs cs' as as' span span' hc ha =>
    obtain ⟨x, hx', hx⟩ := hread condition (by simp [StagedTerminator.uses])
    rcases hcondition : Values.condition x with message | (_ | _)
    · exact ⟨_, _, .refl, .refl, .deeds (deed_terminate (by simp [terminateDeed, hx, hcondition]))
        (deed_terminate (by simp [terminateDeed, hx', hcondition])) (.refused message)⟩
    · obtain ⟨p₀, p₁, q₁, hp₀, hquiet, hq₁, htracks'⟩ := hsound (alternate, as) (by simp [StagedTerminator.edges])
        (alternate', as') (by simp [StagedTerminator.edges]) ha s
      exact joins_edge (deed_terminate (by simp [terminateDeed, hx, hcondition, hp₀])) hquiet
        (deed_terminate (by simp [terminateDeed, hx', hcondition, hq₁])) htracks'
    · obtain ⟨p₀, p₁, q₁, hp₀, hquiet, hq₁, htracks'⟩ := hsound (consequent, cs) (by simp [StagedTerminator.edges])
        (consequent', cs') (by simp [StagedTerminator.edges]) hc s
      exact joins_edge (deed_terminate (by simp [terminateDeed, hx, hcondition, hp₀])) hquiet
        (deed_terminate (by simp [terminateDeed, hx', hcondition, hq₁])) htracks'
  | @switch selector fallback fallback' cases cases' span span' hcases hfallback =>
    obtain ⟨x, hx', hx⟩ := hread selector (by simp [StagedTerminator.uses])
    -- both sides take the case at the same place, or the fallback
    obtain ⟨e, e', he, he', hE, hchosen, hchosen'⟩ :
        ∃ e e', e ∈ (StagedTerminator.switch selector cases fallback span).edges ∧
          e' ∈ (StagedTerminator.switch selector cases' fallback' span').edges ∧ E e e' ∧
          e = (((cases.find? fun c => Values.matches x c.value).map (·.target)).getD fallback, []) ∧
          e' = (((cases'.find? fun c => Values.matches x c.value).map (·.target)).getD fallback', []) := by
      clear hsound hread hx hx' htracks
      induction hcases with
      | nil => exact ⟨_, _, by simp [StagedTerminator.edges], by simp [StagedTerminator.edges], hfallback, rfl, rfl⟩
      | @cons c c' cases cases' hc hcases ih =>
        obtain ⟨e, e', he, he', hE, hchosen, hchosen'⟩ := ih
        simp only [List.find?_cons, ← hc.1]
        cases hmatch : Values.matches x c.value with
        | true =>
          exact ⟨_, _, by simp [StagedTerminator.edges], by simp [StagedTerminator.edges], hc.2, rfl, rfl⟩
        | false =>
          simp only [StagedTerminator.edges, List.map_cons, List.cons_append] at he he' ⊢
          exact ⟨e, e', List.mem_cons_of_mem _ he, List.mem_cons_of_mem _ he', hE, hchosen, hchosen'⟩
    obtain ⟨p₀, p₁, q₁, hp₀, hquiet, hq₁, htracks'⟩ := hsound e he e' he' hE s
    subst hchosen hchosen'
    exact joins_edge (deed_terminate (by simp only [terminateDeed, hx, ok_bind]; exact congrArg (· >>= _) hp₀)) hquiet
      (deed_terminate (by simp only [terminateDeed, hx', ok_bind]; exact congrArg (· >>= _) hq₁)) htracks'
  | «return» value span =>
    obtain ⟨x, hx', hx⟩ := hread value (by simp [StagedTerminator.uses])
    exact ⟨_, _, .refl, .refl, .deeds (deed_terminate (by simp [terminateDeed, returnDeed, hx]))
      (deed_terminate (by simp [terminateDeed, returnDeed, hx'])) (.returned x)⟩
  | trap message span => exact ⟨_, _, .refl, .refl, .deeds (deed_terminate rfl) (deed_terminate rfl) (.trapped message)⟩

/-- **A rewritten function can stand for the function.** -/
theorem Rewriting.replaces (hknown : truth.Known execute) (hedges : EdgesTrack truth f g D E execute) :
    Replaces f g (Tracks truth f g D E) (fun _ _ => False) execute := by
  refine ⟨h.id_eq, fun xs => ?_, fun p q htracks s => ?_⟩
  · obtain ⟨block, hfind, hcases⟩ := start_cases (V := V) h.wellFormed xs
    obtain ⟨block', hfind', hcases'⟩ := start_cases (V := V) h.wellFormed' xs
    obtain ⟨hnames, hoperations, hterminator⟩ := h.entry block block' hfind hfind'
    have hlength := congrArg List.length hnames
    simp only [StagedBlock.names, List.length_map] at hlength
    rcases hcases with ⟨hl, hplaced⟩ | hl
    · rcases hcases' with ⟨hl', hplaced'⟩ | hl'
      · rw [start_of_find hfind hl, start_of_find hfind' hl']
        have hmem := List.mem_of_find?_eq_some hfind'
        have hid : block'.id = g.entryBlock := by simpa using List.find?_some hfind'
        refine .on (.act (h.tracks_entered hplaced hplaced' hoperations hterminator ?_ hmem ⟨[], .entry hmem hid⟩ ?_
          ?_))
        · exact fun v b _ x hx => by cases hx
        · exact fun v x _ _ hx => by cases hx
        · intro v x _ hx
          rwa [entered, hnames] at hx
      · exact absurd (hlength.trans hl) hl'
    · rw [start_of_ne hfind hl, start_of_ne hfind' (hlength ▸ hl)]
      exact .refused _
  · cases hoperations : q.operations with
    | nil => exact h.joins_end hedges htracks hoperations s
    | cons operation operations => exact ⟨p, q, .refl, .refl, h.joins_operation hknown htracks s hoperations⟩

end Rewriting

/-! ### Modules that show the host the same -/

/-- **An entry is answered alike**: it fails with both modules, or starts, and then each run has the same outcomes. -/
def SameOutcomes (truth : Truth V) (module module' : StagedModule) (entry : FunctionId) (arguments : List V) : Prop :=
  (∃ e e', call module entry arguments = .error e ∧ call module' entry arguments = .error e') ∨
  (∃ message, call module entry arguments = .ok (.error message) ∧
    call module' entry arguments = .ok (.error message)) ∨
  ∃ state state', call module entry arguments = .ok (.ok state) ∧ call module' entry arguments = .ok (.ok state') ∧
    ∀ (σ : Type) (execute : Execute V σ), truth.Known execute → ∀ (s : σ) (responses : List V) (o : Outcome V),
      Ends (party module execute).next ⟨⟨state, []⟩, s, responses, []⟩ o ↔
        Ends (party module' execute).next ⟨⟨state', []⟩, s, responses, []⟩ o

theorem SameOutcomes.trans {truth : Truth V} {a b c : StagedModule} {entry : FunctionId} {arguments : List V}
    (hab : SameOutcomes truth a b entry arguments) (hbc : SameOutcomes truth b c entry arguments) :
    SameOutcomes truth a c entry arguments := by
  rcases hab with ⟨e, e', ha, hb⟩ | ⟨message, ha, hb⟩ | ⟨state, state', ha, hb, hends⟩
  · rcases hbc with ⟨_, e'', _, hc⟩ | ⟨_, hb', _⟩ | ⟨_, _, hb', _⟩
    · exact Or.inl ⟨e, e'', ha, hc⟩
    · cases hb.symm.trans hb'
    · cases hb.symm.trans hb'
  · rcases hbc with ⟨_, _, hb', _⟩ | ⟨_, hb', hc⟩ | ⟨_, _, hb', _⟩
    · cases hb.symm.trans hb'
    · cases hb.symm.trans hb'
      exact Or.inr (Or.inl ⟨message, ha, hc⟩)
    · cases hb.symm.trans hb'
  · rcases hbc with ⟨_, _, hb', _⟩ | ⟨_, hb', _⟩ | ⟨_, state'', hb', hc, hends'⟩
    · cases hb.symm.trans hb'
    · cases hb.symm.trans hb'
    · cases hb.symm.trans hb'
      refine Or.inr (Or.inr ⟨state, state'', ha, hc, fun σ execute hknown s responses o => ?_⟩)
      exact (hends σ execute hknown s responses o).trans (hends' σ execute hknown s responses o)

/-- **Two functions with the same runs**, in every module and for all arguments. -/
structure SameRuns (f g : StagedFunction) : Prop where
  id_eq : g.id = f.id
  outcomes : ∀ (V : Type) [Values V] (truth : Truth V) (module : StagedModule),
    module.functions.find? (·.id == f.id) = some f → ∀ (entry : FunctionId) (arguments : List V),
      SameOutcomes truth module (module.replace g) entry arguments

theorem replace_replace {g h : StagedFunction} (hid : h.id = g.id) (module : StagedModule) :
    (module.replace g).replace h = module.replace h := by
  unfold StagedModule.replace
  rw [List.map_map]
  congr 1
  refine List.map_congr_left fun f _ => ?_
  by_cases hf : f.id = g.id
  · simp [hf, hid]
  · simp [hf, hid]

theorem SameRuns.trans {h : StagedFunction} (hfg : SameRuns f g) (hgh : SameRuns g h) : SameRuns f h := by
  refine ⟨hgh.id_eq.trans hfg.id_eq, fun V _ truth module hfind entry arguments => ?_⟩
  have hfind' : (module.replace g).functions.find? (·.id == g.id) = some g := by
    rw [module.find_replace, hfg.id_eq, hfind, Option.map_some, if_pos rfl]
  have hlast := hgh.outcomes V truth (module.replace g) hfind' entry arguments
  rw [replace_replace hgh.id_eq] at hlast
  exact (hfg.outcomes V truth module hfind entry arguments).trans hlast

def Truth.constant {V : Type} [Values V] (truth : Truth V) : Execute V Unit := fun i _ s =>
  match i.operation.value with
  | some (.boolean b) => (.ok (truth.value b), s)
  | _ => (.error "", s)

theorem Truth.known_constant {V : Type} [Values V] (truth : Truth V) : truth.Known truth.constant := by
  intro i xs s b _ hvalue
  simp [constant, hvalue]

/-- **A rewriting has the same runs.** -/
theorem Rewriting.sameRuns {D : ℕ → Prop} {E : ℕ × List ℕ → ℕ × List ℕ → Prop} (h : Rewriting f g D E)
    (hedges : ∀ (V : Type) [Values V] (truth : Truth V) (σ : Type) (execute : Execute V σ), truth.Known execute →
      EdgesTrack truth f g D E execute) : SameRuns f g := by
  refine ⟨h.id_eq, fun V _ truth module hfind entry arguments => ?_⟩
  -- whether a call starts does not depend on the executor
  have hcalls := (h.replaces truth.known_constant (hedges V truth Unit _ truth.known_constant)).calls hfind entry
    arguments
  generalize hm : call module entry arguments = answer at hcalls
  generalize hm' : call (module.replace g) entry arguments = answer' at hcalls
  cases hcalls with
  | fault e e' => exact Or.inl ⟨e, e', hm, hm'⟩
  | refused message => exact Or.inr (Or.inl ⟨message, hm, hm'⟩)
  | @on state state' hstates =>
    refine Or.inr (Or.inr ⟨state, state', hm, hm', fun σ execute hknown s responses o => ?_⟩)
    refine (h.replaces hknown (hedges V truth σ execute hknown)).ends_iff hfind hstates s responses ?_ o
    intro w _ _ r p _ _ _ _ htail
    cases htail

theorem SameRuns.refl (hwell : f.WellFormed) : SameRuns f f := by
  have h : Rewriting f f (fun _ => False) Eq := by
    refine ⟨hwell, hwell, rfl, fun _ _ _ _ _ _ _ hD => hD, fun _ _ _ _ _ hD => hD.elim, fun block block' h h' => ?_⟩
    cases h.symm.trans h'
    exact ⟨rfl, rfl, .refl (fun _ => rfl) _⟩
  refine h.sameRuns fun V _ truth σ execute _ p q htracks hq e he e' he' hsame s => ?_
  subst hsame
  have hp : p.operations = [] := htracks.operations ▸ hq
  obtain ⟨p₁, q₁, hp₁, hq₁, htracks'⟩ := h.arrive htracks hq htracks.placed hp he he' rfl
    (fun v x _ hx => htracks.agree v x (Or.inl not_false) hx) fun a ha hid seen b hb hid' => by
      obtain rfl := block_of_id hwell.ids hb.mem ha (hid'.trans hid.symm)
      exact ⟨rfl, rfl, .refl (fun _ => rfl) _⟩
  exact ⟨p₁, p₁, q₁, hp₁, .refl, hq₁, htracks'⟩

end Blot.Suspension.Direct
