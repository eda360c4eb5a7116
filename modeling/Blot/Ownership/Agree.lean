import Blot.Eval.Computation
import Blot.Ownership.Access

/-!
# Agreement of branches (`agree` in `ownership.rs`)

After the arms of a conditional every binding of the scope gets one state, from the states in which the arms leave it.

* `agree` — the code;
* `agree_exact` — when the state of a binding is at least as restrictive as that of each arm;
* `merging_exact` — with the order of the arms, and the joins of what they produce.
-/

namespace Blot.Ownership

open Eval (Diagnostic)
open Produced (Step Aligned)

/-! ### The code -/

inductive PartialMove where
  | none
  | fields (names : Finset String)
  | unknown
  deriving DecidableEq

structure State where
  qualifier : Qualifier
  moved : Option Span
  owned : Produced
  partialMove : PartialMove
  demanded : Bool
  keyed : owned.Keyed

structure BindingSnapshot where
  id : ℕ
  state : State

/-- `Snapshot`; a position is found by its identity. -/
structure Snapshot where
  bindings : List BindingSnapshot
  distinct : (bindings.map BindingSnapshot.id).Nodup

def Snapshot.binding (snapshot : Snapshot) (id : ℕ) : Option BindingSnapshot :=
  snapshot.bindings.find? fun state => state.id = id

/-- `Binding`: its name, and the state that `agree` reads and sets. -/
structure Binding where
  name : String
  state : State

/-- `Analysis`: the bindings by their identity, and the diagnostics. -/
structure Analysis where
  bindings : ℕ → Binding
  diagnostics : List Diagnostic

def Analysis.set (analysis : Analysis) (id : ℕ) (state : State) : Analysis :=
  { analysis with bindings := Function.update analysis.bindings id { analysis.bindings id with state := state } }

def Analysis.report (analysis : Analysis) (diagnostics : List Diagnostic) : Analysis :=
  { analysis with diagnostics := analysis.diagnostics ++ diagnostics }

def inherited (written : Qualifier) (produced : Produced) : Qualifier :=
  if produced.obligation = .linear then .linear
  else if produced.obligation = .affine ∧ written ≠ .linear then .affine
  else if produced.containsBorrow then .borrow
  else written

def PartialMove.union : PartialMove → PartialMove → PartialMove
  | .unknown, _ | _, .unknown => .unknown
  | .fields names, .fields other => .fields (names ∪ other)
  | .none, other => other
  | moves, .none => moves

/-- The state in which an outcome leaves a binding; one that it does not have is as it was, and not moved. -/
def stateIn (prior : BindingSnapshot) (outcome : Snapshot) : State :=
  match outcome.binding prior.id with
  | some binding => binding.state
  | none => { prior.state with moved := none }

def chosen (first : State) (states : List State) : State := (states.find? fun state => state.moved.isSome).getD first

def agreed (prior first : State) (states : List State) : State where
  qualifier := inherited prior.qualifier
    (states.foldl (fun owned state => owned.mergeStoreAccessRequirements state.owned) (chosen first states).owned)
  moved := (chosen first states).moved
  owned := states.foldl (fun owned state => owned.mergeStoreAccessRequirements state.owned) (chosen first states).owned
  partialMove := states.foldl (fun moves state => moves.union state.partialMove) .none
  demanded := states.any State.demanded
  keyed := by
    rw [← List.foldl_map]
    exact Produced.keyed_foldl_merge (chosen first states).keyed _

def disagreements (name : String) (prior first : State) (states : List State) (span : Span) : List Diagnostic :=
  (if states.any (fun state => state.moved.isSome) && !states.all (fun state => state.moved.isSome) &&
      prior.qualifier = .linear then
    [⟨"BLOT_LINEAR_BRANCH_DISAGREEMENT", s!"`{name}` is consumed on some branches but not others.", span⟩] else []) ++
  if prior.qualifier = .linear &&
      states.any fun state => state.owned ≠ first.owned ∨ state.partialMove ≠ first.partialMove then
    [⟨"BLOT_LINEAR_BRANCH_DISAGREEMENT", s!"`{name}` has different live fields on continuing branches.", span⟩] else []

/-- One binding of `agree`. -/
def agreeBinding (outcome : Snapshot) (outcomes : List Snapshot) (span : Span) (analysis : Analysis)
    (prior : BindingSnapshot) : Analysis :=
  let first := stateIn prior outcome
  let states := outcomes.map (stateIn prior)
  (analysis.report (disagreements (analysis.bindings prior.id).name prior.state first states span)).set prior.id
    (agreed prior.state first states)

def agree (outcomes : List Snapshot) (before : Snapshot) (span : Span) (analysis : Analysis) : Analysis :=
  match outcomes with
  | [] => analysis
  | outcome :: _ => before.bindings.foldl (agreeBinding outcome outcomes span) analysis

/-! ### The bindings of an analysis -/

theorem set_state (analysis : Analysis) (id : ℕ) (state : State) :
    ((analysis.set id state).bindings id).state = state := by
  unfold Analysis.set
  dsimp only
  rw [Function.update_self]

theorem set_of_ne (analysis : Analysis) {id other : ℕ} (state : State) (h : other ≠ id) :
    (analysis.set id state).bindings other = analysis.bindings other :=
  Function.update_of_ne h _ _

/-! ### What it is compared with -/

/-- A field is recorded as moved. -/
def PartialMove.Moves : PartialMove → String → Prop
  | .none, _ => False
  | .fields names, name => name ∈ names
  | .unknown, _ => True

/-- **At least as restrictive**: moved if the outcome is, shared where it is shared, demanding unique access where it
does, with every field moved that it has moved. -/
structure AtLeast (result outcome : State) : Prop where
  moved : outcome.moved.isSome = true → result.moved.isSome = true
  shared : ∀ path, outcome.owned.partAt path = some .sharedStore → result.owned.partAt path = some .sharedStore
  unique : ∀ path source names shareable,
    outcome.owned.partAt path = some (.storeParameter source names shareable .unique) →
      result.owned.partAt path = some (.storeParameter source names shareable .unique)
  demanded : outcome.demanded = true → result.demanded = true
  fields : ∀ name, outcome.partialMove.Moves name → result.partialMove.Moves name

def Disputed (prior : State) (states : List State) : Prop :=
  prior.qualifier = .linear ∧ ∃ s ∈ states, ∃ t ∈ states,
    s.moved.isSome ≠ t.moved.isSome ∨ s.owned ≠ t.owned ∨ s.partialMove ≠ t.partialMove

/-- **What the kept state must have**: every position that is shared in some state, and, where some state demands unique
access, that demand or the same symbolic Store to merge it into. -/
structure Covers (kept : State) (states : List State) : Prop where
  shared : ∀ state ∈ states, ∀ path, state.owned.partAt path = some .sharedStore →
    kept.owned.partAt path = some .sharedStore
  unique : ∀ state ∈ states, ∀ path source names shareable,
    state.owned.partAt path = some (.storeParameter source names shareable .unique) →
      kept.owned.partAt path = some (.storeParameter source names shareable .unique) ∨
        ∃ other ∈ states, Aligned kept.owned other.owned path ∧
          other.owned.partAt path = some (.storeParameter source names shareable .unique)

structure SameBut (s t : State) : Prop where
  qualifier : s.qualifier = t.qualifier
  moved : s.moved.isSome = t.moved.isSome
  owned : s.owned = t.owned
  partialMove : s.partialMove = t.partialMove
  demanded : s.demanded = t.demanded

/-- A state that is kept in some order of the states: a moved one, or any one when none is moved. -/
def Candidate (states : List State) (state : State) : Prop :=
  state ∈ states ∧ (state.moved.isSome = true ∨ ∀ other ∈ states, other.moved.isSome = false)

/-! ### One binding -/

section Agreed

variable {prior first : State} {states : List State}

theorem chosen_candidate (hfirst : first ∈ states) : Candidate states (chosen first states) := by
  unfold chosen
  cases hfind : states.find? fun state => state.moved.isSome with
  | none =>
    refine ⟨hfirst, .inr fun other hother => ?_⟩
    exact Bool.not_eq_true _ ▸ List.find?_eq_none.1 hfind other hother
  | some state =>
    have hmoved := List.find?_some hfind
    exact ⟨List.mem_of_find?_eq_some hfind, .inl hmoved⟩

theorem isSome_chosen (hfirst : first ∈ states) :
    (chosen first states).moved.isSome = true ↔ ∃ state ∈ states, state.moved.isSome = true := by
  obtain ⟨hmem, hmoved⟩ := chosen_candidate hfirst
  constructor
  · exact fun h => ⟨_, hmem, h⟩
  · rintro ⟨state, hstate, h⟩
    refine hmoved.resolve_right fun hnone => ?_
    rw [hnone state hstate] at h
    cases h

theorem agreed_owned : (agreed prior first states).owned =
    (states.map State.owned).foldl Produced.mergeStoreAccessRequirements (chosen first states).owned :=
  List.foldl_map.symm

theorem PartialMove.moves_union {moves other : PartialMove} {name : String} :
    (moves.union other).Moves name ↔ moves.Moves name ∨ other.Moves name := by
  cases moves <;> cases other <;> simp [PartialMove.union, PartialMove.Moves]

theorem moves_foldl {moves : PartialMove} {name : String} :
    (states.foldl (fun moves state => moves.union state.partialMove) moves).Moves name ↔
      moves.Moves name ∨ ∃ state ∈ states, state.partialMove.Moves name := by
  induction states generalizing moves with
  | nil => simp
  | cons state rest ih => rw [List.foldl_cons, ih, PartialMove.moves_union, List.exists_mem_cons_iff, or_assoc]

/-- **One binding**: its state is at least as restrictive as that of every outcome just when the kept state covers
them. -/
theorem atLeast_agreed_iff (hfirst : first ∈ states) :
    (∀ state ∈ states, AtLeast (agreed prior first states) state) ↔ Covers (chosen first states) states := by
  constructor
  · intro h
    refine ⟨fun state hstate path hshared => ?_, fun state hstate path source names shareable hunique => ?_⟩
    · have hresult := (h state hstate).shared path hshared
      rwa [agreed_owned, Produced.partAt_foldl_shared] at hresult
    · have hresult := (h state hstate).unique path source names shareable hunique
      rw [agreed_owned, Produced.partAt_foldl_unique] at hresult
      simpa using hresult
  · intro h state hstate
    refine ⟨fun hmoved => (isSome_chosen hfirst).2 ⟨state, hstate, hmoved⟩, fun path hshared => ?_,
      fun path source names shareable hunique => ?_, fun hdemanded => ?_, fun name hmoves => ?_⟩
    · rw [agreed_owned, Produced.partAt_foldl_shared]
      exact h.shared state hstate path hshared
    · rw [agreed_owned, Produced.partAt_foldl_unique]
      simpa using h.unique state hstate path source names shareable hunique
    · exact List.any_eq_true.2 ⟨state, hstate, hdemanded⟩
    · exact moves_foldl.2 (.inr ⟨state, hstate, hmoves⟩)

theorem ite_ne_nil {A : Type} {c : Bool} {a : A} : (if c then [a] else []) ≠ [] ↔ c = true := by
  cases c <;> simp

theorem exists_differ_iff (hfirst : first ∈ states) :
    (∃ state ∈ states, state.owned ≠ first.owned ∨ state.partialMove ≠ first.partialMove) ↔
      ∃ s ∈ states, ∃ t ∈ states, s.owned ≠ t.owned ∨ s.partialMove ≠ t.partialMove := by
  constructor
  · rintro ⟨state, hstate, hdiffer⟩
    exact ⟨state, hstate, first, hfirst, hdiffer⟩
  · rintro ⟨s, hs, t, ht, hdiffer⟩
    by_contra hnone
    have hsame : ∀ state ∈ states, state.owned = first.owned ∧ state.partialMove = first.partialMove := by
      intro state hstate
      by_contra hne
      exact hnone ⟨state, hstate, not_and_or.1 hne⟩
    obtain ⟨howned, hmoved⟩ := hsame s hs
    obtain ⟨howned', hmoved'⟩ := hsame t ht
    exact hdiffer.elim (fun h => h (howned.trans howned'.symm)) fun h => h (hmoved.trans hmoved'.symm)

/-- **What is reported** of a binding. -/
theorem disagreements_ne_nil {name : String} {span : Span} (hfirst : first ∈ states) :
    disagreements name prior first states span ≠ [] ↔ Disputed prior states := by
  unfold disagreements
  rw [Ne, List.append_eq_nil_iff, not_and_or, ← Ne, ← Ne, ite_ne_nil, ite_ne_nil]
  simp only [Bool.and_eq_true, Bool.not_eq_true', decide_eq_true_eq, List.any_eq_true, List.all_eq_false,
    exists_differ_iff hfirst]
  constructor
  · rintro (⟨⟨⟨s, hs, hmoved⟩, t, ht, hunmoved⟩, hlinear⟩ | ⟨hlinear, s, hs, t, ht, hdiffer⟩)
    · exact ⟨hlinear, s, hs, t, ht, .inl fun heq => hunmoved (heq ▸ hmoved)⟩
    · exact ⟨hlinear, s, hs, t, ht, .inr hdiffer⟩
  · rintro ⟨hlinear, s, hs, t, ht, hmoved | hdiffer⟩
    · left
      cases hsmoved : s.moved.isSome with
      | true =>
        rw [hsmoved] at hmoved
        exact ⟨⟨⟨s, hs, hsmoved⟩, t, ht, Ne.symm hmoved⟩, hlinear⟩
      | false =>
        rw [hsmoved] at hmoved
        exact ⟨⟨⟨t, ht, Option.isSome_iff_ne_none.2 (by simpa using hmoved)⟩, s, hs, by simp [hsmoved]⟩, hlinear⟩
    · exact .inr ⟨hlinear, s, hs, t, ht, hdiffer⟩

/-! ### The order of the outcomes -/

theorem Candidate.perm {states' : List State} {state : State} (hperm : states'.Perm states)
    (h : Candidate states' state) : Candidate states state :=
  ⟨hperm.mem_iff.1 h.1, h.2.imp_right fun hnone other hother => hnone other (hperm.mem_iff.2 hother)⟩

theorem chosen_of_candidate {rest : List State} {state : State} (h : Candidate (state :: rest) state) :
    chosen state (state :: rest) = state := by
  unfold chosen
  cases hfind : (state :: rest).find? fun state => state.moved.isSome with
  | none => rfl
  | some found =>
    rcases h.2 with hmoved | hnone
    · have hfirst : (state :: rest).find? (fun state => state.moved.isSome) = some state := by
        rw [List.find?_cons, hmoved]
      exact Option.some.inj (hfind.symm.trans hfirst)
    · have hmoved := List.find?_some hfind
      have hunmoved := hnone found (List.mem_of_find?_eq_some hfind)
      rw [hunmoved] at hmoved
      cases hmoved

theorem PartialMove.union_comm (moves : PartialMove) (a b : PartialMove) :
    (moves.union a).union b = (moves.union b).union a := by
  cases moves <;> cases a <;> cases b <;> simp [PartialMove.union, Finset.union_comm, Finset.union_left_comm]

theorem disagreements_perm {name : String} {span : Span} {first' : State} {states' : List State}
    (hfirst : first ∈ states)
    (hfirst' : first' ∈ states') (hperm : states'.Perm states) :
    disagreements name prior first' states' span = disagreements name prior first states span := by
  have hany : ∀ test : State → Bool, states'.any test = states.any test := by
    intro test
    rw [Bool.eq_iff_iff, List.any_eq_true, List.any_eq_true]
    simp only [hperm.mem_iff]
  have hall : ∀ test : State → Bool, states'.all test = states.all test := by
    intro test
    rw [Bool.eq_iff_iff, List.all_eq_true, List.all_eq_true]
    simp only [hperm.mem_iff]
  have hdiffer : (states'.any fun state => state.owned ≠ first'.owned ∨ state.partialMove ≠ first'.partialMove) =
      states.any fun state => state.owned ≠ first.owned ∨ state.partialMove ≠ first.partialMove := by
    rw [Bool.eq_iff_iff, List.any_eq_true, List.any_eq_true]
    simp only [decide_eq_true_eq]
    rw [exists_differ_iff hfirst, exists_differ_iff hfirst']
    simp only [hperm.mem_iff]
  unfold disagreements
  rw [hany fun state => state.moved.isSome, hall, hdiffer]

/-- **Two orders of the outcomes**: the states after them are the same, but for the span, when the kept trees differ in
access only. -/
theorem sameBut_agreed_iff {first' : State} {states' : List State} (hfirst : first ∈ states)
    (hfirst' : first' ∈ states')
    (hperm : states'.Perm states) :
    SameBut (agreed prior first' states') (agreed prior first states) ↔
      (chosen first' states').owned.raised = (chosen first states).owned.raised := by
  obtain ⟨hmem, -⟩ := chosen_candidate hfirst
  obtain ⟨hmem', -⟩ := chosen_candidate hfirst'
  have howned : (agreed prior first' states').owned = (agreed prior first states).owned ↔
      (chosen first' states').owned.raised = (chosen first states).owned.raised := by
    rw [agreed_owned, agreed_owned, (hperm.map State.owned).foldl_eq]
    exact Produced.foldl_merge_eq_iff (List.mem_map_of_mem (hperm.mem_iff.1 hmem')) (List.mem_map_of_mem hmem)
      (chosen first' states').keyed
  constructor
  · exact fun h => howned.1 h.owned
  · intro h
    have howned := howned.2 h
    refine ⟨congrArg (inherited prior.qualifier) howned, ?_, howned, ?_, ?_⟩
    · rw [Bool.eq_iff_iff]
      refine (isSome_chosen hfirst').trans (Iff.trans ?_ (isSome_chosen hfirst).symm)
      simp only [hperm.mem_iff]
    · have hcomm : RightCommutative fun (moves : PartialMove) (state : State) => moves.union state.partialMove :=
        ⟨fun moves a b => moves.union_comm a.partialMove b.partialMove⟩
      exact hperm.foldl_eq _
    · show states'.any State.demanded = states.any State.demanded
      rw [Bool.eq_iff_iff, List.any_eq_true, List.any_eq_true]
      simp only [hperm.mem_iff]

end Agreed

/-! ### All bindings -/

section All

variable {outcome : Snapshot} {outcomes : List Snapshot} {span : Span} {prior : BindingSnapshot}

theorem stateIn_mem (outcome : Snapshot) (rest : List Snapshot) (prior : BindingSnapshot) :
    stateIn prior outcome ∈ (outcome :: rest).map (stateIn prior) :=
  List.mem_map_of_mem List.mem_cons_self

theorem agreeBinding_name (analysis : Analysis) (id : ℕ) :
    ((agreeBinding outcome outcomes span analysis prior).bindings id).name = (analysis.bindings id).name := by
  unfold agreeBinding Analysis.set Analysis.report
  dsimp only
  by_cases h : id = prior.id
  · subst h
    rw [Function.update_self]
  · rw [Function.update_of_ne h]

theorem agreeBinding_of_ne (analysis : Analysis) {id : ℕ} (h : id ≠ prior.id) :
    (agreeBinding outcome outcomes span analysis prior).bindings id = analysis.bindings id :=
  set_of_ne _ _ h

theorem agreeBinding_state (analysis : Analysis) :
    ((agreeBinding outcome outcomes span analysis prior).bindings prior.id).state =
      agreed prior.state (stateIn prior outcome) (outcomes.map (stateIn prior)) := by
  unfold agreeBinding
  exact set_state _ _ _

variable {bindings : List BindingSnapshot}

theorem foldl_agreeBinding_diagnostics (analysis : Analysis) :
    (bindings.foldl (agreeBinding outcome outcomes span) analysis).diagnostics =
      analysis.diagnostics ++ bindings.flatMap fun prior => disagreements (analysis.bindings prior.id).name prior.state
        (stateIn prior outcome) (outcomes.map (stateIn prior)) span := by
  induction bindings generalizing analysis with
  | nil => exact (List.append_nil _).symm
  | cons prior rest ih =>
    rw [List.foldl_cons, ih, List.flatMap_cons, ← List.append_assoc]
    simp only [agreeBinding_name]
    rfl

theorem foldl_agreeBinding_state (analysis : Analysis) (hdistinct : (bindings.map BindingSnapshot.id).Nodup)
    (hprior : prior ∈ bindings) :
    ((bindings.foldl (agreeBinding outcome outcomes span) analysis).bindings prior.id).state =
      agreed prior.state (stateIn prior outcome) (outcomes.map (stateIn prior)) := by
  have hother : ∀ (rest : List BindingSnapshot) (analysis : Analysis), prior.id ∉ rest.map BindingSnapshot.id →
      (rest.foldl (agreeBinding outcome outcomes span) analysis).bindings prior.id = analysis.bindings prior.id := by
    intro rest
    induction rest with
    | nil => exact fun _ _ => rfl
    | cons other rest ih =>
      intro analysis h
      rw [List.map_cons, List.mem_cons, not_or] at h
      rw [List.foldl_cons, ih _ h.2, agreeBinding_of_ne _ h.1]
  induction bindings generalizing analysis with
  | nil => exact absurd hprior List.not_mem_nil
  | cons other rest ih =>
    rw [List.map_cons, List.nodup_cons] at hdistinct
    rw [List.foldl_cons]
    rcases List.mem_cons.1 hprior with rfl | hprior
    · rw [hother rest _ hdistinct.1, agreeBinding_state]
    · exact ih _ hdistinct.2 hprior

end All

/-- **The bindings and the diagnostics after branches.** -/
theorem agree_cons (outcome : Snapshot) (rest : List Snapshot) (before : Snapshot) (span : Span) (analysis : Analysis) :
    (∀ prior ∈ before.bindings, ((agree (outcome :: rest) before span analysis).bindings prior.id).state =
      agreed prior.state (stateIn prior outcome) ((outcome :: rest).map (stateIn prior))) ∧
    (agree (outcome :: rest) before span analysis).diagnostics =
      analysis.diagnostics ++ before.bindings.flatMap fun prior => disagreements (analysis.bindings prior.id).name
        prior.state (stateIn prior outcome) ((outcome :: rest).map (stateIn prior)) span :=
  ⟨fun _ hprior => foldl_agreeBinding_state analysis before.distinct hprior, foldl_agreeBinding_diagnostics analysis⟩

theorem agree_exact (outcome : Snapshot) (rest : List Snapshot) (before : Snapshot) (span : Span) (analysis : Analysis)
    {prior : BindingSnapshot} (hprior : prior ∈ before.bindings) :
    ((∃ diagnostic ∈ (agree (outcome :: rest) before span analysis).diagnostics,
        diagnostic ∈ disagreements (analysis.bindings prior.id).name prior.state (stateIn prior outcome)
          ((outcome :: rest).map (stateIn prior)) span) ∨
      ∀ branch ∈ outcome :: rest,
        AtLeast ((agree (outcome :: rest) before span analysis).bindings prior.id).state (stateIn prior branch)) ↔
    Disputed prior.state ((outcome :: rest).map (stateIn prior)) ∨
      Covers (chosen (stateIn prior outcome) ((outcome :: rest).map (stateIn prior)))
        ((outcome :: rest).map (stateIn prior)) := by
  obtain ⟨hstate, hdiagnostics⟩ := agree_cons outcome rest before span analysis
  have hfirst := stateIn_mem outcome rest prior
  rw [hstate prior hprior, hdiagnostics, ← disagreements_ne_nil hfirst, ← atLeast_agreed_iff hfirst,
    List.forall_mem_map]
  refine or_congr_left ⟨fun ⟨diagnostic, _, hmem⟩ => List.ne_nil_of_mem hmem, fun hne => ?_⟩
  obtain ⟨diagnostic, hmem⟩ := List.exists_mem_of_ne_nil _ hne
  exact ⟨diagnostic, List.mem_append_right _ (List.mem_flatMap.2 ⟨prior, hprior, hmem⟩), hmem⟩

/-- The order of the branches does not matter just when all states that some order keeps differ in access only. -/
theorem agree_perm_iff (outcome : Snapshot) (rest : List Snapshot) (before : Snapshot) (span : Span)
    (analysis : Analysis) :
    (∀ outcomes, outcomes.Perm (outcome :: rest) →
      (agree outcomes before span analysis).diagnostics =
        (agree (outcome :: rest) before span analysis).diagnostics ∧
      ∀ prior ∈ before.bindings, SameBut ((agree outcomes before span analysis).bindings prior.id).state
        ((agree (outcome :: rest) before span analysis).bindings prior.id).state) ↔
    ∀ prior ∈ before.bindings, ∀ s t, Candidate ((outcome :: rest).map (stateIn prior)) s →
      Candidate ((outcome :: rest).map (stateIn prior)) t → s.owned.raised = t.owned.raised := by
  obtain ⟨hstate, hdiagnostics⟩ := agree_cons outcome rest before span analysis
  constructor
  · intro h prior hprior
    have hfirst := stateIn_mem outcome rest prior
    have hkept : ∀ s, Candidate ((outcome :: rest).map (stateIn prior)) s →
        s.owned.raised =
          (chosen (stateIn prior outcome) ((outcome :: rest).map (stateIn prior))).owned.raised := by
      intro s hs
      obtain ⟨branch, hbranch, rfl⟩ := List.mem_map.1 hs.1
      -- The branch of the candidate comes first.
      obtain ⟨earlier, later, heq⟩ := List.append_of_mem hbranch
      have hperm : (branch :: (earlier ++ later)).Perm (outcome :: rest) := heq ▸ List.perm_middle.symm
      have hmap := hperm.map (stateIn prior)
      have hsame := (h _ hperm).2 prior hprior
      rw [hstate prior hprior, (agree_cons branch (earlier ++ later) before span analysis).1 prior hprior,
        sameBut_agreed_iff hfirst (stateIn_mem branch _ prior) hmap] at hsame
      rwa [List.map_cons, chosen_of_candidate (Candidate.perm hmap.symm hs)] at hsame
    intro s t hs ht
    rw [hkept s hs, hkept t ht]
  · intro h outcomes hperm
    obtain _ | ⟨branch, others⟩ := outcomes
    · exact absurd hperm.length_eq (Nat.succ_ne_zero _).symm
    · obtain ⟨hstate', hdiagnostics'⟩ := agree_cons branch others before span analysis
      refine ⟨?_, fun prior hprior => ?_⟩
      · rw [hdiagnostics, hdiagnostics']
        congr 1
        refine List.flatMap_congr fun prior hprior => ?_
        exact disagreements_perm (stateIn_mem outcome rest prior) (stateIn_mem branch others prior)
          (hperm.map (stateIn prior))
      · have hmap := hperm.map (stateIn prior)
        rw [hstate prior hprior, hstate' prior hprior,
          sameBut_agreed_iff (stateIn_mem outcome rest prior) (stateIn_mem branch others prior) hmap]
        exact h prior hprior _ _ ((chosen_candidate (stateIn_mem branch others prior)).perm hmap)
          (chosen_candidate (stateIn_mem outcome rest prior))

theorem join_exact (values : List { p : Produced // p.Keyed }) :
    (∀ value ∈ values, value.1.obligation ≤ (Produced.joinAlternatives (values.map Subtype.val)).obligation ∧
      (value.1.containsBorrow = true → (Produced.joinAlternatives (values.map Subtype.val)).containsBorrow = true) ∧
      (value.1.containsShared = true → (Produced.joinAlternatives (values.map Subtype.val)).containsShared = true)) ∧
    (((∃ elements, Produced.joinAlternatives (values.map Subtype.val) = .store elements) →
        ∀ value ∈ values, value.1.isStore = true) ↔
      ∀ elements, .store elements ∈ values.map Subtype.val →
        (∀ value ∈ values, value.1 = .store elements ∨ value.1.relevant = false) →
          ∀ value ∈ values, value.1 = .store elements) := by
  have hkeyed : ∀ value ∈ values.map Subtype.val, value.Keyed := by
    intro value hvalue
    obtain ⟨value, -, rfl⟩ := List.mem_map.1 hvalue
    exact value.2
  refine ⟨fun value hvalue => ⟨?_, fun h => ?_, fun h => ?_⟩, ?_⟩
  · by_cases hnone : value.1.obligation = .none
    · rw [hnone]
      exact Obligation.none_le _
    · refine (Produced.carried_obligation hnone).joinAlternatives hkeyed (List.mem_map_of_mem hvalue) ?_
      cases value.1.obligation <;> decide
  · exact Produced.carried_containsBorrow.joinAlternatives hkeyed (List.mem_map_of_mem hvalue) h
  · exact Produced.carried_containsShared.joinAlternatives hkeyed (List.mem_map_of_mem hvalue) h
  · rw [Produced.joinAlternatives_eq_store]
    simp only [List.forall_mem_map]
    constructor
    · intro h elements helements hall value hvalue
      have hstore := h ⟨elements, helements, .inr hall⟩ value hvalue
      refine (hall value hvalue).resolve_right fun hirrelevant => ?_
      rw [Produced.relevant_of_isStore hstore] at hirrelevant
      cases hirrelevant
    · rintro h ⟨elements, helements, hstores | hall⟩ value hvalue
      · exact hstores value hvalue
      · rw [h elements helements hall value hvalue]
        rfl

/-- **Merging branches.**  A binding that is not reported is at least as restricted as each branch leaves it just when
the kept state covers the others; the order of the branches does not matter just when the states that it may keep
differ in access only; a join owes, borrows and shares what its alternatives do, and is an owned Store only if they all
are, unless the others are irrelevant. -/
theorem merging_exact (outcome : Snapshot) (rest : List Snapshot) (before : Snapshot) (span : Span)
    (analysis : Analysis) (values : List { p : Produced // p.Keyed }) :
    (∀ prior ∈ before.bindings,
        ((∃ diagnostic ∈ (agree (outcome :: rest) before span analysis).diagnostics,
            diagnostic ∈ disagreements (analysis.bindings prior.id).name prior.state (stateIn prior outcome)
              ((outcome :: rest).map (stateIn prior)) span) ∨
          ∀ branch ∈ outcome :: rest,
            AtLeast ((agree (outcome :: rest) before span analysis).bindings prior.id).state (stateIn prior branch)) ↔
        Disputed prior.state ((outcome :: rest).map (stateIn prior)) ∨
          Covers (chosen (stateIn prior outcome) ((outcome :: rest).map (stateIn prior)))
            ((outcome :: rest).map (stateIn prior))) ∧
    ((∀ outcomes, outcomes.Perm (outcome :: rest) →
        (agree outcomes before span analysis).diagnostics =
          (agree (outcome :: rest) before span analysis).diagnostics ∧
        ∀ prior ∈ before.bindings, SameBut ((agree outcomes before span analysis).bindings prior.id).state
          ((agree (outcome :: rest) before span analysis).bindings prior.id).state) ↔
      ∀ prior ∈ before.bindings, ∀ s t, Candidate ((outcome :: rest).map (stateIn prior)) s →
        Candidate ((outcome :: rest).map (stateIn prior)) t → s.owned.raised = t.owned.raised) ∧
    (∀ value ∈ values, value.1.obligation ≤ (Produced.joinAlternatives (values.map Subtype.val)).obligation ∧
      (value.1.containsBorrow = true → (Produced.joinAlternatives (values.map Subtype.val)).containsBorrow = true) ∧
      (value.1.containsShared = true → (Produced.joinAlternatives (values.map Subtype.val)).containsShared = true)) ∧
    (((∃ elements, Produced.joinAlternatives (values.map Subtype.val) = .store elements) →
        ∀ value ∈ values, value.1.isStore = true) ↔
      ∀ elements, .store elements ∈ values.map Subtype.val →
        (∀ value ∈ values, value.1 = .store elements ∨ value.1.relevant = false) →
          ∀ value ∈ values, value.1 = .store elements) :=
  ⟨fun _ hprior => agree_exact outcome rest before span analysis hprior,
    agree_perm_iff outcome rest before span analysis, join_exact values⟩

/-! ### An array that one branch shares -/

/-- `xs` owned, as it is before the branches and after one that does not use it. -/
def ownedSnapshot : Snapshot where
  bindings := [⟨0, ⟨.affine, none, .store .none, .none, false, .intro (by decide) fun _ hc =>
    List.mem_singleton.1 hc ▸ .intro (by decide) fun _ hc => absurd hc List.not_mem_nil⟩⟩]
  distinct := List.nodup_singleton _

/-- `xs` after a branch that hands it to a function which does not consume it. -/
def sharedSnapshot : Snapshot where
  bindings := [⟨0, ⟨.none, none, .sharedStore, .none, false, .intro (by decide) fun _ hc =>
    absurd hc List.not_mem_nil⟩⟩]
  distinct := List.nodup_singleton _

def branchAnalysis : Analysis where
  bindings _ := ⟨"xs", ⟨.affine, none, .store .none, .none, false, .intro (by decide) fun _ hc =>
    List.mem_singleton.1 hc ▸ .intro (by decide) fun _ hc => absurd hc List.not_mem_nil⟩⟩
  diagnostics := []

/-- After `if condition then 0 else observe xs` the array is owned, though the second branch has shared it, and nothing
is reported; with the branches exchanged it is shared. -/
theorem agree_shares_in_one_branch :
    (agree [ownedSnapshot, sharedSnapshot] ownedSnapshot ⟨0, 0⟩ branchAnalysis).diagnostics = [] ∧
    ((agree [ownedSnapshot, sharedSnapshot] ownedSnapshot ⟨0, 0⟩ branchAnalysis).bindings 0).state.owned =
      .store .none ∧
    ((agree [sharedSnapshot, ownedSnapshot] ownedSnapshot ⟨0, 0⟩ branchAnalysis).bindings 0).state.owned =
      .sharedStore ∧
    Produced.joinAlternatives [.none, .store .none] = .store .none :=
  ⟨rfl, rfl, rfl, rfl⟩

end Blot.Ownership
