import Blot.Suspension.Liveness

/-!
# The lifetimes of the values of a continuation (`backend/lifetimes.rs`)

A scan from the transition up: what is live after an instruction, and what dies at it.
-/

namespace Blot.Suspension

open Blot.Hir Blot.Support

structure ContinuationLifetimes where
  entryDrops : List ValueId
  instructionDrops : List (List ValueId)
  transitionRoots : Ascending ValueId

def Function.edgeDestinations (f : Function) (edge : Edge) : Except Fault (List ValueId) := do
  let successor ← f.fetch edge.target
  pure (edge.arguments.filterMap Argument.value? ++ successor.captures.map (·.value))

def Function.extendByEdge (f : Function) (live : Ascending ValueId) (edge : Edge) : Except Fault (Ascending ValueId) := do
  let destinations ← f.edgeDestinations edge
  pure (live.extend destinations)

def Function.transitionRoots (f : Function) (transition : Transition) : Except Fault (Ascending ValueId) :=
  transition.edges.foldlM f.extendByEdge (.ofList transition.uses)

def Instruction.drops (i : Instruction) (live : Ascending ValueId) : Ascending ValueId :=
  let drops := Ascending.ofList (i.operands.filter (· ∉ live))
  if i.definition.value ∈ live then drops else drops.insert i.definition.value

/-- The loop of `ContinuationLifetimes::new`, from the last instruction on: what dies at each, and what is live before
them. -/
def scanDrops : List Instruction → Ascending ValueId → List (List ValueId) × Ascending ValueId
  | [], live => ([], live)
  | i :: instructions, live =>
    let (drops, live) := scanDrops instructions live
    ((i.drops live).elements :: drops, i.before live)

/-- `ContinuationLifetimes::new` -/
def Function.lifetimes (f : Function) (c : Continuation) : Except Fault ContinuationLifetimes := do
  let roots ← f.transitionRoots c.transition
  let (drops, live) := scanDrops c.instructions roots
  pure ⟨(c.inputs.map (·.value)).filter (· ∉ live), drops, roots⟩

def Continuation.holdings (c : Continuation) : List ValueId := c.inputs.map (·.value) ++ c.results

/-- The transition of a continuation takes the value along: it reads it, or passes it on an edge, or a successor captures
it. -/
def Function.Leaves (f : Function) (c : Continuation) (v : ValueId) : Prop :=
  v ∈ c.transition.uses ∨ ∃ edge ∈ c.transition.edges, .value v ∈ edge.arguments ∨
    ∃ successor, f.continuations[edge.target]? = some successor ∧ v ∈ successor.captures.map (·.value)

/-- **What the lifetimes say**: a value that the continuation holds leaves with the transition, or is dropped once, after
its last read. -/
structure ContinuationLifetimes.Exact (f : Function) (c : Continuation) (l : ContinuationLifetimes) : Prop where
  length : l.instructionDrops.length = c.instructions.length
  roots : ∀ v, v ∈ l.transitionRoots ↔ f.Leaves c v
  holdings : ∀ v, v ∈ l.transitionRoots ∨ v ∈ l.entryDrops ++ l.instructionDrops.flatten → v ∈ c.holdings
  once : ∀ v ∈ c.holdings,
    (l.entryDrops ++ l.instructionDrops.flatten).count v = if v ∈ l.transitionRoots then 0 else 1
  entry : ∀ v ∈ l.entryDrops, v ∈ c.inputs.map (·.value) ∧ ∀ i ∈ c.instructions, v ∉ i.operands
  last : ∀ before i after drops, c.instructions = before ++ i :: after → l.instructionDrops[before.length]? = some drops →
    ∀ v ∈ drops, v ∈ c.inputs.map (·.value) ++ (before ++ [i]).map (·.definition.value) ∧
      ∀ later ∈ after, v ∉ later.operands

/-! ### The roots -/

section Roots

variable {f : Function}

theorem edgeDestinations_eq_ok {edge : Edge} {destinations : List ValueId} :
    f.edgeDestinations edge = .ok destinations ↔ ∃ successor, f.continuations[edge.target]? = some successor ∧
      edge.arguments.filterMap Argument.value? ++ successor.captures.map (·.value) = destinations := by
  simp only [Function.edgeDestinations, Function.fetch, bind_eq_ok, demand_eq_ok, pure_eq_ok]

theorem mem_foldlM_extendByEdge {edges : List Edge} {live roots : Ascending ValueId}
    (h : edges.foldlM f.extendByEdge live = .ok roots) (v : ValueId) :
    v ∈ roots ↔ v ∈ live ∨ ∃ edge ∈ edges, .value v ∈ edge.arguments ∨
      ∃ successor, f.continuations[edge.target]? = some successor ∧ v ∈ successor.captures.map (·.value) := by
  induction edges generalizing live with
  | nil =>
    obtain rfl := foldlM_nil_eq_ok.1 h
    simp
  | cons edge edges ih =>
    obtain ⟨next, hnext, hrest⟩ := foldlM_cons_eq_ok.1 h
    simp only [Function.extendByEdge, bind_eq_ok, pure_eq_ok, edgeDestinations_eq_ok] at hnext
    obtain ⟨_, ⟨successor, hs, rfl⟩, rfl⟩ := hnext
    rw [ih hrest, Ascending.mem_extend, List.mem_append, mem_arguments, or_assoc]
    simp only [List.mem_cons, exists_eq_or_imp, hs, Option.some.injEq, exists_eq_left']

/-- The roots are what leaves. -/
theorem mem_transitionRoots {c : Continuation} {roots : Ascending ValueId}
    (h : f.transitionRoots c.transition = .ok roots) (v : ValueId) : v ∈ roots ↔ f.Leaves c v := by
  rw [mem_foldlM_extendByEdge h, Ascending.mem_ofList]
  rfl

theorem transitionRoots_ok {transition : Transition} (hfits : ∀ edge ∈ transition.edges, f.Fits edge) :
    ∃ roots, f.transitionRoots transition = .ok roots := by
  unfold Function.transitionRoots
  generalize Ascending.ofList transition.uses = live
  generalize transition.edges = edges at hfits ⊢
  induction edges generalizing live with
  | nil => exact ⟨live, rfl⟩
  | cons edge edges ih =>
    obtain ⟨hedge, hedges⟩ := List.forall_mem_cons.1 hfits
    obtain ⟨successor, hs, -⟩ := hedge
    have hstep : f.extendByEdge live edge = .ok (live.extend
        (edge.arguments.filterMap Argument.value? ++ successor.captures.map (·.value))) := by
      rw [Function.extendByEdge, edgeDestinations_eq_ok.2 ⟨successor, hs, rfl⟩]
      rfl
    rw [List.foldlM_cons, hstep]
    exact ih _ hedges

end Roots

/-! ### The scan -/

theorem scanDrops_live : ∀ (instructions : List Instruction) (live : Ascending ValueId),
    (scanDrops instructions live).2 = instructions.foldr Instruction.before live
  | [], _ => rfl
  | i :: instructions, live => congrArg i.before (scanDrops_live instructions live)

theorem scanDrops_length : ∀ (instructions : List Instruction) (live : Ascending ValueId),
    (scanDrops instructions live).1.length = instructions.length
  | [], _ => rfl
  | _ :: instructions, live => congrArg Nat.succ (scanDrops_length instructions live)

theorem mem_drops {i : Instruction} {live : Ascending ValueId} {v : ValueId} :
    v ∈ i.drops live ↔ v ∉ live ∧ (v ∈ i.operands ∨ v = i.definition.value) := by
  unfold Instruction.drops
  dsimp only
  split
  · next hlive =>
    rw [Ascending.mem_ofList, List.mem_filter, decide_eq_true_eq]
    constructor
    · exact fun ⟨hv, hnot⟩ => ⟨hnot, .inl hv⟩
    · rintro ⟨hnot, hv | rfl⟩
      · exact ⟨hv, hnot⟩
      · exact absurd hlive hnot
  · next hlive =>
    rw [Ascending.mem_insert, Ascending.mem_ofList, List.mem_filter, decide_eq_true_eq]
    constructor
    · rintro (rfl | ⟨hv, hnot⟩)
      · exact ⟨hlive, .inr rfl⟩
      · exact ⟨hnot, .inl hv⟩
    · rintro ⟨hnot, hv | rfl⟩
      · exact .inr ⟨hv, hnot⟩
      · exact .inl rfl

theorem mem_before {i : Instruction} {live : Ascending ValueId} {v : ValueId} :
    v ∈ i.before live ↔ v ∈ live ∧ v ≠ i.definition.value ∨ v ∈ i.operands := by
  rw [Instruction.before, Ascending.mem_extend, Ascending.mem_remove]

/-- **What the scan drops**: a value that is live before the instructions or defined by them is dropped once, unless it is
live after them; no other value is. -/
theorem scanDrops_count {roots : Ascending ValueId} : ∀ {instructions : List Instruction},
    (instructions.map (·.definition.value)).Nodup →
    (∀ v ∈ (scanDrops instructions roots).2, v ∉ instructions.map (·.definition.value)) → ∀ v,
    (v ∈ (scanDrops instructions roots).2 ∨ v ∈ instructions.map (·.definition.value) →
      (scanDrops instructions roots).1.flatten.count v = if v ∈ roots then 0 else 1) ∧
    (v ∉ (scanDrops instructions roots).2 → v ∉ instructions.map (·.definition.value) →
      v ∉ roots ∧ v ∉ (scanDrops instructions roots).1.flatten)
  | [], _, _, v => by
    refine ⟨fun h => ?_, fun h _ => ⟨h, List.not_mem_nil⟩⟩
    have hroot : v ∈ roots := h.resolve_right List.not_mem_nil
    rw [if_pos hroot]
    rfl
  | i :: instructions, hnodup, hfresh, v => by
    obtain ⟨hnot, hnodup'⟩ := List.nodup_cons.1 hnodup
    obtain ⟨drops, live, hscan⟩ : ∃ drops live, scanDrops instructions roots = (drops, live) := ⟨_, _, rfl⟩
    have hcons : scanDrops (i :: instructions) roots = ((i.drops live).elements :: drops, i.before live) := by
      rw [scanDrops, hscan]
    rw [hcons] at hfresh ⊢
    dsimp only at hfresh ⊢
    have hfresh' : ∀ v ∈ live, v ∉ instructions.map (·.definition.value) := by
      intro v hv
      by_cases he : v = i.definition.value
      · exact he ▸ hnot
      · exact fun hm => hfresh v (mem_before.2 (.inl ⟨hv, he⟩)) (List.mem_cons_of_mem _ hm)
    have ih := scanDrops_count hnodup' (by rw [hscan]; exact hfresh') v
    rw [hscan] at ih
    dsimp only at ih
    rw [List.flatten_cons, List.count_append]
    by_cases hdrop : v ∈ i.drops live
    · -- the value dies here: it is not live after, and no later instruction defines it
      obtain ⟨hlive, hv⟩ := mem_drops.1 hdrop
      have hlater : v ∉ instructions.map (·.definition.value) := by
        rcases hv with hv | rfl
        · exact fun hm => hfresh v (mem_before.2 (.inr hv)) (List.mem_cons_of_mem _ hm)
        · exact hnot
      obtain ⟨hroot, hflatten⟩ := ih.2 hlive hlater
      rw [if_neg hroot, List.count_eq_zero.2 hflatten,
        List.count_eq_one_of_mem (i.drops live).nodup hdrop]
      refine ⟨fun _ => rfl, fun hbefore hresults => ?_⟩
      rcases hv with hv | rfl
      · exact absurd (mem_before.2 (.inr hv)) hbefore
      · exact absurd List.mem_cons_self hresults
    · have hzero : (i.drops live).elements.count v = 0 := List.count_eq_zero.2 hdrop
      rw [hzero, Nat.zero_add]
      -- a value that is read or defined here and does not die is live after
      have hafter : v ∈ i.operands ∨ v = i.definition.value → v ∈ live :=
        fun hv => by_contra fun hlive => hdrop (mem_drops.2 ⟨hlive, hv⟩)
      constructor
      · rintro (hv | hv)
        · rcases mem_before.1 hv with ⟨hv, -⟩ | hv
          · exact ih.1 (.inl hv)
          · exact ih.1 (.inl (hafter (.inl hv)))
        · rcases List.mem_cons.1 hv with rfl | hv
          · exact ih.1 (.inl (hafter (.inr rfl)))
          · exact ih.1 (.inr hv)
      · intro hbefore hresults
        rw [List.map_cons, List.mem_cons, not_or] at hresults
        obtain ⟨hroot, hflatten⟩ := ih.2 (fun hlive => hbefore (mem_before.2 (.inl ⟨hlive, hresults.1⟩))) hresults.2
        refine ⟨hroot, ?_⟩
        rw [List.mem_append, not_or]
        exact ⟨hdrop, hflatten⟩

theorem scanDrops_last {roots : Ascending ValueId} {i : Instruction} {after : List Instruction} {drops : List ValueId} :
    ∀ {before : List Instruction}, ((before ++ i :: after).map (·.definition.value)).Nodup →
    (∀ v ∈ (scanDrops (before ++ i :: after) roots).2, v ∉ (before ++ i :: after).map (·.definition.value)) →
    (scanDrops (before ++ i :: after) roots).1[before.length]? = some drops → ∀ v ∈ drops,
      (v ∈ (scanDrops (before ++ i :: after) roots).2 ∨ v ∈ (before ++ [i]).map (·.definition.value)) ∧
        ∀ later ∈ after, v ∉ later.operands
  | [], hnodup, hfresh, hdrops, v, hv => by
    obtain rfl := Option.some.inj hdrops
    obtain ⟨hlive, hv⟩ := mem_drops.1 hv
    obtain ⟨hnot, -⟩ := List.nodup_cons.1 hnodup
    have hbefore : v ∈ (scanDrops (i :: after) roots).2 ∨ v = i.definition.value :=
      hv.imp_left fun hv => mem_before.2 (.inr hv)
    refine ⟨hbefore.imp_right fun he => List.mem_singleton.2 he, fun later hlater hread => ?_⟩
    have hlater' : v ∉ after.map (·.definition.value) := by
      rcases hbefore with hv | rfl
      · exact fun hm => hfresh v hv (List.mem_cons_of_mem _ hm)
      · exact hnot
    -- a later read would make it live
    obtain ⟨front, back, rfl⟩ := List.append_of_mem hlater
    refine hlive ?_
    rw [scanDrops_live, mem_foldr_before]
    refine .inl ⟨front, later, back, rfl, hread, fun hm => hlater' ?_⟩
    rw [List.map_append]
    exact List.mem_append_left _ hm
  | b :: before, hnodup, hfresh, hdrops, v, hv => by
    obtain ⟨hnot, hnodup'⟩ := List.nodup_cons.1 hnodup
    have hfresh' : ∀ v ∈ (scanDrops (before ++ i :: after) roots).2,
        v ∉ (before ++ i :: after).map (·.definition.value) := by
      intro v hv
      by_cases he : v = b.definition.value
      · exact he ▸ hnot
      · exact fun hm => hfresh v (mem_before.2 (.inl ⟨hv, he⟩)) (List.mem_cons_of_mem _ hm)
    obtain ⟨hbefore, hafter⟩ := scanDrops_last hnodup' hfresh' hdrops v hv
    refine ⟨?_, hafter⟩
    rcases hbefore with hlive | hresult
    · by_cases he : v = b.definition.value
      · exact .inr (he ▸ List.mem_cons_self)
      · exact .inl (mem_before.2 (.inl ⟨hlive, he⟩))
    · exact .inr (List.mem_cons_of_mem _ hresult)

/-- **The lifetimes of a continuation**, whose inputs and results are defined once, and that reads nothing else. -/
theorem lifetimes_exact {f : Function} {c : Continuation} (hfits : ∀ edge ∈ c.transition.edges, f.Fits edge)
    (hnodup : c.holdings.Nodup)
    (hlive : ∀ roots, f.transitionRoots c.transition = .ok roots →
      ∀ v ∈ c.instructions.foldr Instruction.before roots, v ∈ c.inputs.map (·.value)) :
    ∃ l, f.lifetimes c = .ok l ∧ l.Exact f c := by
  obtain ⟨roots, hroots⟩ := transitionRoots_ok hfits
  obtain ⟨hinputs, hresults, hdisjoint⟩ := List.nodup_append.1 hnodup
  have hlive := hlive roots hroots
  rw [← scanDrops_live] at hlive
  have hfresh : ∀ v ∈ (scanDrops c.instructions roots).2, v ∉ c.instructions.map (·.definition.value) :=
    fun v hv hm => hdisjoint v (hlive v hv) v hm rfl
  have hcount := scanDrops_count hresults hfresh
  refine ⟨_, by rw [Function.lifetimes, hroots]; rfl, ?_⟩
  constructor
  · exact scanDrops_length c.instructions roots
  · exact mem_transitionRoots hroots
  · intro v hv
    by_contra hnot
    have hnot' : v ∉ c.inputs.map (·.value) ∧ v ∉ c.results := by
      rwa [Continuation.holdings, List.mem_append, not_or] at hnot
    obtain ⟨hroot, hflatten⟩ := (hcount v).2 (fun h => hnot'.1 (hlive v h)) hnot'.2
    rcases hv with hv | hv
    · exact hroot hv
    · rcases List.mem_append.1 hv with hv | hv
      · exact hnot'.1 (List.mem_filter.1 hv).1
      · exact hflatten hv
  · intro v hv
    dsimp only
    rw [List.count_append]
    by_cases hbefore : v ∈ (scanDrops c.instructions roots).2
    · have hentry : v ∉ (c.inputs.map (·.value)).filter (· ∉ (scanDrops c.instructions roots).2) := by
        intro h
        exact (of_decide_eq_true (List.mem_filter.1 h).2) hbefore
      rw [List.count_eq_zero.2 hentry, Nat.zero_add, (hcount v).1 (.inl hbefore)]
    · rcases List.mem_append.1 hv with hin | hresult
      · -- an input that nothing reads
        obtain ⟨hroot, hflatten⟩ := (hcount v).2 hbefore fun hm => hdisjoint v hin v hm rfl
        have hentry : v ∈ (c.inputs.map (·.value)).filter (· ∉ (scanDrops c.instructions roots).2) :=
          List.mem_filter.2 ⟨hin, decide_eq_true hbefore⟩
        rw [List.count_eq_one_of_mem (hinputs.filter _) hentry, List.count_eq_zero.2 hflatten, if_neg hroot]
      · have hentry : v ∉ (c.inputs.map (·.value)).filter (· ∉ (scanDrops c.instructions roots).2) :=
          fun h => hdisjoint v (List.mem_filter.1 h).1 v hresult rfl
        rw [List.count_eq_zero.2 hentry, Nat.zero_add, (hcount v).1 (.inr hresult)]
  · intro v hv
    obtain ⟨hin, hnot⟩ := List.mem_filter.1 hv
    refine ⟨hin, fun i hi hread => of_decide_eq_true hnot ?_⟩
    obtain ⟨before, after, he⟩ := List.append_of_mem hi
    rw [scanDrops_live, mem_foldr_before]
    refine .inl ⟨before, i, after, he, hread, fun hm => ?_⟩
    refine hdisjoint v hin v ?_ rfl
    rw [Continuation.results, he, List.map_append]
    exact List.mem_append_left _ hm
  · intro before i after drops he hdrops v hv
    dsimp only at hdrops
    rw [Continuation.results, he] at hresults
    rw [he] at hdrops hfresh
    obtain ⟨hbefore, hafter⟩ := scanDrops_last hresults hfresh hdrops v hv
    refine ⟨List.mem_append.2 (hbefore.imp_left fun h => hlive v (by rw [he]; exact h)), hafter⟩

end Blot.Suspension
