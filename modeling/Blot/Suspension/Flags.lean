import Blot.Support.Worklist
import Blot.Suspension.Lowered
import Blot.Suspension.Safety
import Mathlib.Data.List.Chain

/-!
# Suspension and frames (`Graph::lower`, `close_reachable`)

* `mem_closeReachable` — what a finished worklist has reached;
* `calls_of_lowerFunction` — the calls of a lowered function are those of its staged operations;
* `lower_marks` — the flags of a lowered graph, said of the staged module;
* `Runs.chained` — on the stack of a run each activation has been called by the one below it;
* `flags_are_least` — the flags are the least sound ones.
-/

namespace Blot.Hir

def StagedModule.Calls (module : StagedModule) (caller callee : ℕ) : Prop :=
  ∃ function ∈ module.functions, function.id = caller ∧
    ∃ operation ∈ function.operations, operation.kind = "call.direct" ∧ operation.function = some callee

def StagedOperation.Suspends (tables : Tables) (operation : StagedOperation) : Prop :=
  ∃ capability name, operation.capability = some capability ∧ operation.operation = some name ∧
    (operation.kind = "host.call" ∧
        (∃ host, tables.hostOperation capability name = some host ∧ host.suspends = true) ∨
      operation.kind = "call.external" ∧
        ∃ link, tables.developmentLink capability name = some link ∧ link.suspends = true)

/-- A resumable root, or a function with a host call or a link call that may suspend. -/
def StagedModule.Suspending (module : StagedModule) (id : ℕ) : Prop :=
  id ∈ module.resumableRoots ∨ ∃ function ∈ module.functions, function.id = id ∧
    ∃ operation ∈ function.operations, operation.Suspends module.tables

end Blot.Hir

namespace Blot.Suspension

open Blot.Hir Blot.Support

/-! ### The worklist -/

section Worklist

def Neighbours.next (edges : Neighbours) (source : FunctionId) : List FunctionId :=
  ((edges.lookup source).getD .empty).elements

/-- The neighbours of one function are reached; those that are new are still to be visited. -/
theorem mem_foldl_reachNeighbour (targets : List FunctionId) (state : Ascending FunctionId × List FunctionId)
    (a : FunctionId) :
    (a ∈ (targets.foldl reachNeighbour state).1 ↔ a ∈ state.1 ∨ a ∈ targets) ∧
      (a ∈ (targets.foldl reachNeighbour state).2 ↔ a ∈ state.2 ∨ a ∈ targets ∧ a ∉ state.1) := by
  induction targets generalizing state with
  | nil => simp
  | cons target targets ih =>
    rw [List.foldl_cons, (ih _).1, (ih _).2, List.mem_cons]
    unfold reachNeighbour
    by_cases htarget : target ∈ state.1
    · rw [if_pos htarget]
      refine ⟨⟨Or.imp_right Or.inr, ?_⟩, ⟨Or.imp_right (And.imp_left Or.inr), ?_⟩⟩
      · rintro (h | rfl | h)
        · exact Or.inl h
        · exact Or.inl htarget
        · exact Or.inr h
      · rintro (h | ⟨rfl | h, hnew⟩)
        · exact Or.inl h
        · exact absurd htarget hnew
        · exact Or.inr ⟨h, hnew⟩
    · rw [if_neg htarget, Ascending.mem_insert, List.mem_cons]
      constructor
      · tauto
      · by_cases ha : a = target
        · subst ha
          tauto
        · tauto

/-- What the worklist reaches: nothing but what the start leads to, and all of it. -/
theorem mem_closeReachable {edges : Neighbours} {n : ℕ} {reached result : Ascending FunctionId}
    {pending : List FunctionId} (h : closeReachable edges n reached pending = .ok result)
    (hpending : ∀ a ∈ pending, a ∈ reached) (hdone : ∀ a ∈ reached, a ∉ pending → ∀ b ∈ edges.next a, b ∈ reached)
    (b : FunctionId) : b ∈ result ↔ ∃ a ∈ reached, LeadsTo edges.next a b := by
  induction n generalizing reached pending with
  | zero => cases h
  | succ n ih =>
    cases pending with
    | nil =>
      cases h
      refine ⟨fun hb => ⟨b, hb, .refl⟩, ?_⟩
      rintro ⟨a, ha, hlead⟩
      clear ih
      induction hlead with
      | refl => exact ha
      | tail _ hstep hprior => exact hdone _ hprior List.not_mem_nil _ hstep
    | cons source pending =>
      have hsource := hpending source List.mem_cons_self
      have hmem := mem_foldl_reachNeighbour (edges.next source) (reached, pending)
      rw [closeReachable] at h
      change closeReachable edges n ((edges.next source).foldl reachNeighbour (reached, pending)).1
        ((edges.next source).foldl reachNeighbour (reached, pending)).2 = .ok result at h
      rw [ih h ?_ ?_]
      · constructor
        · rintro ⟨a, ha, hlead⟩
          rcases (hmem a).1.1 ha with ha | ha
          · exact ⟨a, ha, hlead⟩
          · exact ⟨source, hsource, .head ha hlead⟩
        · rintro ⟨a, ha, hlead⟩
          exact ⟨a, (hmem a).1.2 (Or.inl ha), hlead⟩
      · intro a ha
        rcases (hmem a).2.1 ha with ha | ⟨ha, _⟩
        · exact (hmem a).1.2 (Or.inl (hpending a (List.mem_cons_of_mem _ ha)))
        · exact (hmem a).1.2 (Or.inr ha)
      · -- a reached function that is not pending is the one just visited, or has been visited before
        intro a ha hnot b hb
        rw [(hmem a).2, not_or, not_and, not_not] at hnot
        rcases (hmem a).1.1 ha with ha | ha
        · by_cases he : a = source
          · exact (hmem b).1.2 (Or.inr (he ▸ hb))
          · exact (hmem b).1.2 (Or.inl (hdone a ha (by simp [he, hnot.1]) b hb))
        · have hin := hnot.2 ha
          by_cases he : a = source
          · exact (hmem b).1.2 (Or.inr (he ▸ hb))
          · exact (hmem b).1.2 (Or.inl (hdone a hin (by simp [he, hnot.1]) b hb))

theorem mem_closeReachable_start {edges : Neighbours} {n : ℕ} {reached result : Ascending FunctionId}
    (h : closeReachable edges n reached reached.elements.reverse = .ok result) (b : FunctionId) :
    b ∈ result ↔ ∃ a ∈ reached, LeadsTo edges.next a b :=
  mem_closeReachable h (fun _ => List.mem_reverse.1) (fun _ ha hnot => absurd (List.mem_reverse.2 ha) hnot) b

theorem mem_next_add {edges : Neighbours} {source target a b : FunctionId} :
    b ∈ (edges.add source target).next a ↔ b ∈ edges.next a ∨ a = source ∧ b = target := by
  unfold Neighbours.next Neighbours.add
  rw [Table.lookup_insert]
  split
  · next he =>
    subst he
    rw [Option.getD_some, ← Ascending.mem_def, Ascending.mem_insert, Ascending.mem_def, or_comm]
    simp
  · next he => simp [he]

theorem mem_next_foldl (ends : FunctionId × FunctionId → FunctionId × FunctionId) {edges : Neighbours}
    {calls : List (FunctionId × FunctionId)} {a b : FunctionId} :
    b ∈ (calls.foldl (fun edges call => Neighbours.add edges (ends call).1 (ends call).2) edges).next a ↔
      b ∈ edges.next a ∨ ∃ call ∈ calls, ends call = (a, b) := by
  induction calls generalizing edges with
  | nil => simp
  | cons call calls ih =>
    have hcall : a = (ends call).1 ∧ b = (ends call).2 ↔ ends call = (a, b) := by
      rw [Prod.ext_iff]
      exact and_congr eq_comm eq_comm
    rw [List.foldl_cons, ih, mem_next_add, or_assoc, hcall]
    simp only [List.mem_cons, exists_eq_or_imp]

end Worklist

/-! ### The calls of a lowered function -/

section Calls

variable {module : StagedModule} {function : StagedFunction} {entries : Entries}

/-- The target of the call that ends a continuation, and whether the call may suspend. -/
def Continuation.call? (c : Continuation) : Option (CallTarget × Bool) :=
  match c.transition with
  | .call target _ _ _ suspends => some (target, suspends)
  | _ => none

def Function.calls (f : Function) : List (CallTarget × Bool) := f.continuations.filterMap Continuation.call?

theorem mem_calls {f : Function} {target : CallTarget} {suspends : Bool} : (target, suspends) ∈ f.calls ↔
    ∃ c ∈ f.continuations, ∃ signature arguments next,
      c.transition = .call target signature arguments next suspends := by
  unfold Function.calls
  rw [List.mem_filterMap]
  refine exists_congr fun c => and_congr_right fun _ => ?_
  unfold Continuation.call?
  cases c.transition <;> simp

theorem mem_callees {f : Function} {id : FunctionId} : id ∈ f.callees ↔ ∃ b, (.function id, b) ∈ f.calls := by
  unfold Function.callees
  rw [List.mem_filterMap]
  constructor
  · rintro ⟨c, hc, hcallee⟩
    split at hcallee
    · next callee signature arguments next suspends ht =>
      cases hcallee
      exact ⟨suspends, mem_calls.2 ⟨c, hc, signature, arguments, next, ht⟩⟩
    · cases hcallee
  · rintro ⟨b, hb⟩
    obtain ⟨c, hc, signature, arguments, next, ht⟩ := mem_calls.1 hb
    exact ⟨c, hc, by rw [ht]⟩

theorem any_suspending {f : Function} :
    f.continuations.any (·.transition.suspending) = true ↔ ∃ target, (target, true) ∈ f.calls := by
  rw [List.any_eq_true]
  constructor
  · rintro ⟨c, hc, hsuspending⟩
    unfold Transition.suspending at hsuspending
    split at hsuspending
    · next target signature arguments next suspends ht =>
      subst hsuspending
      exact ⟨target, mem_calls.2 ⟨c, hc, signature, arguments, next, ht⟩⟩
    · cases hsuspending
  · rintro ⟨target, htarget⟩
    obtain ⟨c, hc, signature, arguments, next, ht⟩ := mem_calls.1 htarget
    exact ⟨c, hc, by rw [ht, Transition.suspending]⟩

def LowersTo (module : StagedModule) (operation : StagedOperation) (call : CallTarget × Bool) : Prop :=
  isCall operation = true ∧ ∃ signature, callTarget module operation = .ok (call.1, signature, call.2)

/-- The continuations that operations add end with the calls among them. -/
theorem calls_of_lowerOperations {draft draft' : Draft} {operations : List StagedOperation}
    (h : operations.foldlM (lowerOperation module) draft = .ok draft') :
    (∀ call, call ∈ draft'.continuations.filterMap Continuation.call? ↔
      call ∈ draft.continuations.filterMap Continuation.call? ∨
        ∃ operation ∈ operations, LowersTo module operation call) ∧
    ∀ operation ∈ operations, isCall operation = true → ∃ call, LowersTo module operation call := by
  induction operations generalizing draft with
  | nil =>
    rw [foldlM_nil_eq_ok.1 h]
    simp
  | cons operation operations ih =>
    obtain ⟨next, hstep, hrest⟩ := foldlM_cons_eq_ok.1 h
    obtain ⟨hcalls, hall⟩ := ih hrest
    unfold lowerOperation at hstep
    split at hstep
    · next hcall =>
      simp only [bind_eq_ok, pure_eq_ok, Prod.exists] at hstep
      obtain ⟨target, signature, suspends, htarget, rfl⟩ := hstep
      have hlowers (call : CallTarget × Bool) : LowersTo module operation call ↔ call = (target, suspends) := by
        unfold LowersTo
        rw [htarget]
        constructor
        · rintro ⟨-, _, he⟩
          cases he
          rfl
        · rintro rfl
          exact ⟨hcall, signature, rfl⟩
      refine ⟨fun call => ?_, List.forall_mem_cons.2 ⟨fun _ => ⟨_, (hlowers _).2 rfl⟩, hall⟩⟩
      rw [hcalls, List.filterMap_append, List.mem_append, or_assoc, List.exists_mem_cons_iff, hlowers]
      simp [Draft.close, Continuation.call?, eq_comm]
    · next hcall =>
      rw [pure_eq_ok] at hstep
      subst hstep
      refine ⟨fun call => ?_, List.forall_mem_cons.2 ⟨fun h => absurd h hcall, hall⟩⟩
      rw [hcalls, List.exists_mem_cons_iff]
      exact or_congr_right (or_iff_right fun h => hcall h.1).symm

theorem calls_of_lowerBlock {continuations cs : List Continuation} {block : StagedBlock}
    (h : lowerBlock module function entries continuations block = .ok cs) :
    (∀ call, call ∈ cs.filterMap Continuation.call? ↔
      call ∈ continuations.filterMap Continuation.call? ∨
        ∃ operation ∈ block.operations, LowersTo module operation call) ∧
    ∀ operation ∈ block.operations, isCall operation = true → ∃ call, LowersTo module operation call := by
  simp only [lowerBlock, bind_eq_ok, pure_eq_ok, Prod.exists] at h
  obtain ⟨draft, hdraft, transition, span, hterminator, rfl⟩ := h
  obtain ⟨hcalls, hall⟩ := calls_of_lowerOperations hdraft
  refine ⟨fun call => ?_, hall⟩
  rw [List.filterMap_append, List.mem_append, hcalls]
  refine or_iff_left fun hlast => ?_
  -- a terminator is no call
  obtain ⟨c, hc, hcall⟩ := List.mem_filterMap.1 hlast
  obtain rfl := List.mem_singleton.1 hc
  unfold Continuation.call? at hcall
  split at hcall
  · next target signature arguments next suspends ht =>
    obtain rfl : transition = _ := ht
    have hsame : Transition.call target signature arguments next (!suspends) = _ :=
      unmarked_of_lowerTerminator hterminator rfl
    injection hsame with _ _ _ _ hsuspends
    exact absurd hsuspends (Bool.not_ne_self suspends)
  · cases hcall

/-- **The calls of a lowered function** are those of its operations. -/
theorem calls_of_lowerFunction {g : Function} (h : lowerFunction module function = .ok g) :
    (∀ call, call ∈ g.calls ↔ ∃ operation ∈ function.operations, LowersTo module operation call) ∧
    ∀ operation ∈ function.operations, isCall operation = true → ∃ call, LowersTo module operation call := by
  simp only [lowerFunction, bind_eq_ok, demand_eq_ok, pure_eq_ok, Prod.exists] at h
  obtain ⟨entries, next, _, entry, _, cs, hcs, rfl⟩ := h
  have hblocks : ∀ (blocks : List StagedBlock) (continuations cs : List Continuation),
      blocks.foldlM (lowerBlock module function entries) continuations = .ok cs →
      (∀ call, call ∈ cs.filterMap Continuation.call? ↔ call ∈ continuations.filterMap Continuation.call? ∨
        ∃ operation ∈ blocks.flatMap (·.operations), LowersTo module operation call) ∧
      ∀ operation ∈ blocks.flatMap (·.operations), isCall operation = true →
        ∃ call, LowersTo module operation call := by
    intro blocks
    induction blocks with
    | nil =>
      intro continuations cs h
      rw [foldlM_nil_eq_ok.1 h]
      simp
    | cons block blocks ih =>
      intro continuations cs h
      obtain ⟨_, hstep, hrest⟩ := foldlM_cons_eq_ok.1 h
      obtain ⟨hblock, hall⟩ := calls_of_lowerBlock hstep
      obtain ⟨hcalls, hall'⟩ := ih _ _ hrest
      simp only [List.flatMap_cons, List.mem_append, or_imp, forall_and]
      refine ⟨fun call => ?_, hall, hall'⟩
      rw [hcalls, hblock, or_assoc]
      simp only [or_and_right, exists_or]
  obtain ⟨hcalls, hall⟩ := hblocks _ _ _ hcs
  exact ⟨fun call => (hcalls call).trans (or_iff_right (by simp)), hall⟩

theorem LowersTo.meaning {operation : StagedOperation} {call : CallTarget × Bool}
    (h : LowersTo module operation call) :
    (∀ id, call.1 = .function id ↔ operation.kind = "call.direct" ∧ operation.function = some id) ∧
      (call.2 = true ↔ operation.Suspends module.tables) := by
  obtain ⟨hcall, signature, htarget⟩ := h
  unfold callTarget at htarget
  split at htarget
  · next hkind =>
    simp only [bind_eq_ok, demand_eq_ok, pure_eq_ok] at htarget
    obtain ⟨id, hid, _, _, he⟩ := htarget
    obtain ⟨htarget, -, hsuspends⟩ := by simpa only [Prod.mk.injEq] using he
    rw [← htarget, ← hsuspends, hid]
    refine ⟨fun id' => by simp [hkind], ⟨(fun h => by cases h), ?_⟩⟩
    rintro ⟨_, _, _, _, ⟨hother, _⟩ | ⟨hother, _⟩⟩
    · exact absurd (hkind.symm.trans hother) (by decide)
    · exact absurd (hkind.symm.trans hother) (by decide)
  · next hdirect =>
    simp only [bind_eq_ok, demand_eq_ok] at htarget
    obtain ⟨capability, hcapability, name, hname, htarget⟩ := htarget
    unfold StagedOperation.Suspends
    simp only [hcapability, hname, Option.some.injEq, hdirect, false_and, iff_false]
    split at htarget
    · next hkind =>
      simp only [bind_eq_ok, demand_eq_ok, pure_eq_ok, Prod.mk.injEq] at htarget
      obtain ⟨host, hhost, htarget, -, hsuspends⟩ := htarget
      rw [← htarget, ← hsuspends]
      simp [hkind, hhost]
    · next hkind =>
      simp only [bind_eq_ok, demand_eq_ok, pure_eq_ok, Prod.mk.injEq] at htarget
      obtain ⟨link, hlink, htarget, -, hsuspends⟩ := htarget
      have hkind : operation.kind = "call.external" := by simpa [isCall, hdirect, hkind] using hcall
      rw [← htarget, ← hsuspends]
      simp [hkind, hlink]

theorem meaning_of_lowerFunction {g : Function} (h : lowerFunction module function = .ok g) :
    (∀ id, id ∈ g.callees ↔
      ∃ operation ∈ function.operations, operation.kind = "call.direct" ∧ operation.function = some id) ∧
    (g.continuations.any (·.transition.suspending) = true ↔
      ∃ operation ∈ function.operations, operation.Suspends module.tables) := by
  obtain ⟨hcalls, hall⟩ := calls_of_lowerFunction h
  constructor
  · intro id
    rw [mem_callees]
    constructor
    · rintro ⟨b, hb⟩
      obtain ⟨operation, hmem, hlowers⟩ := (hcalls _).1 hb
      exact ⟨operation, hmem, (hlowers.meaning.1 id).1 rfl⟩
    · rintro ⟨operation, hmem, hkind, hid⟩
      obtain ⟨⟨target, b⟩, hlowers⟩ := hall operation hmem (by simp [isCall, hkind])
      obtain rfl := (hlowers.meaning.1 id).2 ⟨hkind, hid⟩
      exact ⟨b, (hcalls _).2 ⟨operation, hmem, hlowers⟩⟩
  · rw [any_suspending]
    constructor
    · rintro ⟨target, htarget⟩
      obtain ⟨operation, hmem, hlowers⟩ := (hcalls _).1 htarget
      exact ⟨operation, hmem, hlowers.meaning.2.1 rfl⟩
    · rintro ⟨operation, hmem, hsuspends⟩
      have hcall : isCall operation = true := by
        obtain ⟨_, _, _, _, ⟨hkind, _⟩ | ⟨hkind, _⟩⟩ := hsuspends <;> simp [isCall, hkind]
      obtain ⟨⟨target, b⟩, hlowers⟩ := hall operation hmem hcall
      obtain rfl := hlowers.meaning.2.2 hsuspends
      exact ⟨target, (hcalls _).2 ⟨operation, hmem, hlowers⟩⟩

end Calls

/-! ### The marks -/

section Marks

variable {module : StagedModule} {graph : Graph} {rounds : ℕ}

theorem marks_of_fillCaptures {f g : Function} (h : f.fillCaptures rounds = .ok g) :
    g.id = f.id ∧ g.suspends = f.suspends ∧ g.framed = f.framed := by
  simp only [Function.fillCaptures, bind_eq_ok, pure_eq_ok] at h
  obtain ⟨_, _, _, _, _, _, _, _, _, _, rfl⟩ := h
  exact ⟨rfl, rfl, rfl⟩

/-- **The marks of a lowered graph**, said of the staged module. -/
theorem lower_marks (h : Graph.lower module rounds = .ok graph) (hchecked : module.checkedFunctions = []) :
    (∀ function ∈ module.functions, ∃ g ∈ graph.functions, g.id = function.id) ∧
    ∀ g ∈ graph.functions,
      (g.suspends = true ↔ ∃ id, Relation.ReflTransGen module.Calls g.id id ∧ module.Suspending id) ∧
      (g.framed = true ↔ ∃ id, ((∃ seed, Relation.ReflTransGen module.Calls id seed ∧ module.Suspending seed) ∨
        id ∈ callbackFunctions module.types) ∧ Relation.ReflTransGen module.Calls id g.id) := by
  simp only [Graph.lower, bind_eq_ok, pure_eq_ok, hchecked, List.append_nil] at h
  obtain ⟨lowered, hlowered, suspending, hsuspending, framed, hframed, functions, hfunctions, -, -, rfl⟩ := h
  have hsorted (f : Function) : f ∈ lowered.insertionSort (fun f g => f.id ≤ g.id) ↔ f ∈ lowered :=
    (List.perm_insertionSort _ _).mem_iff
  have hcalls (a b : FunctionId) : (a, b) ∈ (lowered.insertionSort fun f g => f.id ≤ g.id).flatMap
      (fun f => f.callees.map fun callee => (f.id, callee)) ↔ module.Calls a b := by
    simp only [List.mem_flatMap, List.mem_map, Prod.mk.injEq, hsorted]
    constructor
    · rintro ⟨f, hf, callee, hcallee, rfl, rfl⟩
      obtain ⟨function, hfunction, hlower⟩ := mem_of_collect hlowered hf
      exact ⟨function, hfunction, (lowered_of_lowerFunction hlower).1.symm,
        ((meaning_of_lowerFunction hlower).1 _).1 hcallee⟩
    · rintro ⟨function, hfunction, rfl, hcall⟩
      obtain ⟨f, hf, hlower⟩ := collect_of_mem hlowered hfunction
      exact ⟨f, hf, b, ((meaning_of_lowerFunction hlower).1 _).2 hcall, (lowered_of_lowerFunction hlower).1, rfl⟩
  have hseeds (id : FunctionId) : id ∈ Ascending.ofList (module.resumableRoots ++
      ((lowered.insertionSort fun f g => f.id ≤ g.id).filter fun f =>
        f.continuations.any (·.transition.suspending)).map (·.id)) ↔ module.Suspending id := by
    simp only [Ascending.mem_ofList, List.mem_append, List.mem_map, List.mem_filter, hsorted]
    refine or_congr_right ⟨?_, ?_⟩
    · rintro ⟨f, ⟨hf, hany⟩, rfl⟩
      obtain ⟨function, hfunction, hlower⟩ := mem_of_collect hlowered hf
      exact ⟨function, hfunction, (lowered_of_lowerFunction hlower).1.symm,
        (meaning_of_lowerFunction hlower).2.1 hany⟩
    · rintro ⟨function, hfunction, rfl, hany⟩
      obtain ⟨f, hf, hlower⟩ := collect_of_mem hlowered hfunction
      exact ⟨f, ⟨hf, (meaning_of_lowerFunction hlower).2.2 hany⟩, (lowered_of_lowerFunction hlower).1⟩
  let calls := (lowered.insertionSort fun f g => f.id ≤ g.id).flatMap
    fun f => f.callees.map fun callee => (f.id, callee)
  -- the callers are the neighbours of a function in the first search, its callees in the second
  have hcallers (a b : FunctionId) :
      b ∈ Neighbours.next (calls.foldl (fun edges call => Neighbours.add edges call.2 call.1) []) a ↔
        module.Calls b a := by
    rw [mem_next_foldl fun call => (call.2, call.1), ← hcalls]
    simp [Neighbours.next, Ascending.empty, calls]
  have hcallees (a b : FunctionId) :
      b ∈ Neighbours.next (calls.foldl (fun edges call => Neighbours.add edges call.1 call.2) []) a ↔
        module.Calls a b := by
    rw [mem_next_foldl fun call => call, ← hcalls]
    simp [Neighbours.next, Ascending.empty, calls]
  have hsuspends (id : FunctionId) : id ∈ suspending ↔
      ∃ seed, Relation.ReflTransGen module.Calls id seed ∧ module.Suspending seed := by
    rw [mem_closeReachable_start hsuspending]
    constructor
    · rintro ⟨seed, hseed, hlead⟩
      refine ⟨seed, ?_, (hseeds seed).1 hseed⟩
      exact Relation.reflTransGen_swap.1 (Relation.ReflTransGen.mono (fun a b => (hcallers a b).1) _ _ hlead)
    · rintro ⟨seed, hlead, hseed⟩
      refine ⟨seed, (hseeds seed).2 hseed, ?_⟩
      exact Relation.ReflTransGen.mono (fun a b => (hcallers a b).2) _ _ (Relation.reflTransGen_swap.2 hlead)
  have hframes (id : FunctionId) : id ∈ framed ↔
      ∃ start, (start ∈ suspending ∨ start ∈ callbackFunctions module.types) ∧
        Relation.ReflTransGen module.Calls start id := by
    rw [mem_closeReachable_start hframed]
    simp only [Ascending.mem_extend]
    refine exists_congr fun start => and_congr_right fun _ => ?_
    exact ⟨Relation.ReflTransGen.mono (fun a b => (hcallees a b).1) _ _,
      Relation.ReflTransGen.mono (fun a b => (hcallees a b).2) _ _⟩
  constructor
  · intro function hfunction
    obtain ⟨f, hf, hlower⟩ := collect_of_mem hlowered hfunction
    obtain ⟨g, hg, hfill⟩ := collect_of_mem hfunctions ((hsorted f).2 hf)
    exact ⟨g, hg, (marks_of_fillCaptures hfill).1.trans (lowered_of_lowerFunction hlower).1⟩
  · intro g hg
    obtain ⟨f, hf, hfill⟩ := mem_of_collect hfunctions hg
    obtain ⟨hid, hs, hr⟩ := marks_of_fillCaptures hfill
    change g.id = f.id at hid
    rw [hs, hr, Function.mark, decide_eq_true_iff, decide_eq_true_iff, hsuspends, hframes, hid]
    simp only [hsuspends, and_self]

end Marks

/-! ### The calls of a validated graph -/

section Validated

variable {graph : Graph} {tables : Tables}

/-- Whether a target may suspend: a function of the graph by its mark, a request by the tables. -/
def Graph.suspendsAt (graph : Graph) (tables : Tables) : CallTarget → Option Bool
  | .function id => (graph.functions.find? (·.id == id)).map (·.suspends)
  | .host capability operation => (tables.hostOperation capability operation).map (·.suspends)
  | .link unit name => (tables.developmentLink unit name).map (·.suspends)

/-- A call has the flag of its target, and a function that has a suspending call is marked. -/
theorem Graph.Validated.call_flag (hg : graph.Validated tables) {f : Function} (hf : f ∈ graph.functions)
    {target : CallTarget} {suspends : Bool} (h : (target, suspends) ∈ f.calls) :
    graph.suspendsAt tables target = some suspends ∧ (suspends = true → f.suspends = true) := by
  obtain ⟨c, hc, signature, arguments, next, ht⟩ := mem_calls.1 h
  obtain ⟨n, hn⟩ := List.getElem?_of_mem hf
  obtain ⟨-, contract, definitions, live, hvalidated⟩ := hg n f hn
  have hchecked := hvalidated.checked c hc
  simp only [Graph.validateContinuation, Graph.validateTransition, ht, bind_eq_ok, require_eq_ok] at hchecked
  obtain ⟨_, _, _, _, _, _, _, _, _, _, _, ⟨_, _, _, hsynchronous, _, _, _, _, _, _, _, htarget, _⟩, _⟩ := hchecked
  refine ⟨?_, fun hs => by simpa [hs] using hsynchronous⟩
  cases target with
  | function id =>
    simp only [Graph.validateTarget, bind_eq_ok, demand_eq_ok, require_eq_ok, Bool.and_eq_true, beq_iff_eq] at htarget
    obtain ⟨callee, hcallee, _, _, _, hsuspends⟩ := htarget
    rw [Graph.suspendsAt, hcallee, Option.map_some, hsuspends]
  | host capability operation =>
    simp only [Graph.validateTarget, bind_eq_ok, demand_eq_ok, require_eq_ok, Bool.and_eq_true, beq_iff_eq] at htarget
    obtain ⟨host, hhost, _, hsuspends⟩ := htarget
    rw [Graph.suspendsAt, hhost, Option.map_some, hsuspends]
  | link unit name =>
    simp only [Graph.validateTarget, bind_eq_ok, demand_eq_ok, require_eq_ok, Bool.and_eq_true, beq_iff_eq] at htarget
    obtain ⟨link, hlink, _, hsuspends⟩ := htarget
    rw [Graph.suspendsAt, hlink, Option.map_some, hsuspends]

theorem Graph.Validated.find_of_mem (hg : graph.Validated tables) {f : Function} (hf : f ∈ graph.functions) :
    graph.functions.find? (·.id == f.id) = some f := by
  obtain ⟨n, hn⟩ := List.getElem?_of_mem hf
  rw [hg.find_eq, (hg n f hn).1, hn]

/-- The one function has a call to the other. -/
def Graph.CalledBy (graph : Graph) (callee caller : FunctionId) : Prop :=
  ∃ f ∈ graph.functions, f.id = caller ∧ callee ∈ f.callees

def Graph.Marked (graph : Graph) (id : FunctionId) : Prop := ∃ f ∈ graph.functions, f.id = id ∧ f.suspends = true

/-- The mark of a function is that of its callers. -/
theorem Graph.Validated.marked_of_calledBy (hg : graph.Validated tables) {callee caller : FunctionId}
    (hcall : graph.CalledBy callee caller) (h : graph.Marked callee) : graph.Marked caller := by
  obtain ⟨f, hf, rfl, hcallee⟩ := hcall
  obtain ⟨g, hg', rfl, hmarked⟩ := h
  obtain ⟨b, hb⟩ := mem_callees.1 hcallee
  obtain ⟨hflag, hup⟩ := hg.call_flag hf hb
  rw [Graph.suspendsAt, hg.find_of_mem hg', Option.map_some, hmarked] at hflag
  exact ⟨f, hf, rfl, hup (Option.some.inj hflag).symm⟩

end Validated

/-! ### The stack of a run -/

section Stack

variable {V σ : Type} {graph : Graph}

/-- The functions of the activations on the stack, the innermost first. -/
def Machine.stack (m : Machine V) : List FunctionId :=
  match m.state with
  | .ready a => a.function :: m.callers.map (·.function)
  | .waiting d => d.function :: m.callers.map (·.function)
  | _ => m.callers.map (·.function)

/-- Each activation on the stack has been called by the one below it. -/
def Machine.Chained (graph : Graph) (m : Machine V) : Prop := m.stack.IsChain graph.CalledBy

def Machine.Requests (graph : Graph) (m : Machine V) (target : CallTarget) : Prop :=
  ∃ f ∈ graph.functions, m.stack.head? = some f.id ∧ ∃ suspends, (target, suspends) ∈ f.calls

def Turn.Chained (graph : Graph) : Turn V → Prop
  | .on m => m.Chained graph
  | .leave reply m =>
    m.Chained graph ∧ ∀ target arguments, reply = .ok (.request target arguments) → m.Requests graph target

/-- The states that polls, resumes and cancels reach. -/
inductive Runs [Values V] (graph : Graph) : Machine V → Prop
  | start {function : FunctionId} {arguments : List V} {m : Machine V} :
      Machine.new graph function arguments = .ok (.ok m) → Runs graph m
  | poll {σ : Type} {execute : Execute V σ} {m m' : Machine V} {quantum : ℕ} {s s' : σ}
      {reply : Except String (Observation V)} :
      Runs graph m → m.poll graph execute quantum s = .ok (reply, m', s') → Runs graph m'
  | resume {m m' : Machine V} {value : V} {reply : Except String Unit} :
      Runs graph m → m.resume graph value = .ok (reply, m') → Runs graph m'
  | cancel {m : Machine V} : Runs graph m → Runs graph Machine.cancel

theorem destination_function {a : Activation V} {edge : Edge} {d : Destination V}
    (h : graph.destination a edge = .ok d) : d.function = a.function := by
  simp only [Graph.destination, bind_eq_ok, pure_eq_ok] at h
  obtain ⟨_, _, _, _, _, _, _, _, rfl⟩ := h
  rfl

theorem arrive_function {d : Destination V} {result : Option V} {a : Activation V}
    (h : graph.arrive d result = .ok a) : a.function = d.function := by
  simp only [Graph.arrive, bind_eq_ok, pure_eq_ok] at h
  obtain ⟨_, _, _, _, _, _, rfl⟩ := h
  rfl

/-- A machine starts with one activation, of the function that is called. -/
theorem stack_new {function : FunctionId} {arguments : List V} {m : Machine V}
    (h : Machine.new graph function arguments = .ok (.ok m)) :
    ∃ a, m = ⟨.ready a, []⟩ ∧ a.function = function := by
  obtain ⟨f, first, -, -, -, rfl⟩ := Machine.of_new h
  exact ⟨_, rfl, rfl⟩

variable [Values V]

omit [Values V] in
theorem follow_chained {a : Activation V} {callers : List (Destination V)} {edge : Edge} {turn : Turn V}
    (h : graph.follow a callers edge = .ok turn)
    (hchain : (a.function :: callers.map (·.function)).IsChain graph.CalledBy) : turn.Chained graph := by
  simp only [Graph.follow, bind_eq_ok, pure_eq_ok] at h
  obtain ⟨d, hd, a', ha', rfl⟩ := h
  change (a'.function :: callers.map (·.function)).IsChain graph.CalledBy
  rwa [arrive_function ha', destination_function hd]

/-- **The transition of a continuation keeps the stack chained.** -/
theorem transfer_chained {a : Activation V} {callers : List (Destination V)} {f : Function} {c : Continuation}
    (hf : f ∈ graph.functions) (hid : f.id = a.function) (hc : c ∈ f.continuations) {turn : Turn V}
    (h : graph.transfer a callers c.transition = .ok turn)
    (hchain : (a.function :: callers.map (·.function)).IsChain graph.CalledBy) : turn.Chained graph := by
  cases ht : c.transition with
  | jump edge =>
    rw [ht] at h
    exact follow_chained h hchain
  | branch condition consequent alternate =>
    simp only [ht, Graph.transfer, bind_eq_ok] at h
    obtain ⟨value, _, h⟩ := h
    split at h
    · exact follow_chained h hchain
    · cases h
      exact ⟨hchain.tail, fun _ _ he => by cases he⟩
  | switch selector cases fallback =>
    simp only [ht, Graph.transfer, bind_eq_ok] at h
    obtain ⟨edge, _, h⟩ := h
    exact follow_chained h hchain
  | call target signature arguments next suspends =>
    have hcall : (target, suspends) ∈ f.calls := mem_calls.2 ⟨c, hc, signature, arguments, next, ht⟩
    simp only [ht, Graph.transfer, bind_eq_ok] at h
    obtain ⟨xs, _, d, hd, h⟩ := h
    have hfunction := destination_function hd
    have hwaiting : (Machine.mk (.waiting d) callers).Chained graph := by
      change (d.function :: callers.map (·.function)).IsChain graph.CalledBy
      rwa [hfunction]
    have hrequest : (Machine.mk (.waiting d) callers).Requests graph target :=
      ⟨f, hf, congrArg some (hfunction.trans hid.symm), suspends, hcall⟩
    cases target with
    | function callee =>
      obtain ⟨entered, hnew, h⟩ := bind_eq_ok.1 h
      split at h
      · next m =>
        cases h
        obtain ⟨a', rfl, hcallee⟩ := stack_new hnew
        change (a'.function :: d.function :: callers.map (·.function)).IsChain graph.CalledBy
        rw [hcallee, hfunction, List.isChain_cons_cons]
        exact ⟨⟨f, hf, hid, mem_callees.2 ⟨suspends, hcall⟩⟩, hchain⟩
      · cases h
        exact ⟨hchain.tail, fun _ _ he => by cases he⟩
    | host capability operation | link unit name =>
      cases h
      exact ⟨hwaiting, fun target arguments he => by cases he; exact hrequest⟩
  | «return» value =>
    simp only [ht, Graph.transfer, bind_eq_ok] at h
    obtain ⟨x, _, h⟩ := h
    cases callers with
    | nil =>
      cases h
      exact .nil
    | cons d callers =>
      simp only [bind_eq_ok, pure_eq_ok] at h
      obtain ⟨a', ha', rfl⟩ := h
      change (a'.function :: callers.map (·.function)).IsChain graph.CalledBy
      rw [arrive_function ha']
      exact hchain.tail
  | trap message =>
    rw [ht] at h
    cases h
    exact ⟨.nil, fun _ _ he => by cases he⟩

/-- **A turn keeps the stack chained.** -/
theorem turn_chained {execute : Execute V σ} {m : Machine V} {s s' : σ} {turn : Turn V}
    (h : m.turn graph execute s = .ok (turn, s')) (hchain : m.Chained graph) : turn.Chained graph := by
  obtain ⟨state, callers⟩ := m
  cases state with
  | ready a =>
    simp only [Machine.turn, Graph.find, Function.fetch, bind_eq_ok, demand_eq_ok] at h
    obtain ⟨f, hfind, c, hc, ⟨outcome, s''⟩, _, h⟩ := h
    have hid : f.id = a.function := by simpa using List.find?_some hfind
    cases outcome with
    | ok values =>
      simp only [bind_eq_ok, pure_eq_ok] at h
      obtain ⟨turn', hturn, he⟩ := h
      cases he
      exact transfer_chained (a := { a with values }) (List.mem_of_find?_eq_some hfind) hid (List.mem_of_getElem? hc)
        hturn hchain
    | error message =>
      cases h
      exact ⟨.nil, nofun⟩
  | waiting d | returned value | trapped message | running =>
    cases h
    exact ⟨hchain, nofun⟩

theorem poll_chained {execute : Execute V σ} {quantum : ℕ} {m m' : Machine V} {s s' : σ}
    {reply : Except String (Observation V)} (h : m.poll graph execute quantum s = .ok (reply, m', s'))
    (hchain : m.Chained graph) :
    m'.Chained graph ∧ ∀ target arguments, reply = .ok (.request target arguments) → m'.Requests graph target := by
  induction quantum generalizing m s with
  | zero =>
    cases h
    exact ⟨hchain, nofun⟩
  | succ quantum ih =>
    obtain ⟨⟨turn, s''⟩, hturn, h⟩ := bind_eq_ok.1 h
    have hkept := turn_chained hturn hchain
    cases turn with
    | on m'' => exact ih h hkept
    | leave reply' m'' =>
      cases h
      exact hkept

/-- **On the stack of a run each activation has been called by the one below it.** -/
theorem Runs.chained {m : Machine V} (h : Runs graph m) : m.Chained graph := by
  induction h with
  | start hnew =>
    obtain ⟨a, rfl, _⟩ := stack_new hnew
    exact .singleton _
  | poll _ hpoll ih => exact (poll_chained hpoll ih).1
  | @resume m m' value reply _ hresume ih =>
    obtain ⟨state, callers⟩ := m
    cases state with
    | waiting d =>
      simp only [Machine.resume, bind_eq_ok, pure_eq_ok] at hresume
      obtain ⟨a, ha, he⟩ := hresume
      cases he
      change (a.function :: callers.map (·.function)).IsChain graph.CalledBy
      rw [arrive_function ha]
      exact ih
    | _ =>
      cases hresume
      exact ih
  | cancel _ _ => exact .nil

end Stack

/-- **The flags are the least sound ones.**  In the graph that a module without checked functions is lowered to, a
function is marked as suspending exactly when direct calls lead from it to a resumable root or to a function with a
host call or a link call that may suspend; every call has the flag of its target; the functions with frames are those
that direct calls lead to from a suspending function or the target of a callback; and whenever a run issues a request
that may suspend, all functions with an activation on the stack are marked. -/
theorem flags_are_least (module : StagedModule) (hchecked : module.checkedFunctions = []) (rounds : ℕ) (graph : Graph)
    (h : Graph.lower module rounds = .ok graph) :
    (∀ f ∈ graph.functions,
      (f.suspends = true ↔ ∃ id, Relation.ReflTransGen module.Calls f.id id ∧ module.Suspending id) ∧
      (f.framed = true ↔ ∃ g ∈ graph.functions, (g.suspends = true ∨ g.id ∈ callbackFunctions module.types) ∧
        Relation.ReflTransGen module.Calls g.id f.id) ∧
      ∀ target suspends, (target, suspends) ∈ f.calls → graph.suspendsAt module.tables target = some suspends) ∧
    ∀ (V σ : Type) [Values V] (execute : Execute V σ) (m m' : Machine V) (quantum : ℕ) (s s' : σ)
      (target : CallTarget) (arguments : List V),
      Runs graph m → m.poll graph execute quantum s = .ok (.ok (.request target arguments), m', s') →
        graph.suspendsAt module.tables target = some true →
        ∀ f ∈ graph.functions, f.id ∈ m'.stack → f.suspends = true := by
  obtain ⟨hg, -⟩ := Graph.origin h
  obtain ⟨hpresent, hmarks⟩ := lower_marks h hchecked
  refine ⟨fun f hf => ⟨(hmarks f hf).1, ?_, fun target suspends hcall => (hg.call_flag hf hcall).1⟩, ?_⟩
  · rw [(hmarks f hf).2]
    constructor
    · rintro ⟨id, hstart, hpath⟩
      -- the start of the path is a function of the module, since it calls one or is the function itself
      obtain ⟨g, hg', rfl⟩ : ∃ g ∈ graph.functions, g.id = id := by
        rcases hpath.cases_head with rfl | ⟨_, ⟨function, hfunction, rfl, _⟩, _⟩
        · exact ⟨f, hf, rfl⟩
        · exact hpresent function hfunction
      exact ⟨g, hg', hstart.imp_left (hmarks g hg').1.2, hpath⟩
    · rintro ⟨g, hg', hstart, hpath⟩
      exact ⟨g.id, hstart.imp_left (hmarks g hg').1.1, hpath⟩
  · intro V σ _ execute m m' quantum s s' target arguments hruns hpoll htarget f hf hstack
    obtain ⟨hchain, hrequest⟩ := poll_chained hpoll hruns.chained
    obtain ⟨g, hg', hhead, suspends, hcall⟩ := hrequest target arguments rfl
    obtain ⟨hflag, hup⟩ := hg.call_flag hg' hcall
    have hmarked : graph.Marked g.id := ⟨g, hg', rfl, hup (Option.some.inj (hflag.symm.trans htarget))⟩
    -- the mark goes down the stack, from each activation to the one that has called it
    have hall : ∀ (stack : List FunctionId) (id : FunctionId), stack.IsChain graph.CalledBy → stack.head? = some id →
        graph.Marked id → ∀ id' ∈ stack, graph.Marked id' := by
      intro stack
      induction stack with
      | nil => nofun
      | cons first stack ih =>
        intro id hchain hhead hmarked
        cases hhead
        refine List.forall_mem_cons.2 ⟨hmarked, ?_⟩
        cases stack with
        | nil => nofun
        | cons second stack =>
          obtain ⟨hcalled, hrest⟩ := List.isChain_cons_cons.1 hchain
          exact ih second hrest rfl (hg.marked_of_calledBy hcalled hmarked)
    obtain ⟨f', hf', hid, hsuspends⟩ := hall m'.stack g.id hchain hhead hmarked f.id hstack
    have hsame := (hg.find_of_mem hf').symm.trans (hid ▸ hg.find_of_mem hf)
    exact Option.some.inj hsame ▸ hsuspends

/-- Calls a function that asks the host. -/
def stagedRelay : StagedModule where
  types := [.text]
  signatures := [⟨[0], 0, ["Console"]⟩]
  staticStores := []
  functions := [
    { id := 0, name := "relay", signature := 0, reuse := none, entryBlock := 0, span := ⟨"relay.blot", 0, 1⟩,
      blocks := [
        { id := 0, parameters := [⟨0, 0, "plain", ⟨"relay.blot", 0, 1⟩⟩],
          operations := [
            { kind := "call.direct", result := 1, typeId := 0, operands := [0], ownership := "plain",
              span := ⟨"relay.blot", 0, 1⟩, function := some 1 }],
          terminator := .return 1 ⟨"relay.blot", 0, 1⟩ }] },
    { id := 1, name := "ask", signature := 0, reuse := none, entryBlock := 0, span := ⟨"relay.blot", 0, 1⟩,
      blocks := [
        { id := 0, parameters := [⟨0, 0, "plain", ⟨"relay.blot", 0, 1⟩⟩],
          operations := [
            { kind := "host.call", result := 1, typeId := 0, operands := [0], ownership := "plain",
              span := ⟨"relay.blot", 0, 1⟩, capability := some "Console", operation := some "print" }],
          terminator := .return 1 ⟨"relay.blot", 0, 1⟩ }] }]
  checkedFunctions := []
  capabilities := [⟨"Console", [⟨"print", 0, true⟩]⟩]
  links := []
  resumableRoots := []

theorem flags_are_least_relay : ∃ graph, Graph.lower stagedRelay 8 = .ok graph ∧ graph.functions.length = 2 ∧
    ∀ f ∈ graph.functions, f.suspends = true ↔
      ∃ id, Relation.ReflTransGen stagedRelay.Calls f.id id ∧ stagedRelay.Suspending id := by
  obtain ⟨graph, hlower, hlength⟩ : ∃ graph, Graph.lower stagedRelay 8 = .ok graph ∧ graph.functions.length = 2 := by
    refine ⟨⟨_⟩, rfl, by decide⟩
  exact ⟨graph, hlower, hlength, fun f hf => ((flags_are_least stagedRelay rfl 8 graph hlower).1 f hf).1⟩

end Blot.Suspension
