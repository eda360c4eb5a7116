import Blot.Eval.FreeNames
import Blot.Support.DepthFirst

/-!
# Which closures of a recursive group recur (`certify_recursive_components`)

The closures of a group make a graph: each is linked to the members that are free in it.  Two passes find its strongly
connected components, the first over the links and the second over their reverse, both with stacks of their own; a
closure is certified when its component has another member or it is linked to itself.
-/

namespace Blot.Typecheck

open Blot.Support.DepthFirst

structure GroupClosure where
  name : String
  parameter : PatternId
  body : ExpressionId

/-! ### The graph -/

/-- `positions`: a name that occurs again hides the earlier one. -/
def positionOf (closures : List GroupClosure) (name : String) : Option ℕ :=
  ((closures.zipIdx.filter fun closure => closure.1.name = name).getLast?).map Prod.snd

def targets (graph : List (List ℕ)) (node : ℕ) : List ℕ := graph.getD node []

/-- The loop of `certify_recursive_components` that fills the graph, over what `closure_free_names` gives. -/
def groupGraph {ε : Type} (freeNames : PatternId → ExpressionId → Except ε (List String))
    (closures : List GroupClosure) : Except ε (List (List ℕ)) :=
  closures.mapM fun closure => (freeNames closure.parameter closure.body).map (·.filterMap (positionOf closures))

def reverseGraph (graph : List (List ℕ)) : List (List ℕ) :=
  graph.zipIdx.foldl (fun reverse (targets, source) =>
    targets.foldl (fun reverse target => reverse.modify target (· ++ [source])) reverse)
    (List.replicate graph.length [])

/-! ### The first pass -/

/-- The loop of `finish_component`; a frame has a node and which of its targets is next. -/
def finishLoop (graph : List (List ℕ)) : ℕ → List (ℕ × ℕ) → Marks ℕ → Option (Marks ℕ)
  | _, [], m => some m
  | 0, _ :: _, _ => none
  | rounds + 1, (node, nextTarget) :: pending, m =>
    match (targets graph node)[nextTarget]? with
    | some target =>
      if target ∈ m.visited then finishLoop graph rounds ((node, nextTarget + 1) :: pending) m
      else finishLoop graph rounds ((target, 0) :: (node, nextTarget + 1) :: pending) ⟨target :: m.visited, m.order⟩
    | none => finishLoop graph rounds pending ⟨m.visited, node :: m.order⟩

/-- Rounds enough for the first pass: one for each edge and one for each node. -/
def finishRounds (graph : List (List ℕ)) : ℕ := (graph.map fun targets => targets.length + 1).sum

def finishComponent (graph : List (List ℕ)) (node : ℕ) (m : Marks ℕ) : Option (Marks ℕ) :=
  if node ∈ m.visited then some m
  else finishLoop graph (finishRounds graph) [(node, 0)] ⟨node :: m.visited, m.order⟩

/-- The first pass of `certify_recursive_components`. -/
def finishGraph (graph : List (List ℕ)) : List ℕ → Marks ℕ → Option (Marks ℕ)
  | [], m => some m
  | node :: nodes, m =>
    match finishComponent graph node m with
    | none => none
    | some m => finishGraph graph nodes m

/-! ### The second pass -/

/-- The inner loop of `collect_component`: the sources that are not marked are marked and put on the stack. -/
def pushSources : List ℕ → List ℕ → List ℕ → List ℕ × List ℕ
  | [], pending, visited => (pending, visited)
  | source :: sources, pending, visited =>
    if source ∈ visited then pushSources sources pending visited
    else pushSources sources (source :: pending) (source :: visited)

/-- The loop of `collect_component`; it gives the component and the marks. -/
def collectLoop (reverse : List (List ℕ)) : ℕ → List ℕ → List ℕ → List ℕ → Option (List ℕ × List ℕ)
  | _, [], visited, component => some (component, visited)
  | 0, _ :: _, _, _ => none
  | rounds + 1, node :: pending, visited, component =>
    let (pending, visited) := pushSources (targets reverse node) pending visited
    collectLoop reverse rounds pending visited (component ++ [node])

/-- `collect_component`, on an empty component -/
def collectComponent (reverse : List (List ℕ)) (node : ℕ) (visited : List ℕ) : Option (List ℕ × List ℕ) :=
  if node ∈ visited then some ([], visited) else collectLoop reverse reverse.length [node] (node :: visited) []

def insertBodies (path : String) (closures : List GroupClosure) (component : List ℕ)
    (bodies : List (String × ExpressionId)) : List (String × ExpressionId) :=
  component.foldl (fun bodies member =>
    match closures[member]? with
    | some closure => bodies.insert (path, closure.body)
    | none => bodies) bodies

def certifyComponent (path : String) (closures : List GroupClosure) (graph : List (List ℕ)) (node : ℕ)
    (component : List ℕ) (bodies : List (String × ExpressionId)) : List (String × ExpressionId) :=
  if 1 < component.length ∨ node ∈ targets graph node then insertBodies path closures component bodies else bodies

/-- The second pass of `certify_recursive_components`, over the order from its end. -/
def certifyLoop (path : String) (closures : List GroupClosure) (graph reverse : List (List ℕ)) :
    List ℕ → List ℕ → List (String × ExpressionId) → Option (List (String × ExpressionId))
  | [], _, bodies => some bodies
  | node :: order, visited, bodies =>
    if node ∈ visited then certifyLoop path closures graph reverse order visited bodies
    else
      match collectComponent reverse node visited with
      | none => none
      | some (component, visited) =>
        certifyLoop path closures graph reverse order visited
          (certifyComponent path closures graph node component bodies)

def certifyGraph (path : String) (closures : List GroupClosure) (graph : List (List ℕ))
    (bodies : List (String × ExpressionId)) : Option (List (String × ExpressionId)) :=
  match finishGraph graph (List.range graph.length) ⟨[], []⟩ with
  | none => none
  | some m => certifyLoop path closures graph (reverseGraph graph) m.order [] bodies

/-- `certify_recursive_components`; nothing when the rounds are used up -/
def certifyRecursiveComponents (modules : String → Option Module) (depth : ℕ) (path : String)
    (closures : List GroupClosure) (recursiveClosureBodies : List (String × ExpressionId)) :
    Option (Except Eval.Diagnostic (List (String × ExpressionId))) :=
  match groupGraph (fun parameter body => Eval.closureFreeNames modules depth path parameter body none) closures with
  | .error e => some (.error e)
  | .ok graph => (certifyGraph path closures graph recursiveClosureBodies).map .ok

/-- The components that the second pass collects, each with the node that it starts at. -/
def collected (reverse : List (List ℕ)) : List ℕ → List ℕ → Option (List (ℕ × List ℕ))
  | [], _ => some []
  | node :: order, visited =>
    if node ∈ visited then collected reverse order visited
    else
      match collectComponent reverse node visited with
      | none => none
      | some (component, visited) => (collected reverse order visited).map ((node, component) :: ·)

/-! ### The first pass searches depth first -/

section FirstPass

variable {graph : List (List ℕ)}

def Inside (graph : List (List ℕ)) : Prop := ∀ node, ∀ target ∈ targets graph node, target < graph.length

/-- What is left to do for the frames of a stack. -/
inductive Unwinds (graph : List (List ℕ)) : Marks ℕ → List (ℕ × ℕ) → Marks ℕ → Prop
  | done (m : Marks ℕ) : Unwinds graph m [] m
  | frame {m inner m' : Marks ℕ} {node nextTarget : ℕ} {pending : List (ℕ × ℕ)}
      (h : Explores (targets graph) m ((targets graph node).drop nextTarget) inner)
      (rest : Unwinds graph ⟨inner.visited, node :: inner.order⟩ pending m') :
      Unwinds graph m ((node, nextTarget) :: pending) m'

theorem finishLoop_unwinds : ∀ {rounds : ℕ} {pending : List (ℕ × ℕ)} {m m' : Marks ℕ},
    finishLoop graph rounds pending m = some m' → Unwinds graph m pending m'
  | _, [], m, m', h => by
    rw [finishLoop] at h
    cases h
    exact .done m
  | 0, _ :: _, _, _, h => nomatch h
  | rounds + 1, (node, nextTarget) :: pending, m, m', h => by
    rw [finishLoop] at h
    cases htarget : (targets graph node)[nextTarget]? with
    | none =>
      rw [htarget] at h
      have hdrop : (targets graph node).drop nextTarget = [] :=
        List.drop_eq_nil_of_le (List.getElem?_eq_none_iff.mp htarget)
      exact .frame (by rw [hdrop]; exact .done m) (finishLoop_unwinds h)
    | some target =>
      rw [htarget] at h
      dsimp only at h
      have hdrop := drop_of_some htarget
      split at h
      · next hvisited =>
        cases finishLoop_unwinds h with
        | frame hrest hpending => exact .frame (by rw [hdrop]; exact .skip hvisited hrest) hpending
      · next hvisited =>
        cases finishLoop_unwinds h with
        | frame htargets hpending =>
          cases hpending with
          | frame hrest hpending =>
            exact .frame (by rw [hdrop]; exact .visit hvisited (by simpa using htargets) hrest) hpending

theorem finishComponent_explores {node : ℕ} {m m' : Marks ℕ} (h : finishComponent graph node m = some m') :
    Explores (targets graph) m [node] m' := by
  rw [finishComponent] at h
  split at h
  · next hvisited =>
    cases h
    exact .skip hvisited (.done m)
  · next hvisited =>
    cases finishLoop_unwinds h with
    | frame htargets hpending =>
      cases hpending
      exact .visit hvisited (by simpa using htargets) (.done _)

/-- **The first pass searches depth first.** -/
theorem finishGraph_explores : ∀ {nodes : List ℕ} {m m' : Marks ℕ}, finishGraph graph nodes m = some m' →
    Explores (targets graph) m nodes m'
  | [], m, m', h => by
    cases h
    exact .done m
  | node :: nodes, m, m', h => by
    rw [finishGraph] at h
    split at h
    · cases h
    · next m₁ hfinish => exact (finishComponent_explores hfinish).append (finishGraph_explores h)

/-- The nodes that are in a list. -/
def among (visited : List ℕ) (node : ℕ) : Bool := decide (node ∈ visited)

/-- Marking a node of a graph takes its cost away. -/
theorem weight_among (cost : ℕ → ℕ) {count node : ℕ} {visited : List ℕ} (hnode : node < count)
    (hnew : node ∉ visited) :
    weight cost (List.range count) (among (node :: visited)) + cost node ≤
      weight cost (List.range count) (among visited) := by
  refine weight_mark cost (fun v hv => ?_) (List.mem_range.mpr hnode) (decide_eq_false hnew)
    (decide_eq_true List.mem_cons_self)
  exact decide_eq_true (List.mem_cons_of_mem _ (of_decide_eq_true hv))

theorem weight_start (cost : ℕ → ℕ) (count : ℕ) (visited : List ℕ) :
    weight cost (List.range count) (among visited) ≤ ((List.range count).map cost).sum := by
  have hle : weight cost (List.range count) (among visited) ≤ weight cost (List.range count) (among []) :=
    weight_le cost _ fun v hv => nomatch of_decide_eq_true hv
  refine Nat.le_trans hle (Nat.le_of_eq ?_)
  simp [weight, among]

theorem finishRounds_eq : ((List.range graph.length).map fun node => (targets graph node).length + 1).sum =
    finishRounds graph := by
  unfold finishRounds
  congr 1
  refine List.ext_getElem (by simp) fun i hi hi' => ?_
  rw [List.length_map] at hi'
  simp [targets, List.getElem?_eq_getElem hi']

/-- **The rounds are enough.** -/
theorem finishLoop_returns (hinside : Inside graph) : ∀ {rounds : ℕ} {pending : List (ℕ × ℕ)} {m : Marks ℕ},
    weight (fun node => (targets graph node).length + 1) (List.range graph.length) (among m.visited) +
      stackRounds (targets graph) pending ≤ rounds → ∃ m', finishLoop graph rounds pending m = some m'
  | _, [], m, _ => ⟨m, by rw [finishLoop]⟩
  | 0, (node, nextTarget) :: pending, m, h => by
    simp only [stackRounds, List.map_cons, List.sum_cons] at h
    omega
  | rounds + 1, (node, nextTarget) :: pending, m, h => by
    rw [finishLoop]
    simp only [stackRounds, List.map_cons, List.sum_cons] at h
    cases htarget : (targets graph node)[nextTarget]? with
    | none =>
      refine finishLoop_returns hinside ?_
      simp only [stackRounds]
      omega
    | some target =>
      dsimp only
      have hdrop := congrArg List.length (drop_of_some htarget)
      rw [List.length_cons] at hdrop
      split
      · refine finishLoop_returns hinside ?_
        simp only [stackRounds, List.map_cons, List.sum_cons]
        omega
      · next hvisited =>
        refine finishLoop_returns hinside ?_
        have hweight := weight_among (fun node => (targets graph node).length + 1)
          (hinside node target (List.mem_of_getElem? htarget)) hvisited
        simp only [stackRounds, List.map_cons, List.sum_cons, List.drop_zero]
        omega

theorem finishComponent_returns (hinside : Inside graph) {node : ℕ} (hnode : node < graph.length) (m : Marks ℕ) :
    ∃ m', finishComponent graph node m = some m' := by
  rw [finishComponent]
  split
  · exact ⟨m, rfl⟩
  · next hvisited =>
    refine finishLoop_returns hinside ?_
    have hweight := weight_among (fun node => (targets graph node).length + 1) hnode hvisited
    have hstart := weight_start (fun node => (targets graph node).length + 1) graph.length m.visited
    rw [finishRounds_eq] at hstart
    simp only [stackRounds, List.map_cons, List.map_nil, List.sum_cons, List.sum_nil, List.drop_zero]
    omega

theorem finishGraph_returns (hinside : Inside graph) : ∀ {nodes : List ℕ}, (∀ node ∈ nodes, node < graph.length) →
    ∀ m : Marks ℕ, ∃ m', finishGraph graph nodes m = some m'
  | [], _, m => ⟨m, rfl⟩
  | node :: nodes, hnodes, m => by
    obtain ⟨m₁, hfinish⟩ := finishComponent_returns hinside (hnodes node List.mem_cons_self) m
    rw [finishGraph, hfinish]
    exact finishGraph_returns hinside (fun n hn => hnodes n (List.mem_cons_of_mem _ hn)) m₁

end FirstPass

/-! ### The second pass collects what leads to a node -/

section SecondPass

variable {graph reverse : List (List ℕ)}

theorem targets_modify (reverse : List (List ℕ)) (target source node : ℕ) (htarget : target < reverse.length) :
    targets (reverse.modify target (· ++ [source])) node =
      targets reverse node ++ if target = node then [source] else [] := by
  simp only [targets, List.getD_eq_getElem?_getD, List.getElem?_modify]
  by_cases hnode : target = node
  · subst hnode
    simp [List.getElem?_eq_getElem htarget]
  · simp [hnode]

theorem mem_reverse_row (source : ℕ) : ∀ (row : List ℕ) (reverse : List (List ℕ)),
    (∀ target ∈ row, target < reverse.length) → ∀ node x,
    (x ∈ targets (row.foldl (fun reverse target => reverse.modify target (· ++ [source])) reverse) node ↔
      x ∈ targets reverse node ∨ x = source ∧ node ∈ row) ∧
    (row.foldl (fun reverse target => reverse.modify target (· ++ [source])) reverse).length = reverse.length
  | [], _, _, node, x => ⟨by simp, rfl⟩
  | target :: row, reverse, hrow, node, x => by
    have hlength : (reverse.modify target (· ++ [source])).length = reverse.length := List.length_modify ..
    obtain ⟨hmem, hkept⟩ := mem_reverse_row source row (reverse.modify target (· ++ [source]))
      (fun t ht => hlength ▸ hrow t (List.mem_cons_of_mem _ ht)) node x
    refine ⟨hmem.trans ?_, hkept.trans hlength⟩
    rw [targets_modify reverse target source node (hrow target List.mem_cons_self), List.mem_append]
    by_cases hnode : target = node
    · subst hnode
      simp
      tauto
    · simp [hnode, Ne.symm hnode]

/-- **The reverse graph** links a node to the nodes that are linked to it. -/
theorem mem_reverseGraph (hinside : Inside graph) (node source : ℕ) :
    (source ∈ targets (reverseGraph graph) node ↔ node ∈ targets graph source) ∧
      (reverseGraph graph).length = graph.length := by
  have hrows : ∀ (rows : List (List ℕ)) (start : ℕ) (reverse : List (List ℕ)),
      (∀ row ∈ rows, ∀ target ∈ row, target < reverse.length) →
      (source ∈ targets ((rows.zipIdx start).foldl (fun reverse (targets, source) =>
        targets.foldl (fun reverse target => reverse.modify target (· ++ [source])) reverse) reverse) node ↔
        source ∈ targets reverse node ∨ start ≤ source ∧ node ∈ targets rows (source - start)) ∧
      ((rows.zipIdx start).foldl (fun reverse (targets, source) =>
        targets.foldl (fun reverse target => reverse.modify target (· ++ [source])) reverse) reverse).length =
        reverse.length := by
    intro rows
    induction rows with
    | nil => exact fun start reverse _ => ⟨by simp [targets], rfl⟩
    | cons row rows ih =>
      intro start reverse hin
      obtain ⟨hrow, hlength⟩ := mem_reverse_row start row reverse (hin row List.mem_cons_self) node source
      obtain ⟨hmem, hkept⟩ := ih (start + 1) _ fun r hr t ht => hlength ▸ hin r (List.mem_cons_of_mem _ hr) t ht
      refine ⟨hmem.trans ?_, hkept.trans hlength⟩
      rw [hrow, or_assoc]
      refine or_congr_right ?_
      rcases Nat.lt_trichotomy source start with hlt | rfl | hgt
      · constructor
        · rintro (⟨rfl, -⟩ | ⟨hle, -⟩)
          · omega
          · omega
        · rintro ⟨hle, -⟩
          omega
      · simp [targets]
      · obtain ⟨k, rfl⟩ : ∃ k, source = start + 1 + k := ⟨source - (start + 1), by omega⟩
        have hshift : start + 1 + k - start = k + 1 := by omega
        simp only [Nat.add_sub_cancel_left, hshift, targets, List.getD_cons_succ]
        constructor
        · rintro (⟨heq, -⟩ | ⟨-, hmem⟩)
          · omega
          · exact ⟨by omega, hmem⟩
        · rintro ⟨-, hmem⟩
          exact .inr ⟨by omega, hmem⟩
  obtain ⟨hmem, hlength⟩ := hrows graph 0 (List.replicate graph.length []) fun row hrow target htarget => by
    obtain ⟨i, hi, rfl⟩ := List.getElem_of_mem hrow
    rw [List.length_replicate]
    refine hinside i target ?_
    rw [targets, List.getD_eq_getElem?_getD, List.getElem?_eq_getElem hi]
    exact htarget
  refine ⟨?_, hlength.trans List.length_replicate⟩
  unfold reverseGraph
  rw [hmem]
  have hempty : targets (List.replicate graph.length []) node = [] := by
    simp only [targets, List.getD_eq_getElem?_getD, List.getElem?_replicate]
    split
    · rfl
    · rfl
  rw [hempty]
  simp

/-- The nodes that `pushSources` puts on the stack are those it marks. -/
theorem pushSources_eq : ∀ sources pending visited : List ℕ, ∃ new,
    pushSources sources pending visited = (new ++ pending, new ++ visited) ∧ new.Nodup ∧
      (∀ v ∈ new, v ∈ sources ∧ v ∉ visited) ∧ ∀ v ∈ sources, v ∈ new ++ visited
  | [], _, _ => ⟨[], rfl, List.nodup_nil, nofun, nofun⟩
  | source :: sources, pending, visited => by
    by_cases hvisited : source ∈ visited
    · obtain ⟨new, heq, hnodup, hnew, hall⟩ := pushSources_eq sources pending visited
      refine ⟨new, ?_, hnodup, fun v hv => ⟨List.mem_cons_of_mem _ (hnew v hv).1, (hnew v hv).2⟩, fun v hv => ?_⟩
      · rw [pushSources, if_pos hvisited, heq]
      · rcases List.mem_cons.mp hv with rfl | hv
        · exact List.mem_append_right _ hvisited
        · exact hall v hv
    · obtain ⟨new, heq, hnodup, hnew, hall⟩ :=
        pushSources_eq sources (source :: pending) (source :: visited)
      refine ⟨new ++ [source], ?_, ?_, fun v hv => ?_, fun v hv => ?_⟩
      · rw [pushSources, if_neg hvisited, heq, List.append_assoc, List.append_assoc, List.singleton_append,
          List.singleton_append]
      · refine List.nodup_append.mpr ⟨hnodup, List.nodup_singleton _, fun v hv w hw hsame => ?_⟩
        rw [hsame, List.mem_singleton.mp hw] at hv
        exact (hnew source hv).2 List.mem_cons_self
      · rcases List.mem_append.mp hv with hv | hv
        · exact ⟨List.mem_cons_of_mem _ (hnew v hv).1, fun h => (hnew v hv).2 (List.mem_cons_of_mem _ h)⟩
        · obtain rfl := List.mem_singleton.mp hv
          exact ⟨List.mem_cons_self, hvisited⟩
      · rw [List.append_assoc, List.singleton_append]
        rcases List.mem_cons.mp hv with rfl | hv
        · exact List.mem_append_right _ List.mem_cons_self
        · exact hall v hv

/-- What the loop of `collect_component` keeps, from the node `r` on. -/
structure Collecting (graph : List (List ℕ)) (taken : List ℕ) (r : ℕ) (pending visited component : List ℕ) : Prop where
  marked : ∀ v, v ∈ visited ↔ v ∈ taken ∨ v ∈ component ∨ v ∈ pending
  nodup : (component ++ pending).Nodup
  leads : ∀ v ∈ component ++ pending, v ∉ taken ∧ LeadsPast (targets graph) taken v r
  met : ∀ v ∈ component, ∀ source, v ∈ targets graph source → source ∈ visited
  starts : r ∈ component ++ pending

theorem Collecting.step (hreverse : ∀ node source, source ∈ targets reverse node ↔ node ∈ targets graph source)
    {taken pending visited component new : List ℕ} {r node : ℕ}
    (h : Collecting graph taken r (node :: pending) visited component) (hnodup : new.Nodup)
    (hnew : ∀ v ∈ new, v ∈ targets reverse node ∧ v ∉ visited)
    (hall : ∀ v ∈ targets reverse node, v ∈ new ++ visited) :
    Collecting graph taken r (new ++ pending) (new ++ visited) (component ++ [node]) where
  marked v := by
    have hv := h.marked v
    simp only [List.mem_append, List.mem_cons, List.not_mem_nil, or_false] at hv ⊢
    tauto
  nodup := by
    have hold : (component ++ node :: pending).Nodup := h.nodup
    have hdisjoint : ∀ v ∈ new, v ∉ component ++ node :: pending := fun v hv hmem => by
      refine (hnew v hv).2 ((h.marked v).mpr ?_)
      rcases List.mem_append.mp hmem with hmem | hmem
      · exact .inr (.inl hmem)
      · exact .inr (.inr hmem)
    have hperm : (component ++ [node] ++ (new ++ pending)).Perm (new ++ (component ++ node :: pending)) := by
      have hcomm : (component ++ [node] ++ new ++ pending).Perm (new ++ (component ++ [node]) ++ pending) :=
        List.perm_append_comm.append_right pending
      simpa using hcomm
    refine hperm.nodup_iff.mpr (List.nodup_append.mpr ⟨hnodup, hold, fun v hv w hw heq => ?_⟩)
    exact hdisjoint v hv (heq ▸ hw)
  leads v hv := by
    have hold : ∀ w ∈ component ++ node :: pending, w ∉ taken ∧ LeadsPast (targets graph) taken w r := h.leads
    have hnode := hold node (by simp)
    simp only [List.mem_append, List.mem_cons, List.not_mem_nil, or_false] at hv hold
    rcases hv with (hv | rfl) | (hv | hv)
    · exact hold v (.inl hv)
    · exact hnode
    · have hfree : v ∉ taken := fun ht => (hnew v hv).2 ((h.marked v).mpr (.inl ht))
      exact ⟨hfree, .head ⟨(hreverse node v).mp (hnew v hv).1, hfree, hnode.1⟩ hnode.2⟩
    · exact hold v (.inr (.inr hv))
  met v hv source hsource := by
    rcases List.mem_append.mp hv with hv | hv
    · exact List.mem_append_right _ (h.met v hv source hsource)
    · obtain rfl := List.mem_singleton.mp hv
      exact hall source ((hreverse v source).mpr hsource)
  starts := by
    have hr := h.starts
    simp only [List.mem_append, List.mem_cons, List.not_mem_nil, or_false] at hr ⊢
    tauto

structure Collected (graph : List (List ℕ)) (taken : List ℕ) (r : ℕ) (component visited : List ℕ) : Prop where
  nodup : component.Nodup
  holds : ∀ v, v ∈ component ↔ LeadsPast (targets graph) taken v r
  marked : ∀ v, v ∈ visited ↔ v ∈ component ∨ v ∈ taken

theorem Collecting.collected {taken visited component : List ℕ} {r : ℕ}
    (h : Collecting graph taken r [] visited component) : Collected graph taken r component visited where
  nodup := by simpa using h.nodup
  holds v := by
    constructor
    · intro hv
      exact (h.leads v (List.mem_append_left _ hv)).2
    · intro hv
      induction hv using Relation.ReflTransGen.head_induction_on with
      | refl => simpa using h.starts
      | head hab _ ih =>
        rcases (h.marked _).mp (h.met _ ih _ hab.1) with ht | hv | hv
        · exact absurd ht hab.2.1
        · exact hv
        · cases hv
  marked v := by
    rw [h.marked v]
    simp only [List.not_mem_nil, or_false]
    exact or_comm

theorem collectLoop_collected (hreverse : ∀ node source, source ∈ targets reverse node ↔ node ∈ targets graph source) :
    ∀ {rounds : ℕ} {taken pending visited component component' visited' : List ℕ} {r : ℕ},
    Collecting graph taken r pending visited component →
    collectLoop reverse rounds pending visited component = some (component', visited') →
    Collected graph taken r component' visited'
  | _, _, [], _, _, _, _, _, h, hloop => by
    rw [collectLoop] at hloop
    cases hloop
    exact h.collected
  | 0, _, _ :: _, _, _, _, _, _, _, hloop => nomatch hloop
  | rounds + 1, taken, node :: pending, visited, component, component', visited', r, h, hloop => by
    rw [collectLoop] at hloop
    obtain ⟨new, heq, hnodup, hnew, hall⟩ := pushSources_eq (targets reverse node) pending visited
    rw [heq] at hloop
    exact collectLoop_collected hreverse (h.step hreverse hnodup hnew hall) hloop

/-- **What `collect_component` collects** is what leads to the node past what is taken. -/
theorem collectComponent_collected
    (hreverse : ∀ node source, source ∈ targets reverse node ↔ node ∈ targets graph source) {node : ℕ}
    {taken component visited : List ℕ} (hnode : node ∉ taken)
    (h : collectComponent reverse node taken = some (component, visited)) :
    Collected graph taken node component visited := by
  rw [collectComponent, if_neg hnode] at h
  refine collectLoop_collected hreverse ⟨fun v => ?_, ?_, fun v hv => ?_, fun v hv => ?_, ?_⟩ h
  · simp only [List.mem_cons, List.not_mem_nil, or_false, false_or]
    exact or_comm
  · simp
  · simp only [List.nil_append, List.mem_singleton] at hv
    subst hv
    exact ⟨hnode, .refl⟩
  · cases hv
  · simp

theorem weight_append {count : ℕ} {new visited : List ℕ} (hnodup : new.Nodup) (hin : ∀ v ∈ new, v < count)
    (hnew : ∀ v ∈ new, v ∉ visited) :
    weight (fun _ => 1) (List.range count) (among (new ++ visited)) + new.length ≤
      weight (fun _ => 1) (List.range count) (among visited) := by
  induction new with
  | nil => exact Nat.le_refl _
  | cons v new ih =>
    obtain ⟨hv, hnodup⟩ := List.nodup_cons.mp hnodup
    have hrest := ih hnodup (fun w hw => hin w (List.mem_cons_of_mem _ hw)) fun w hw =>
      hnew w (List.mem_cons_of_mem _ hw)
    have hnot : v ∉ new ++ visited := by
      intro hmem
      rcases List.mem_append.mp hmem with hmem | hmem
      · exact hv hmem
      · exact hnew v List.mem_cons_self hmem
    have hmark := weight_among (fun _ => 1) (hin v List.mem_cons_self) hnot
    rw [List.cons_append, List.length_cons]
    omega

/-- **The rounds are enough.** -/
theorem collectLoop_returns (hinside : Inside reverse) : ∀ {rounds : ℕ} {pending visited component : List ℕ},
    weight (fun _ => 1) (List.range reverse.length) (among visited) + pending.length ≤ rounds →
    ∃ result, collectLoop reverse rounds pending visited component = some result
  | _, [], visited, component, _ => ⟨_, by rw [collectLoop]⟩
  | 0, _ :: _, _, _, h => by
    rw [List.length_cons] at h
    omega
  | rounds + 1, node :: pending, visited, component, h => by
    rw [collectLoop]
    obtain ⟨new, heq, hnodup, hnew, -⟩ := pushSources_eq (targets reverse node) pending visited
    rw [heq]
    refine collectLoop_returns hinside ?_
    have hweight := weight_append hnodup (fun v hv => hinside node v (hnew v hv).1) fun v hv => (hnew v hv).2
    rw [List.length_cons] at h
    rw [List.length_append]
    omega

theorem collectComponent_returns (hinside : Inside reverse) {node : ℕ} (hnode : node < reverse.length)
    (visited : List ℕ) : ∃ result, collectComponent reverse node visited = some result := by
  rw [collectComponent]
  split
  · exact ⟨_, rfl⟩
  · next hvisited =>
    refine collectLoop_returns hinside ?_
    have hmark := weight_among (fun _ => 1) hnode hvisited
    have hall := weight_start (fun _ => 1) reverse.length visited
    have htotal : ((List.range reverse.length).map fun _ => 1).sum = reverse.length := by simp
    rw [List.length_singleton]
    omega

end SecondPass

/-! ### The certificate -/

section Certificate

variable {graph reverse : List (List ℕ)} {path : String} {closures : List GroupClosure}

/-- **The second pass collects** what a sweep over the order takes. -/
theorem collected_sweeps (hreverse : ∀ node source, source ∈ targets reverse node ↔ node ∈ targets graph source) :
    ∀ {order taken : List ℕ} {components : List (ℕ × List ℕ)}, collected reverse order taken = some components →
    Sweeps (targets graph) order taken components
  | [], taken, components, h => by
    cases h
    exact .done taken
  | node :: order, taken, components, h => by
    rw [collected] at h
    split at h
    · next htaken => exact .skip htaken (collected_sweeps hreverse h)
    · next htaken =>
      split at h
      · cases h
      · next component visited hcollect =>
        obtain ⟨rest, hrest, rfl⟩ := Option.map_eq_some_iff.mp h
        have hcomponent := collectComponent_collected hreverse htaken hcollect
        exact .take htaken hcomponent.nodup hcomponent.holds hcomponent.marked (collected_sweeps hreverse hrest)

theorem collected_returns (hinside : Inside reverse) : ∀ {order : List ℕ}, (∀ node ∈ order, node < reverse.length) →
    ∀ visited : List ℕ, ∃ components, collected reverse order visited = some components
  | [], _, _ => ⟨[], rfl⟩
  | node :: order, horder, visited => by
    have hrest : ∀ n ∈ order, n < reverse.length := fun n hn => horder n (List.mem_cons_of_mem _ hn)
    rw [collected]
    split
    · exact collected_returns hinside hrest visited
    · obtain ⟨⟨component, visited'⟩, hcollect⟩ :=
        collectComponent_returns hinside (horder node List.mem_cons_self) visited
      obtain ⟨components, hcomponents⟩ := collected_returns hinside hrest visited'
      rw [hcollect]
      exact ⟨(node, component) :: components, congrArg (Option.map _) hcomponents⟩

theorem certifyLoop_eq : ∀ {order visited : List ℕ} {bodies : List (String × ExpressionId)},
    certifyLoop path closures graph reverse order visited bodies =
      (collected reverse order visited).map fun components =>
        components.foldl (fun bodies p => certifyComponent path closures graph p.1 p.2 bodies) bodies
  | [], _, _ => rfl
  | node :: order, visited, bodies => by
    rw [certifyLoop, collected]
    split
    · exact certifyLoop_eq
    · split
      · rfl
      · rw [certifyLoop_eq, Option.map_map]
        rfl

theorem mem_insertBodies {b : String × ExpressionId} : ∀ {component : List ℕ} {bodies : List (String × ExpressionId)},
    b ∈ insertBodies path closures component bodies ↔
      b ∈ bodies ∨ ∃ member ∈ component, ∃ closure, closures[member]? = some closure ∧ b = (path, closure.body)
  | [], _ => by simp [insertBodies]
  | member :: component, bodies => by
    rw [insertBodies, List.foldl_cons, ← insertBodies, mem_insertBodies]
    cases hmember : closures[member]? with
    | none => simp [hmember]
    | some closure =>
      simp only [List.mem_insert_iff, List.mem_cons, exists_eq_or_imp, hmember, Option.some.injEq, exists_eq_left']
      tauto

theorem mem_certified {b : String × ExpressionId} : ∀ {components : List (ℕ × List ℕ)}
    {bodies : List (String × ExpressionId)},
    b ∈ components.foldl (fun bodies p => certifyComponent path closures graph p.1 p.2 bodies) bodies ↔
      b ∈ bodies ∨ ∃ p ∈ components, (1 < p.2.length ∨ p.1 ∈ targets graph p.1) ∧
        ∃ member ∈ p.2, ∃ closure, closures[member]? = some closure ∧ b = (path, closure.body)
  | [], _ => by simp
  | p :: components, bodies => by
    rw [List.foldl_cons, mem_certified, certifyComponent]
    simp only [List.mem_cons, exists_eq_or_imp]
    split
    · next hrecursive =>
      rw [mem_insertBodies]
      simp only [hrecursive, true_and, or_assoc]
    · next hrecursive => simp only [hrecursive, false_and, false_or]

/-- What the two passes over a graph give. -/
structure Passes (path : String) (closures : List GroupClosure) (graph : List (List ℕ))
    (bodies bodies' : List (String × ExpressionId)) : Prop where
  /-- The first pass lists the nodes as a depth-first search finishes them, and the second collects the strongly
  connected components, each once. -/
  components : ∃ m components, finishGraph graph (List.range graph.length) ⟨[], []⟩ = some m ∧
    Explores (targets graph) ⟨[], []⟩ (List.range graph.length) m ∧ m.order.Perm (List.range graph.length) ∧
    collected (reverseGraph graph) m.order [] = some components ∧ Swept (targets graph) m.order [] components
  /-- The bodies that are inserted are those of the nodes on a cycle. -/
  bodies : ∀ b, b ∈ bodies' ↔ b ∈ bodies ∨ ∃ (position : ℕ) (closure : GroupClosure),
    closures[position]? = some closure ∧ OnCycle (targets graph) position ∧ b = (path, closure.body)

/-- **The two passes find the cycles of a graph.** -/
theorem certifyGraph_passes (path : String) {closures : List GroupClosure} (hinside : Inside graph)
    (hlength : closures.length = graph.length) (bodies : List (String × ExpressionId)) :
    ∃ bodies', certifyGraph path closures graph bodies = some bodies' ∧
      Passes path closures graph bodies bodies' := by
  have hreverse : ∀ node source, source ∈ targets (reverseGraph graph) node ↔ node ∈ targets graph source :=
    fun node source => (mem_reverseGraph hinside node source).1
  have hreverseLength : (reverseGraph graph).length = graph.length := (mem_reverseGraph hinside 0 0).2
  have hsource : ∀ node source, node ∈ targets graph source → source < graph.length := by
    intro node source hmem
    by_contra hge
    rw [targets, List.getD_eq_getElem?_getD, List.getElem?_eq_none (Nat.le_of_not_lt hge)] at hmem
    cases hmem
  have hreverseInside : Inside (reverseGraph graph) := fun node source hmem => by
    rw [hreverseLength]
    exact hsource node source ((hreverse node source).mp hmem)
  obtain ⟨m, hfinish⟩ := finishGraph_returns hinside (fun _ hn => List.mem_range.mp hn) ⟨[], []⟩
  have hexplores := finishGraph_explores hfinish
  have hempty : Searching (targets graph) [] ⟨[], []⟩ := ⟨by simp, nofun, List.nodup_nil, nofun, trivial⟩
  obtain ⟨hsearching, -, hvisits⟩ := hexplores.searching hempty nofun
  have hall : ∀ node < graph.length, node ∈ m.order := fun node hnode => by
    rcases (hsearching.visited node).mp (hvisits node (List.mem_range.mpr hnode)) with h | h
    · exact h
    · cases h
  have honly : ∀ node ∈ m.order, node < graph.length := fun node hnode => by
    rcases hexplores.only (P := fun n => n < graph.length) (fun v _ w hw => hinside v w hw)
      (fun n hn => List.mem_range.mp hn) node ((hsearching.visited node).mpr (.inl hnode)) with h | h
    · cases h
    · exact h
  have hperm : m.order.Perm (List.range graph.length) :=
    (List.perm_ext_iff_of_nodup hsearching.nodup List.nodup_range).mpr fun node =>
      ⟨fun h => List.mem_range.mpr (honly node h), fun h => hall node (List.mem_range.mp h)⟩
  have hremaining : Remaining (targets graph) m.order [] := ⟨hsearching.finishes, hsearching.nodup,
    fun x y hxy => ⟨.inr (hall x (hsource y x hxy)), .inr (hall y (hinside x y hxy))⟩, nofun⟩
  obtain ⟨components, hcollected⟩ := collected_returns hreverseInside
    (fun node hnode => hreverseLength ▸ honly node hnode) []
  have hswept := (collected_sweeps hreverse hcollected).swept hremaining
  refine ⟨components.foldl (fun bodies p => certifyComponent path closures graph p.1 p.2 bodies) bodies, ?_,
    ⟨m, components, hfinish, hexplores, hperm, hcollected, hswept⟩, fun b => Iff.trans mem_certified ?_⟩
  · rw [certifyGraph, hfinish]
    dsimp only
    rw [certifyLoop_eq, hcollected]
    rfl
  · refine or_congr_right ⟨?_, ?_⟩
    · rintro ⟨p, hp, hrecursive, member, hmember, closure, hclosure, hb⟩
      exact ⟨member, closure, hclosure,
        (onCycle_iff (hswept.nodup p hp) (hswept.mutual_ p hp) hmember).mpr hrecursive, hb⟩
    · rintro ⟨position, closure, hclosure, hcycle, hb⟩
      have hposition : position < graph.length := hlength ▸ (List.getElem?_eq_some_iff.mp hclosure).1
      rcases hswept.covers position (hall position hposition) with h | ⟨p, hp, hmember⟩
      · cases h
      · exact ⟨p, hp, (onCycle_iff (hswept.nodup p hp) (hswept.mutual_ p hp) hmember).mp hcycle, position, hmember,
          closure, hclosure, hb⟩

/-! ### Closures -/

/-- A closure is linked to the members of the group that are free in it. -/
def Links {ε : Type} (freeNames : PatternId → ExpressionId → Except ε (List String)) (closures : List GroupClosure)
    (i j : ℕ) : Prop :=
  ∃ closure member names, closures[i]? = some closure ∧ closures[j]? = some member ∧
    freeNames closure.parameter closure.body = .ok names ∧ member.name ∈ names

/-- The position of a name is that of its closure. -/
theorem positionOf_eq {closures : List GroupClosure} (hnames : (closures.map GroupClosure.name).Nodup) {name : String}
    {j : ℕ} : positionOf closures name = some j ↔ ∃ closure, closures[j]? = some closure ∧ closure.name = name := by
  have hfound : ∀ {closure : GroupClosure} {i : ℕ},
      (closure, i) ∈ closures.zipIdx.filter (fun closure => closure.1.name = name) ↔
        closures[i]? = some closure ∧ closure.name = name := by
    intro closure i
    rw [List.mem_filter, List.mem_zipIdx_iff_getElem?]
    simp
  constructor
  · intro h
    obtain ⟨⟨closure, i⟩, hlast, rfl⟩ := Option.map_eq_some_iff.mp h
    exact ⟨closure, hfound.mp (List.mem_of_getLast? hlast)⟩
  · rintro ⟨closure, hclosure⟩
    have hmem := hfound.mpr hclosure
    have hne : closures.zipIdx.filter (fun closure => closure.1.name = name) ≠ [] := List.ne_nil_of_mem hmem
    obtain ⟨found, hname⟩ := hfound.mp (List.getLast_mem hne)
    obtain ⟨hfirst, hfirstName⟩ := hclosure
    have hsame : (closures.map GroupClosure.name)[(List.getLast _ hne).2]? = (closures.map GroupClosure.name)[j]? := by
      rw [List.getElem?_map, List.getElem?_map, found, hfirst]
      exact congrArg some (hname.trans hfirstName.symm)
    have hlt := (List.getElem?_eq_some_iff.mp found).1
    refine Option.map_eq_some_iff.mpr ⟨_, List.getLast?_eq_some_getLast hne, ?_⟩
    exact (List.getElem?_inj (by rwa [List.length_map]) hnames).mp hsame

theorem rows_of_mapM {ε : Type} (f : GroupClosure → Except ε (List ℕ)) : ∀ closures : List GroupClosure,
    (∀ {graph : List (List ℕ)}, closures.mapM f = .ok graph →
      List.Forall₂ (fun closure row => f closure = .ok row) closures graph) ∧
    ∀ {e : ε}, closures.mapM f = .error e → ∃ closure, f closure = .error e
  | [] => ⟨fun h => by cases h; exact .nil, nofun⟩
  | closure :: closures => by
    obtain ⟨hok, herror⟩ := rows_of_mapM f closures
    rw [List.mapM_cons]
    cases hrow : f closure with
    | error e => exact ⟨nofun, fun h => by cases h; exact ⟨closure, hrow⟩⟩
    | ok row =>
      cases hgraph : closures.mapM f with
      | error e => exact ⟨nofun, fun h => by cases h; exact herror hgraph⟩
      | ok graph => exact ⟨fun h => by cases h; exact .cons hrow (hok hgraph), nofun⟩

/-- **The graph links each closure to the members that are free in it.** -/
theorem groupGraph_links {ε : Type} {freeNames : PatternId → ExpressionId → Except ε (List String)}
    {closures : List GroupClosure} (hnames : (closures.map GroupClosure.name).Nodup) {graph : List (List ℕ)}
    (h : groupGraph freeNames closures = .ok graph) :
    closures.length = graph.length ∧ ∀ i j, j ∈ targets graph i ↔ Links freeNames closures i j := by
  have hrows : List.Forall₂ (fun closure row => (freeNames closure.parameter closure.body).map
      (·.filterMap (positionOf closures)) = .ok row) closures graph := (rows_of_mapM _ _).1 h
  refine ⟨hrows.length_eq, fun i j => ?_⟩
  cases hclosure : closures[i]? with
  | none =>
    have hrow : graph[i]? = none := by
      rw [List.getElem?_eq_none_iff, ← hrows.length_eq]
      exact List.getElem?_eq_none_iff.mp hclosure
    simp only [targets, List.getD_eq_getElem?_getD, hrow, Option.getD_none, List.not_mem_nil, false_iff]
    rintro ⟨closure, -, -, hother, -⟩
    cases hclosure.symm.trans hother
  | some closure =>
    obtain ⟨hlt, hget⟩ := List.getElem?_eq_some_iff.mp hclosure
    have hltRow : i < graph.length := hrows.length_eq ▸ hlt
    have hrow := hrows.get hlt hltRow
    rw [List.get_eq_getElem, List.get_eq_getElem, hget] at hrow
    rw [targets, List.getD_eq_getElem?_getD, List.getElem?_eq_getElem hltRow, Option.getD_some]
    cases hfree : freeNames closure.parameter closure.body with
    | error e =>
      rw [hfree] at hrow
      cases hrow
    | ok names =>
      rw [hfree] at hrow
      rw [← Except.ok.inj hrow, List.mem_filterMap]
      constructor
      · rintro ⟨name, hname, hposition⟩
        obtain ⟨member, hmember, rfl⟩ := (positionOf_eq hnames).mp hposition
        exact ⟨closure, member, names, hclosure, hmember, hfree, hname⟩
      · rintro ⟨closure', member, names', hclosure', hmember, hfree', hname⟩
        obtain rfl := Option.some.inj (hclosure.symm.trans hclosure')
        obtain rfl := Except.ok.inj (hfree.symm.trans hfree')
        exact ⟨member.name, hname, (positionOf_eq hnames).mpr ⟨member, hmember, rfl⟩⟩

/-- What `certify_recursive_components` does with a group: `bodies` were certified before, `bodies'` are after. -/
structure Certified (freeNames : PatternId → ExpressionId → Except Eval.Diagnostic (List String)) (path : String)
    (closures : List GroupClosure) (bodies bodies' : List (String × ExpressionId)) : Prop where
  /-- The two passes, over the links of the closures. -/
  passes : ∃ graph, groupGraph freeNames closures = .ok graph ∧
    (∀ i j, j ∈ targets graph i ↔ Links freeNames closures i j) ∧ Passes path closures graph bodies bodies'
  /-- The bodies that are inserted are those of the closures on a cycle of links. -/
  inserted : ∀ b, b ∈ bodies' ↔ b ∈ bodies ∨ ∃ (i : ℕ) (closure : GroupClosure), closures[i]? = some closure ∧
    Relation.TransGen (Links freeNames closures) i i ∧ b = (path, closure.body)
  /-- A body that no other closure has, and that was not certified before, is inserted when its closure is on one. -/
  exact_ : ∀ (i : ℕ) (closure : GroupClosure), closures[i]? = some closure →
    (∀ (j : ℕ) (other : GroupClosure), closures[j]? = some other → other.body = closure.body → j = i) →
    (path, closure.body) ∉ bodies →
    ((path, closure.body) ∈ bodies' ↔ Relation.TransGen (Links freeNames closures) i i)

/-- **The closures on cycles are certified, and no others**, in a group whose names are distinct. -/
theorem recursive_components_certified (modules : String → Option Module) (depth : ℕ) (path : String)
    (closures : List GroupClosure) (hnames : (closures.map GroupClosure.name).Nodup)
    (bodies : List (String × ExpressionId)) :
    ∃ result, certifyRecursiveComponents modules depth path closures bodies = some result ∧
      (∀ e, result = .error e → modules path = none) ∧
      ∀ bodies', result = .ok bodies' → Certified
        (fun parameter body => Eval.closureFreeNames modules depth path parameter body none) path closures bodies
        bodies' := by
  unfold certifyRecursiveComponents
  cases hgraph : groupGraph
      (fun parameter body => Eval.closureFreeNames modules depth path parameter body none) closures with
  | error e =>
    refine ⟨.error e, rfl, fun _ _ => ?_, nofun⟩
    obtain ⟨closure, hfree⟩ := (rows_of_mapM _ _).2 hgraph
    unfold Eval.closureFreeNames at hfree
    cases hmodule : modules path with
    | none => rfl
    | some module =>
      rw [hmodule] at hfree
      cases hfree
  | ok graph =>
    obtain ⟨hlength, hlinks⟩ := groupGraph_links hnames hgraph
    have hinside : Inside graph := fun i j hj => by
      obtain ⟨-, member, -, -, hmember, -⟩ := (hlinks i j).mp hj
      exact hlength ▸ (List.getElem?_eq_some_iff.mp hmember).1
    obtain ⟨bodies', hcertify, hpasses⟩ := certifyGraph_passes path hinside hlength bodies
    have hrelation : (fun i j => j ∈ targets graph i) = Links
        (fun parameter body => Eval.closureFreeNames modules depth path parameter body none) closures := by
      funext i j
      exact propext (hlinks i j)
    have hinserted := hpasses.bodies
    simp only [OnCycle, hrelation] at hinserted
    refine ⟨.ok bodies', by simp only [hcertify, Option.map_some], nofun, fun result heq => ?_⟩
    obtain rfl := Except.ok.inj heq
    refine ⟨⟨graph, hgraph, hlinks, hpasses⟩, hinserted, fun i closure hclosure honly hnew => ?_⟩
    rw [hinserted, or_iff_right hnew]
    constructor
    · rintro ⟨j, other, hother, hcycle, hbody⟩
      rwa [honly j other hother (Prod.mk.inj hbody).2.symm] at hcycle
    · exact fun hcycle => ⟨i, closure, hclosure, hcycle, rfl⟩

/-- A module with the bodies of `f`, which calls `g`, of `g`, which calls `f`, and of `h`. -/
def groupModule : Module where
  expressions := [⟨.var "g", ⟨0, 1⟩⟩, ⟨.var "f", ⟨1, 2⟩⟩, ⟨.unit, ⟨2, 4⟩⟩]
  patterns := [.wildcard]
  declarations := []
  span := ⟨0, 4⟩

theorem groupModule_certified : ∃ bodies', certifyRecursiveComponents (fun _ => some groupModule) 2 "main"
    [⟨"f", 0, 0⟩, ⟨"g", 0, 1⟩, ⟨"h", 0, 2⟩] [] = some (.ok bodies') ∧ Certified
      (fun parameter body => Eval.closureFreeNames (fun _ => some groupModule) 2 "main" parameter body none) "main"
      [⟨"f", 0, 0⟩, ⟨"g", 0, 1⟩, ⟨"h", 0, 2⟩] [] bodies' := by
  obtain ⟨result, hresult, herror, hok⟩ := recursive_components_certified (fun _ => some groupModule) 2 "main"
    [⟨"f", 0, 0⟩, ⟨"g", 0, 1⟩, ⟨"h", 0, 2⟩] (by decide) []
  cases result with
  | error e => cases herror e rfl
  | ok bodies' => exact ⟨bodies', hresult, hok bodies' rfl⟩

end Certificate

end Blot.Typecheck
