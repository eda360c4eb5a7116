import Blot.Support.Ascending
import Blot.Support.Table
import Blot.Relational.Projection

/-!
# Proof slices (`relational_proof.rs`)

The constraints that a proof about two terms is made from are found by a search along the constraints, which stops at
`Zero`.

* `IndexedConstraints` — the edges with the index of those incident to each node: `push`, `extend`, `forget`;
* `IndexedConstraints.proof` — the search;
* `proof_loses_nothing` — what it finds entails the same facts about the two terms as all constraints do.
-/

namespace Blot.Relational

open Support

def refinementTermBudget : ℕ := 512

def refinementEdgeBudget : ℕ := 2048

/-- `Constraints` with its index: the positions of the edges at each node but `Zero` -/
structure IndexedConstraints where
  edges : Constraints
  incident : Table Node (List ℕ)

namespace IndexedConstraints

def empty : IndexedConstraints := ⟨[], []⟩

def incidentTo (c : IndexedConstraints) (node : Node) : List ℕ := (c.incident.find node).getD []

/-- Adds a position for a node, unless it is `Zero`. -/
def note (incident : Table Node (List ℕ)) (index : ℕ) (node : Node) : Table Node (List ℕ) :=
  if node = .zero then incident else incident.insert node ((incident.find node).getD [] ++ [index])

def push (c : IndexedConstraints) (constraint : Constraint) : IndexedConstraints :=
  ⟨c.edges ++ [constraint], note (note c.incident c.edges.length constraint.left) c.edges.length constraint.right⟩

def extend (c : IndexedConstraints) (constraints : Constraints) : IndexedConstraints := constraints.foldl push c

def forget (c : IndexedConstraints) (identity : Identity) : IndexedConstraints :=
  empty.extend (forgetIdentity c.edges identity)

inductive Built : IndexedConstraints → Prop where
  | empty : Built empty
  | push {c : IndexedConstraints} (h : Built c) (constraint : Constraint) : Built (c.push constraint)
  | extend {c : IndexedConstraints} (h : Built c) (constraints : Constraints) : Built (c.extend constraints)
  | forget {c : IndexedConstraints} (h : Built c) (identity : Identity) : Built (c.forget identity)

end IndexedConstraints

/-- Why there is no proof slice: the `BLOT_REFINEMENT_BUDGET` diagnostic, or a position without an edge, at which the
source panics. -/
inductive ProofFailure where
  | budget (message : String)
  | missingEdge
  deriving DecidableEq

def budgetMessage : String :=
  "The array-index proof exceeded its bounded affine refinement budget (maximum " ++ toString refinementTermBudget ++
    " terms and " ++ toString refinementEdgeBudget ++
    " edges per proof). Split the relevant relation into a verified helper."

structure Search where
  nodes : Finset Node
  pending : List Node
  edges : Ascending ℕ

namespace Search

def reach (search : Search) (node : Node) : Search :=
  if node ∈ search.nodes then search
  else { search with nodes := insert node search.nodes, pending := node :: search.pending }

def follow (edges : Constraints) (search : Search) (index : ℕ) : Except ProofFailure Search :=
  if index ∈ search.edges then .ok search
  else
    match edges[index]? with
    | none => .error .missingEdge
    | some edge =>
      let search := (reach { search with edges := search.edges.insert index } edge.left).reach edge.right
      if refinementTermBudget < search.nodes.card ∨ refinementEdgeBudget < search.edges.elements.length then
        .error (.budget budgetMessage)
      else .ok search

def run (c : IndexedConstraints) : ℕ → Search → Option (Except ProofFailure Search)
  | rounds, search =>
    match search.pending with
    | [] => some (.ok search)
    | node :: pending =>
      match rounds with
      | 0 => none
      | rounds + 1 =>
        match (c.incidentTo node).foldlM (follow c.edges) { search with pending := pending } with
        | .error failure => some (.error failure)
        | .ok search => run c rounds search

/-- The two terms are reached from the start, and `Zero` is never expanded. -/
def start (index length : Term) : Search :=
  (reach ⟨{Node.zero}, [], .empty⟩ (termNode index).1).reach (termNode length).1

end Search

def IndexedConstraints.proof (c : IndexedConstraints) (rounds : ℕ) (index length : Term) :
    Option (Except ProofFailure Constraints) :=
  (Search.run c rounds (Search.start index length)).map fun result =>
    result.map fun search => search.edges.elements.filterMap (c.edges[·]?)

/-! ### The index -/

section Index

variable {c : IndexedConstraints} {node : Node} {i : ℕ} {e : Constraint}

def IndexedConstraints.Indexed (c : IndexedConstraints) : Prop :=
  ∀ node ≠ Node.zero, ∀ i, i ∈ c.incidentTo node ↔ ∃ e, c.edges[i]? = some e ∧ (e.left = node ∨ e.right = node)

theorem mem_note {incident : Table Node (List ℕ)} {index : ℕ} {other : Node} (hother : other ≠ .zero) :
    i ∈ ((IndexedConstraints.note incident index node).find other).getD [] ↔
      i ∈ (incident.find other).getD [] ∨ i = index ∧ other = node := by
  unfold IndexedConstraints.note
  split
  · next h =>
    subst h
    simp [hother]
  · rw [Table.find_insert]
    by_cases heq : other = node
    · subst heq
      simp
    · simp [heq]

theorem IndexedConstraints.Indexed.push (h : c.Indexed) (constraint : Constraint) : (c.push constraint).Indexed := by
  intro node hnode i
  unfold IndexedConstraints.push incidentTo
  rw [mem_note hnode, mem_note hnode]
  have hold := h node hnode i
  unfold incidentTo at hold
  rw [hold]
  constructor
  · rintro ((⟨e, he, hor⟩ | ⟨rfl, rfl⟩) | ⟨rfl, rfl⟩)
    · exact ⟨e, (List.getElem?_append_left (List.getElem?_eq_some_iff.1 he).1).trans he, hor⟩
    · exact ⟨constraint, List.getElem?_concat_length, .inl rfl⟩
    · exact ⟨constraint, List.getElem?_concat_length, .inr rfl⟩
  · rintro ⟨e, he, hor⟩
    rcases Nat.lt_or_ge i c.edges.length with hlt | hge
    · rw [List.getElem?_append_left hlt] at he
      exact .inl (.inl ⟨e, he, hor⟩)
    · have hi : i = c.edges.length := by
        have := (List.getElem?_eq_some_iff.1 he).1
        simp only [List.length_append, List.length_singleton] at this
        omega
      subst hi
      rw [List.getElem?_concat_length] at he
      obtain rfl := Option.some.inj he
      rcases hor with h | h
      · exact .inl (.inr ⟨rfl, h.symm⟩)
      · exact .inr ⟨rfl, h.symm⟩

theorem IndexedConstraints.Indexed.extend (h : c.Indexed) (constraints : Constraints) :
    (c.extend constraints).Indexed := by
  unfold IndexedConstraints.extend
  induction constraints generalizing c with
  | nil => exact h
  | cons e constraints ih => exact ih (h.push e)

theorem IndexedConstraints.indexed_empty : empty.Indexed := by
  intro node _ i
  simp [incidentTo, empty, Table.find]

/-- **The index is kept.** -/
theorem IndexedConstraints.Built.indexed (h : c.Built) : c.Indexed := by
  induction h with
  | empty => exact indexed_empty
  | push _ constraint ih => exact ih.push constraint
  | extend _ constraints ih => exact ih.extend constraints
  | forget _ identity _ => exact indexed_empty.extend _

end Index

/-! ### The search -/

section Search

variable {c : IndexedConstraints} {search search' : Search} {roots : Finset Node} {node : Node} {i : ℕ} {e : Constraint}

/-- The roots and `Zero` are reached, the edges taken are between nodes that were reached, and those at a node that was
expanded are taken; `todo` are the positions at `current` that are still to be looked at. -/
structure Search.Sound (c : IndexedConstraints) (roots : Finset Node) (search : Search) (current : Node)
    (todo : List ℕ) : Prop where
  zero : Node.zero ∈ search.nodes
  roots : roots ⊆ search.nodes
  pending : ∀ node ∈ search.pending, node ∈ search.nodes ∧ node ≠ .zero
  ends : ∀ i ∈ search.edges, ∃ e, c.edges[i]? = some e ∧ e.left ∈ search.nodes ∧ e.right ∈ search.nodes
  taken : ∀ node ∈ search.nodes, node ≠ .zero → node ∉ search.pending → ∀ i e, c.edges[i]? = some e →
    (e.left = node ∨ e.right = node) → i ∈ search.edges ∨ node = current ∧ i ∈ todo

theorem Search.mem_reach {other : Node} : other ∈ (search.reach node).nodes ↔ other = node ∨ other ∈ search.nodes := by
  unfold reach
  split
  · next h =>
    constructor
    · exact .inr
    · rintro (rfl | h')
      · exact h
      · exact h'
  · exact Finset.mem_insert

@[simp] theorem Search.reach_edges : (search.reach node).edges = search.edges := by
  unfold reach
  split <;> rfl

theorem Search.mem_pending_reach {other : Node} : other ∈ (search.reach node).pending ↔
    other ∈ search.pending ∨ other = node ∧ node ∉ search.nodes := by
  unfold reach
  split
  · next h => simp [h]
  · next h =>
    rw [List.mem_cons]
    tauto

theorem Search.Sound.reach {current : Node} {todo : List ℕ} (h : search.Sound c roots current todo) (node : Node) :
    (search.reach node).Sound c roots current todo where
  zero := mem_reach.2 (.inr h.zero)
  roots other hother := mem_reach.2 (.inr (h.roots hother))
  pending other hother := by
    rcases mem_pending_reach.1 hother with hmem | ⟨rfl, hnew⟩
    · exact ⟨mem_reach.2 (.inr (h.pending other hmem).1), (h.pending other hmem).2⟩
    · exact ⟨mem_reach.2 (.inl rfl), fun heq => hnew (heq ▸ h.zero)⟩
  ends i hi := by
    rw [reach_edges] at hi
    obtain ⟨e, he, hl, hr⟩ := h.ends i hi
    exact ⟨e, he, mem_reach.2 (.inr hl), mem_reach.2 (.inr hr)⟩
  taken other hother hzero hpending i e he hor := by
    rw [reach_edges]
    rw [mem_pending_reach, not_or] at hpending
    rcases mem_reach.1 hother with rfl | hmem
    · by_cases hnew : other ∈ search.nodes
      · exact h.taken other hnew hzero hpending.1 i e he hor
      · exact absurd ⟨rfl, hnew⟩ hpending.2
    · exact h.taken other hmem hzero hpending.1 i e he hor

/-- What is reached does not depend on the edges taken. -/
theorem Search.reach_withEdges (search : Search) (node : Node) (edges : Ascending ℕ) :
    Search.reach { search with edges := edges } node = { search.reach node with edges := edges } := by
  unfold reach
  split <;> rfl

theorem Search.Sound.take {current : Node} {todo : List ℕ} (h : search.Sound c roots current (i :: todo))
    (he : c.edges[i]? = some e) (hl : e.left ∈ search.nodes) (hr : e.right ∈ search.nodes) :
    Search.Sound c roots { search with edges := search.edges.insert i } current todo where
  zero := h.zero
  roots := h.roots
  pending := h.pending
  ends j hj := by
    rcases Ascending.mem_insert.1 hj with rfl | hj
    · exact ⟨e, he, hl, hr⟩
    · exact h.ends j hj
  taken other hother hzero hpending j e' he' hor := by
    rcases h.taken other hother hzero hpending j e' he' hor with hj | ⟨heq, hj⟩
    · exact .inl (Ascending.mem_insert.2 (.inr hj))
    · rcases List.mem_cons.1 hj with rfl | hj
      · exact .inl (Ascending.mem_insert.2 (.inl rfl))
      · exact .inr ⟨heq, hj⟩

theorem Search.follow_ok (hrun : search.follow c.edges i = .ok search') : i ∈ search.edges ∧ search' = search ∨
    ∃ e, c.edges[i]? = some e ∧
      search' = { (search.reach e.left).reach e.right with edges := search.edges.insert i } := by
  unfold Search.follow at hrun
  split at hrun
  · next hi => exact .inl ⟨hi, (Except.ok.inj hrun).symm⟩
  · cases hedge : c.edges[i]? with
    | none =>
      rw [hedge] at hrun
      cases hrun
    | some edge =>
      rw [hedge] at hrun
      dsimp only at hrun
      split at hrun
      · cases hrun
      · refine .inr ⟨edge, rfl, ?_⟩
        rw [← Except.ok.inj hrun, reach_withEdges search]
        exact reach_withEdges (search.reach edge.left) edge.right _

theorem Search.Sound.follow {current : Node} {todo : List ℕ} (h : search.Sound c roots current (i :: todo))
    (hrun : search.follow c.edges i = .ok search') : search'.Sound c roots current todo := by
  rcases follow_ok hrun with ⟨hi, rfl⟩ | ⟨e, he, rfl⟩
  · refine ⟨h.zero, h.roots, h.pending, h.ends, fun other hother hzero hpending j e he hor => ?_⟩
    rcases h.taken other hother hzero hpending j e he hor with hj | ⟨heq, hj⟩
    · exact .inl hj
    · rcases List.mem_cons.1 hj with rfl | hj
      · exact .inl hi
      · exact .inr ⟨heq, hj⟩
  · have hreached := ((h.reach e.left).reach e.right).take he
      (mem_reach.2 (.inr (mem_reach.2 (.inl rfl)))) (mem_reach.2 (.inl rfl))
    rwa [reach_edges, reach_edges] at hreached

theorem Search.Sound.foldlM {current : Node} {todo : List ℕ} (h : search.Sound c roots current todo)
    (hrun : todo.foldlM (Search.follow c.edges) search = .ok search') : search'.Sound c roots current [] := by
  induction todo generalizing search with
  | nil =>
    obtain rfl := Except.ok.inj hrun
    exact h
  | cons i todo ih =>
    rw [List.foldlM_cons] at hrun
    cases hstep : search.follow c.edges i with
    | error failure =>
      rw [hstep] at hrun
      cases hrun
    | ok next =>
      rw [hstep] at hrun
      exact ih (h.follow hstep) hrun

theorem Search.Sound.expand {current : Node} {pending : List Node} (hindexed : c.Indexed)
    (h : search.Sound c roots current []) (hpending : search.pending = node :: pending) :
    Search.Sound c roots { search with pending := pending } node (c.incidentTo node) where
  zero := h.zero
  roots := h.roots
  pending other hother := h.pending other (hpending ▸ List.mem_cons_of_mem _ hother)
  ends := h.ends
  taken other hother hzero hnot i e he hor := by
    by_cases heq : other = node
    · subst heq
      exact .inr ⟨rfl, (hindexed other hzero i).2 ⟨e, he, hor⟩⟩
    · refine .inl ((h.taken other hother hzero ?_ i e he hor).resolve_right fun h => absurd h.2 List.not_mem_nil)
      rw [hpending, List.mem_cons, not_or]
      exact ⟨heq, hnot⟩

/-- **The end of a search**: nothing is pending. -/
theorem Search.Sound.run (hindexed : c.Indexed) {rounds : ℕ} {current : Node} (h : search.Sound c roots current [])
    (hrun : Search.run c rounds search = some (.ok search')) :
    (∃ current, search'.Sound c roots current []) ∧ search'.pending = [] := by
  induction rounds generalizing search current with
  | zero =>
    unfold Search.run at hrun
    cases hpending : search.pending with
    | nil =>
      rw [hpending] at hrun
      obtain rfl := Except.ok.inj (Option.some.inj hrun)
      exact ⟨⟨_, h⟩, hpending⟩
    | cons node pending =>
      rw [hpending] at hrun
      cases hrun
  | succ rounds ih =>
    unfold Search.run at hrun
    cases hpending : search.pending with
    | nil =>
      rw [hpending] at hrun
      obtain rfl := Except.ok.inj (Option.some.inj hrun)
      exact ⟨⟨_, h⟩, hpending⟩
    | cons node pending =>
      rw [hpending] at hrun
      dsimp only at hrun
      cases hfold : (c.incidentTo node).foldlM (Search.follow c.edges) { search with pending := pending } with
      | error failure =>
        rw [hfold] at hrun
        cases hrun
      | ok next =>
        rw [hfold] at hrun
        exact ih ((h.expand hindexed hpending).foldlM hfold) hrun

theorem Search.sound_start (index length : Term) :
    (Search.start index length).Sound c {(termNode index).1, (termNode length).1} .zero [] := by
  have hempty : Search.Sound c ∅ ⟨{Node.zero}, [], .empty⟩ .zero [] := by
    refine ⟨Finset.mem_singleton_self _, Finset.empty_subset _, fun _ h => absurd h List.not_mem_nil,
      fun i hi => absurd hi (Ascending.not_mem_empty i), fun node hnode hzero => ?_⟩
    exact absurd (Finset.mem_singleton.1 hnode) hzero
  have h := (hempty.reach (termNode index).1).reach (termNode length).1
  refine ⟨h.zero, fun node hnode => ?_, h.pending, h.ends, h.taken⟩
  rcases Finset.mem_insert.1 hnode with rfl | hnode
  · exact mem_reach.2 (.inr (mem_reach.2 (.inl rfl)))
  · exact mem_reach.2 (.inl (Finset.mem_singleton.1 hnode))

/-! ### Every search ends -/

/-- The rounds that a search still takes: what is pending, and what can still be reached. -/
def Search.left (c : IndexedConstraints) (search : Search) : ℕ :=
  search.pending.length + ((c.edges.flatMap fun e => [e.left, e.right]).toFinset \ search.nodes).card

theorem Search.left_reach (hnode : ∃ e ∈ c.edges, node = e.left ∨ node = e.right) :
    (search.reach node).left c ≤ search.left c := by
  unfold reach
  split
  · exact le_rfl
  · next hnew =>
    obtain ⟨e, he, hor⟩ := hnode
    have hmem : node ∈ (c.edges.flatMap fun e => [e.left, e.right]).toFinset \ search.nodes := by
      refine Finset.mem_sdiff.2 ⟨List.mem_toFinset.2 (List.mem_flatMap.2 ⟨e, he, ?_⟩), hnew⟩
      simpa using hor
    have hcard := Finset.card_erase_add_one hmem
    unfold left
    rw [List.length_cons, Finset.sdiff_insert]
    omega

/-- Positions with edges are looked at without going on longer, unless the budget is used up. -/
theorem Search.foldlM_finishes (search : Search) {todo : List ℕ} (htodo : ∀ i ∈ todo, ∃ e, c.edges[i]? = some e) :
    (∃ search', todo.foldlM (Search.follow c.edges) search = .ok search' ∧ search'.left c ≤ search.left c) ∨
      todo.foldlM (Search.follow c.edges) search = .error (.budget budgetMessage) := by
  induction todo generalizing search with
  | nil => exact .inl ⟨search, rfl, le_rfl⟩
  | cons i todo ih =>
    rw [List.forall_mem_cons] at htodo
    obtain ⟨e, he⟩ := htodo.1
    rw [List.foldlM_cons]
    cases hstep : search.follow c.edges i with
    | ok next =>
      have hleft : next.left c ≤ search.left c := by
        rcases follow_ok hstep with ⟨-, rfl⟩ | ⟨e', he', rfl⟩
        · exact le_rfl
        · have hmem := List.mem_of_getElem? he'
          exact (left_reach ⟨e', hmem, .inr rfl⟩).trans (left_reach ⟨e', hmem, .inl rfl⟩)
      rcases ih next htodo.2 with ⟨search', hrun, hle⟩ | hrun
      · exact .inl ⟨search', hrun, hle.trans hleft⟩
      · exact .inr hrun
    | error failure =>
      refine .inr ?_
      unfold Search.follow at hstep
      split at hstep
      · cases hstep
      · rw [he] at hstep
        dsimp only at hstep
        split at hstep
        · rw [← Except.error.inj hstep]
          rfl
        · cases hstep

/-- **A search ends** within the rounds that are left, and every position it looks at has an edge. -/
theorem Search.Sound.run_finishes (hindexed : c.Indexed) {rounds : ℕ} {current : Node}
    (h : search.Sound c roots current []) (hrounds : search.left c ≤ rounds) :
    ∃ result, Search.run c rounds search = some result ∧ result ≠ .error .missingEdge := by
  induction rounds generalizing search current with
  | zero =>
    have hpending : search.pending = [] := by
      unfold left at hrounds
      exact List.length_eq_zero_iff.1 (by omega)
    refine ⟨.ok search, ?_, nofun⟩
    unfold Search.run
    rw [hpending]
  | succ rounds ih =>
    unfold Search.run
    cases hpending : search.pending with
    | nil => exact ⟨.ok search, rfl, nofun⟩
    | cons node pending =>
      have hnode := (h.pending node (hpending ▸ List.mem_cons_self)).2
      have hsound := h.expand hindexed hpending
      have hpop : Search.left c { search with pending := pending } + 1 = search.left c := by
        unfold left
        rw [hpending, List.length_cons]
        dsimp only
        omega
      have hedges : ∀ i ∈ c.incidentTo node, ∃ e, c.edges[i]? = some e := fun i hi =>
        ((hindexed node hnode i).1 hi).imp fun e he => he.1
      rcases foldlM_finishes { search with pending := pending } hedges with ⟨next, hfold, hle⟩ | hfold
      · simp only [hfold]
        exact ih (hsound.foldlM hfold) (by omega)
      · simp only [hfold]
        exact ⟨_, rfl, nofun⟩

/-! ### The slice -/

theorem filterMap_getElem?_sublist {A : Type} (l : List A) {positions : List ℕ} (h : positions.Pairwise (· < ·)) :
    (positions.filterMap (l[·]?)).Sublist l := by
  have hdrop : ∀ j, (∀ i ∈ positions, j ≤ i) → (positions.filterMap (l[·]?)).Sublist (l.drop j) := by
    induction positions with
    | nil => exact fun j _ => List.nil_sublist _
    | cons i positions ih =>
      intro j hj
      obtain ⟨hi, hrest⟩ := List.pairwise_cons.1 h
      have hlater := ih hrest (i + 1) hi
      have hskip : (l.drop i).Sublist (l.drop j) := by
        rw [← Nat.add_sub_cancel' (hj i List.mem_cons_self), ← List.drop_drop]
        exact List.drop_sublist _ _
      cases hget : l[i]? with
      | none =>
        rw [List.filterMap_cons_none hget]
        refine hlater.trans (List.Sublist.trans ?_ hskip)
        rw [← List.drop_drop]
        exact List.drop_sublist _ _
      | some a =>
        rw [List.filterMap_cons_some hget]
        obtain ⟨hlt, rfl⟩ := List.getElem?_eq_some_iff.1 hget
        refine List.Sublist.trans ?_ hskip
        rw [List.drop_eq_getElem_cons hlt]
        exact hlater.cons_cons _
  exact hdrop 0 fun _ _ => Nat.zero_le _

theorem IndexedConstraints.Built.exists_search (h : c.Built) {rounds : ℕ} {index length : Term} {slice : Constraints}
    (hproof : c.proof rounds index length = some (.ok slice)) : ∃ search : Search,
      slice = search.edges.elements.filterMap (c.edges[·]?) ∧ search.pending = [] ∧
      ∃ current, search.Sound c {(termNode index).1, (termNode length).1} current [] := by
  unfold proof at hproof
  obtain ⟨result, hrun, hresult⟩ := Option.map_eq_some_iff.1 hproof
  cases result with
  | error failure => cases hresult
  | ok search =>
    obtain rfl := Except.ok.inj hresult
    obtain ⟨hsound, hpending⟩ := (Search.sound_start index length).run h.indexed hrun
    exact ⟨search, rfl, hpending, hsound⟩

/-- A valuation of the slice, completed by one of all constraints where the search did not come. -/
def Search.complete (search : Search) (ν μ : Valuation) : Valuation := fun identity =>
  if Node.ident identity ∈ search.nodes then ν identity else μ identity

theorem Search.eval_complete_of_mem {ν μ : Valuation} (h : node ∈ search.nodes) :
    node.eval (search.complete ν μ) = node.eval ν := by
  cases node with
  | zero => rfl
  | ident identity => exact if_pos h

theorem Search.eval_complete_of_unreached {ν μ : Valuation} (h : node ∈ search.nodes → node = .zero) :
    node.eval (search.complete ν μ) = node.eval μ := by
  cases node with
  | zero => rfl
  | ident identity => exact if_neg fun hmem => Node.noConfusion (h hmem)

/-- **An edge that was not taken** touches nothing that was reached but `Zero`. -/
theorem Search.Sound.satisfies_complete {current : Node} {ν μ : Valuation} (h : search.Sound c roots current [])
    (hpending : search.pending = []) (hμ : Satisfies μ c.edges)
    (hν : Satisfies ν (search.edges.elements.filterMap (c.edges[·]?))) :
    Satisfies (search.complete ν μ) c.edges := by
  intro e he
  obtain ⟨i, hi⟩ := List.mem_iff_getElem?.1 he
  unfold Difference.Holds
  by_cases htaken : i ∈ search.edges
  · obtain ⟨e', he', hl, hr⟩ := h.ends i htaken
    obtain rfl := Option.some.inj (hi.symm.trans he')
    rw [eval_complete_of_mem hl, eval_complete_of_mem hr]
    exact hν e (List.mem_filterMap.2 ⟨i, htaken, hi⟩)
  · have hunreached : ∀ node, e.left = node ∨ e.right = node → node ∈ search.nodes → node = .zero := by
      intro node hor hnode
      by_contra hzero
      rcases h.taken node hnode hzero (by simp [hpending]) i e hi hor with h | h
      · exact htaken h
      · exact absurd h.2 List.not_mem_nil
    rw [eval_complete_of_unreached (hunreached _ (.inl rfl)), eval_complete_of_unreached (hunreached _ (.inr rfl))]
    exact hμ e he

theorem Search.Sound.entails_slice {current : Node} {μ : Valuation} {fact : Constraints}
    (h : search.Sound c roots current []) (hpending : search.pending = []) (hμ : Satisfies μ c.edges)
    (hfact : ∀ e ∈ fact, e.left ∈ search.nodes ∧ e.right ∈ search.nodes) :
    Entails (search.edges.elements.filterMap (c.edges[·]?)) fact ↔ Entails c.edges fact := by
  constructor
  · intro hentails ν hν
    refine hentails ν fun e he => hν e ?_
    obtain ⟨i, -, hi⟩ := List.mem_filterMap.1 he
    exact List.mem_of_getElem? hi
  · intro hentails ν hν e he
    have hholds := hentails _ (h.satisfies_complete hpending hμ hν) e he
    unfold Difference.Holds at hholds ⊢
    rwa [eval_complete_of_mem (hfact e he).1, eval_complete_of_mem (hfact e he).2] at hholds

end Search

/-- What the checker asks about an index and a length: `index >= 0`, `index < length`, `index >= length`. -/
def checkedFacts (index length : Term) : List Constraints :=
  [constraintsAtLeast index (.literal 0), constraintsLessThan index length, constraintsAtLeast index length]

/-- **Slicing loses nothing**: a slice is a part of the edges in their order and, where these can be satisfied, entails
the facts that the checker asks exactly when all edges do.  The search always ends. -/
theorem proof_loses_nothing (c : IndexedConstraints) (h : c.Built) (index length : Term) :
    (∃ enough, ∀ rounds ≥ enough, ∃ result, c.proof rounds index length = some result ∧
      result ≠ .error .missingEdge) ∧
    ∀ rounds slice, c.proof rounds index length = some (.ok slice) →
      slice.Sublist c.edges ∧ ((∃ ν, Satisfies ν c.edges) → ∀ fact ∈ checkedFacts index length,
        (Entails slice fact ↔ Entails c.edges fact) ∧ (entails fact slice = true ↔ entails fact c.edges = true)) := by
  constructor
  · refine ⟨(Search.start index length).left c, fun rounds hrounds => ?_⟩
    obtain ⟨result, hrun, hresult⟩ := (Search.sound_start index length).run_finishes h.indexed hrounds
    refine ⟨_, by rw [IndexedConstraints.proof, hrun]; rfl, ?_⟩
    cases result with
    | error failure => simpa [Except.map] using hresult
    | ok search => exact nofun
  · intro rounds slice hproof
    obtain ⟨search, rfl, hpending, current, hsound⟩ := h.exists_search hproof
    have hsublist := filterMap_getElem?_sublist c.edges search.edges.ascending
    refine ⟨hsublist, fun ⟨μ, hμ⟩ fact hfact => ?_⟩
    have hreached : ∀ e ∈ fact, e.left ∈ search.nodes ∧ e.right ∈ search.nodes := by
      have hindex : (termNode index).1 ∈ search.nodes := hsound.roots (by simp)
      have hlength : (termNode length).1 ∈ search.nodes := hsound.roots (by simp)
      have hzero := hsound.zero
      simp only [checkedFacts, constraintsAtLeast, constraintsLessThan, constraintsDifference, List.mem_cons,
        List.not_mem_nil, or_false] at hfact
      rcases hfact with rfl | rfl | rfl <;> intro e he <;> obtain rfl := List.mem_singleton.1 he
      · exact ⟨hzero, hindex⟩
      · exact ⟨hindex, hlength⟩
      · exact ⟨hlength, hindex⟩
    have hentails := hsound.entails_slice hpending hμ hreached
    have hslice : Satisfies μ (search.edges.elements.filterMap (c.edges[·]?)) := fun e he => hμ e (hsublist.subset he)
    exact ⟨hentails, by rw [entails_iff hslice, entails_iff hμ, hentails]⟩

/-- Two identities, each equal to one. -/
def bothOne : IndexedConstraints :=
  (IndexedConstraints.empty.extend (constraintsEqual (.ident 1 0) (.literal 1))).extend
    (constraintsEqual (.ident 2 0) (.literal 1))

theorem proof_loses_nothing_bothOne : (bothOne.edges.take 2).Sublist bothOne.edges ∧
    ∀ fact ∈ checkedFacts (.ident 1 0) (.literal 2),
    (Entails (bothOne.edges.take 2) fact ↔ Entails bothOne.edges fact) ∧
      (entails fact (bothOne.edges.take 2) = true ↔ entails fact bothOne.edges = true) := by
  have hslice : bothOne.proof 1 (.ident 1 0) (.literal 2) = some (.ok (bothOne.edges.take 2)) := by decide
  have hholds : Satisfies (fun _ => 1) bothOne.edges := by
    unfold Satisfies Difference.Holds
    decide
  obtain ⟨hsublist, hfacts⟩ := (proof_loses_nothing bothOne ((IndexedConstraints.Built.empty.extend _).extend _)
    (.ident 1 0) (.literal 2)).2 1 _ hslice
  exact ⟨hsublist, hfacts ⟨_, hholds⟩⟩

end Blot.Relational
