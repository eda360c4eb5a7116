import Mathlib.Algebra.Order.Ring.Nat
import Mathlib.Data.Finset.Lattice.Lemmas
import Mathlib.Data.List.Duplicate
import Mathlib.Data.List.Pairwise
import Blot.Support.Checks
import Blot.Support.Worklist

/-!
# Reachable facts by strongly connected components

A graph whose nodes carry facts.  The search answers, for a root, which facts are on the nodes it leads to.  It walks
the graph depth first with an explicit stack, closes one strongly connected component at a time, and gives all nodes
of a component one answer: their own facts and the answers of the nodes they lead out to.  The answers are kept in a
cache that outlives the search and is read in the middle of it.

`step_sound` says that a round of the search keeps the invariant `Sound`, `search_exact` that the answers are right
and `search_finishes` that the search ends.
-/

namespace Blot.Support.Components

variable {V M : Type}

/-- A node of the search: what it is, the lowest position it is known to reach, whether its component is open, and
its children and facts. -/
structure Node (V M : Type) where
  id : V
  low : ℕ
  active : Bool
  children : List V
  members : List M

/-- The state of the search.  The two stacks are kept newest first. -/
structure Search (V M : Type) where
  indices : V → Option ℕ
  nodes : List (Node V M)
  active : List ℕ
  frames : List (ℕ × ℕ)
  cache : V → Option (Finset M)

def Search.idAt (s : Search V M) (i : ℕ) : Option V := s.nodes[i]?.map Node.id

def Search.lowAt (s : Search V M) (i : ℕ) : ℕ := (s.nodes[i]?.map Node.low).getD 0

def Search.path (s : Search V M) : List ℕ := s.frames.map Prod.fst

def Search.lower (s : Search V M) (i low : ℕ) : Search V M :=
  { s with nodes := s.nodes.modify i fun n => { n with low := min n.low low } }

/-- Pops the open positions down to `current`: the component, and what stays. -/
def popComponent (current : ℕ) : List ℕ → Option (List ℕ × List ℕ)
  | [] => none
  | member :: rest =>
    if member = current then some ([member], rest)
    else (popComponent current rest).map fun (component, rest) => (member :: component, rest)

section Search

variable [DecidableEq V] [DecidableEq M] (edges : V → List V × List M)

def Search.enter (s : Search V M) (id : V) : Search V M :=
  { s with
    indices := Function.update s.indices id (some s.nodes.length)
    nodes := s.nodes ++ [⟨id, s.nodes.length, true, (edges id).1, (edges id).2⟩]
    active := s.nodes.length :: s.active
    frames := (s.nodes.length, 0) :: s.frames }

/-- What a child adds to the answer of its component: nothing if it is one of it, else its own answer. -/
def Search.childAnswer (s : Search V M) (component : List ℕ) (child : V) : Option (Finset M) :=
  if (s.indices child).any (· ∈ component) then some ∅ else s.cache child

def Search.nodeAnswer (s : Search V M) (component : List ℕ) (i : ℕ) : Option (Finset M) := do
  let node ← s.nodes[i]?
  let answers ← node.children.mapM (s.childAnswer component)
  return answers.foldr (· ∪ ·) node.members.toFinset

def Search.componentAnswer (s : Search V M) (component : List ℕ) : Option (Finset M) := do
  let answers ← component.mapM (s.nodeAnswer component)
  return answers.foldr (· ∪ ·) ∅

def Search.Within (s : Search V M) (component : List ℕ) (v : V) : Prop := ∃ i ∈ component, s.idAt i = some v

instance (s : Search V M) (component : List ℕ) (v : V) : Decidable (s.Within component v) :=
  inferInstanceAs (Decidable (∃ i ∈ component, s.idAt i = some v))

/-- Closes a component: its nodes are no longer open, and the cache holds their answer. -/
def Search.settle (s : Search V M) (component rest : List ℕ) (answer : Finset M) : Search V M :=
  { s with
    nodes := s.nodes.mapIdx fun i n => if i ∈ component then { n with active := false } else n
    active := rest
    cache := fun v => if s.Within component v then some answer else s.cache v }

/-- Closes the component of `current`. -/
def Search.close (s : Search V M) (current : ℕ) : Option (Search V M) := do
  let (component, rest) ← popComponent current s.active
  let answer ← s.componentAnswer component
  return s.settle component rest answer

/-- The top frame comes to a child: one with an answer is passed, an open one may be lower, a new one is opened. -/
def Search.visit (current : ℕ) (child : V) (s : Search V M) : Option (Search V M) :=
  if (s.cache child).isSome then some s
  else
    match s.indices child with
    | some i => (s.nodes[i]?).map fun found => if found.active then s.lower current i else s
    | none => some (s.enter edges child)

def Search.tell (low : ℕ) (s : Search V M) : Search V M :=
  match s.frames with
  | [] => s
  | (parent, _) :: _ => s.lower parent low

/-- The top frame has ended: the lowest position of a component closes it. -/
def Search.leave (current low : ℕ) (s : Search V M) : Option (Search V M) :=
  (if low = current then s.close current else some s).map (·.tell low)

def Search.step (current next : ℕ) (rest : List (ℕ × ℕ)) (s : Search V M) : Option (Search V M) := do
  let node ← s.nodes[current]?
  match node.children[next]? with
  | some child => Search.visit edges current child { s with frames := (current, next + 1) :: rest }
  | none => Search.leave current node.low { s with frames := rest }

def run : ℕ → Search V M → Option (V → Option (Finset M))
  | 0, _ => none
  | fuel + 1, s =>
    match s.frames with
    | [] => some s.cache
    | (current, next) :: rest => do
      let s ← s.step edges current next rest
      run fuel s

/-- **The facts that a root leads to**, and the cache after the search. -/
def search (fuel : ℕ) (root : V) (cache : V → Option (Finset M)) :
    Option (Finset M × (V → Option (Finset M))) := do
  let s : Search V M := ⟨fun _ => none, [], [], [], cache⟩
  let cache ← run edges fuel (if (cache root).isSome then s else s.enter edges root)
  let answer ← cache root
  return (answer, cache)

end Search

/-! ### What the answers should be -/

section Answers

variable (edges : V → List V × List M)

abbrev Leads : V → V → Prop := LeadsTo fun v => (edges v).1

/-- A fact is on a node that `v` leads to. -/
def Holds (v : V) (m : M) : Prop := ∃ w, Leads edges v w ∧ m ∈ (edges w).2

def Exact (cache : V → Option (Finset M)) : Prop :=
  ∀ v answer, cache v = some answer → ∀ m, m ∈ answer ↔ Holds edges v m

variable {edges}

theorem Holds.of_leads {v w : V} {m : M} (hvw : Leads edges v w) (h : Holds edges w m) : Holds edges v m := by
  obtain ⟨x, hwx, hm⟩ := h
  exact ⟨x, hvw.trans hwx, hm⟩

theorem leads_child {v w c : V} (h : Leads edges v w) (hc : c ∈ (edges w).1) : Leads edges v c := h.tail hc

/-- Where two graphs agree on what a node leads to, it leads to the same nodes. -/
theorem leads_congr {edges' : V → List V × List M} {v : V}
    (h : ∀ w, Leads edges v w → edges' w = edges w) (w : V) : Leads edges' v w ↔ Leads edges v w := by
  constructor
  · intro hw
    induction hw with
    | refl => exact .refl
    | @tail b c _ hstep ih =>
      have hstep : c ∈ (edges' b).1 := hstep
      rw [h b ih] at hstep
      exact leads_child ih hstep
  · intro hw
    induction hw with
    | refl => exact .refl
    | @tail b c hvw hstep ih =>
      refine leads_child ih ?_
      rw [h b hvw]
      exact hstep

theorem holds_congr {edges' : V → List V × List M} {v : V}
    (h : ∀ w, Leads edges v w → edges' w = edges w) (m : M) : Holds edges' v m ↔ Holds edges v m := by
  constructor
  · rintro ⟨w, hw, hm⟩
    have hw' := (leads_congr h w).1 hw
    exact ⟨w, hw', h w hw' ▸ hm⟩
  · rintro ⟨w, hw, hm⟩
    exact ⟨w, (leads_congr h w).2 hw, by rwa [h w hw]⟩

end Answers

/-! ### The invariant of the search -/

section Fields

variable {s : Search V M}

@[simp] theorem Search.lower_frames (i low : ℕ) : (s.lower i low).frames = s.frames := rfl

theorem idAt_eq_some {i : ℕ} {v : V} : s.idAt i = some v ↔ ∃ n, s.nodes[i]? = some n ∧ n.id = v := by
  unfold Search.idAt
  rw [Option.map_eq_some_iff]

theorem lowAt_of_node {i : ℕ} {n : Node V M} (h : s.nodes[i]? = some n) : s.lowAt i = n.low := by
  unfold Search.lowAt
  rw [h]
  rfl

theorem idAt_of_node {i : ℕ} {n : Node V M} (h : s.nodes[i]? = some n) : s.idAt i = some n.id := by
  unfold Search.idAt
  rw [h]
  rfl

theorem getElem?_lower (s : Search V M) (i low j : ℕ) :
    (s.lower i low).nodes[j]? =
      (s.nodes[j]?).map fun n => if j = i then { n with low := min n.low low } else n := by
  unfold Search.lower
  rw [List.getElem?_modify]
  by_cases h : j = i
  · simp [h]
  · have h' : ¬ i = j := fun e => h e.symm
    simp [h, h']

@[simp] theorem idAt_lower (s : Search V M) (i low j : ℕ) : (s.lower i low).idAt j = s.idAt j := by
  unfold Search.idAt
  rw [getElem?_lower, Option.map_map]
  congr 1
  funext n
  by_cases h : j = i <;> simp [h]

theorem lowAt_lower (s : Search V M) {i j : ℕ} (low : ℕ) (hj : (s.idAt j).isSome) :
    (s.lower i low).lowAt j = if j = i then min (s.lowAt j) low else s.lowAt j := by
  obtain ⟨v, hv⟩ := Option.isSome_iff_exists.1 hj
  obtain ⟨n, hn, -⟩ := idAt_eq_some.1 hv
  rw [lowAt_of_node hn]
  by_cases h : j = i
  · rw [if_pos h, lowAt_of_node (n := { n with low := min n.low low })]
    rw [getElem?_lower, hn, Option.map_some, if_pos h]
  · rw [if_neg h, lowAt_of_node (n := n)]
    rw [getElem?_lower, hn, Option.map_some, if_neg h]

theorem lowAt_lower_le (s : Search V M) (i low j : ℕ) : (s.lower i low).lowAt j ≤ s.lowAt j := by
  cases h : s.nodes[j]? with
  | none =>
    unfold Search.lowAt
    rw [getElem?_lower, h]
    rfl
  | some n =>
    rw [lowAt_lower s low (by rw [idAt_of_node h]; rfl)]
    split
    · exact min_le_left _ _
    · exact le_rfl

theorem lower_eq (s : Search V M) {i low : ℕ} (h : s.lowAt i ≤ low) : s.lower i low = s := by
  have hnodes : (s.nodes.modify i fun n => { n with low := min n.low low }) = s.nodes := by
    refine List.ext_getElem? fun j => ?_
    rw [List.getElem?_modify]
    cases hj : s.nodes[j]? with
    | none => rfl
    | some n =>
      by_cases hi : i = j
      · subst hi
        rw [lowAt_of_node hj] at h
        simp [min_eq_left h]
      · simp [hi]
  unfold Search.lower
  rw [hnodes]

end Fields

section Invariant

variable (edges : V → List V × List M)

/-- What is at one position leads to what is at another. -/
def Search.Reaches (s : Search V M) (i j : ℕ) : Prop :=
  ∃ v w, s.idAt i = some v ∧ s.idAt j = some w ∧ Leads edges v w

/-- The search has looked at the child `c` of a position: at all of them where its frame is gone. -/
def Search.Scanned (s : Search V M) (i : ℕ) (c : V) : Prop :=
  ∃ v k, s.idAt i = some v ∧ (edges v).1[k]? = some c ∧ ∀ next, (i, next) ∈ s.frames → k < next

/-- **The invariant.**  `root` and `cache` are what the search started from; `owed` is the position and the child of
it that the top frame has just passed, for which the search has still to act. -/
structure Sound (root : V) (cache : V → Option (Finset M)) (owed : Option (ℕ × V)) (s : Search V M) : Prop where
  exact : Exact edges s.cache
  origin : ∀ v, (s.cache v).isSome → (cache v).isSome ∨ Leads edges root v
  edge : ∀ (i : ℕ) (n : Node V M), s.nodes[i]? = some n → n.children = (edges n.id).1 ∧ n.members = (edges n.id).2
  index : ∀ i v, s.indices v = some i ↔ s.idAt i = some v
  fromRoot : ∀ i v, s.idAt i = some v → Leads edges root v
  isOpen : ∀ (i : ℕ) (n : Node V M), s.nodes[i]? = some n → (n.active = true ↔ i ∈ s.active)
  inRange : ∀ i ∈ s.active, (s.idAt i).isSome
  closed : ∀ i v, s.idAt i = some v → i ∉ s.active → (s.cache v).isSome
  stack : s.active.Pairwise (· > ·)
  descending : s.path.Pairwise (· > ·)
  path_open : ∀ f ∈ s.path, f ∈ s.active
  low : ∀ i ∈ s.active, s.lowAt i ≤ i ∧ s.lowAt i ∈ s.active ∧ s.Reaches edges i (s.lowAt i)
  above : ∀ f ∈ s.path, ∀ i ∈ s.active, f ≤ i → s.Reaches edges f i
  finished : ∀ i ∈ s.active, i ∉ s.path → s.lowAt i < i ∧
    ∃ f ∈ s.path, f < i ∧ (∀ g ∈ s.path, g ≤ i → g ≤ f) ∧ s.lowAt f ≤ s.lowAt i
  scanned : ∀ i ∈ s.active, ∀ c, s.Scanned edges i c → (i, c) ∈ owed ∨ (s.cache c).isSome ∨
    ∃ j ∈ s.active, s.idAt j = some c ∧ s.lowAt i ≤ j

variable {edges} {root : V} {cache : V → Option (Finset M)} {owed : Option (ℕ × V)} {s : Search V M}

theorem Search.Reaches.trans {i j k : ℕ} (h : s.Reaches edges i j) (h' : s.Reaches edges j k) :
    s.Reaches edges i k := by
  obtain ⟨v, w, hv, hw, hvw⟩ := h
  obtain ⟨w', x, hw', hx, hwx⟩ := h'
  obtain rfl := Option.some.inj (hw.symm.trans hw')
  exact ⟨v, x, hv, hx, hvw.trans hwx⟩

theorem Search.Reaches.lower {i j k low : ℕ} (h : s.Reaches edges i j) : (s.lower k low).Reaches edges i j := by
  obtain ⟨v, w, hv, hw, hvw⟩ := h
  exact ⟨v, w, by rwa [idAt_lower], by rwa [idAt_lower], hvw⟩

theorem scanned_lower {i k low : ℕ} {c : V} : (s.lower k low).Scanned edges i c ↔ s.Scanned edges i c := by
  unfold Search.Scanned
  simp only [idAt_lower, Search.lower_frames]

/-! ### Moving along the children of the top frame -/

section Top

variable {current next : ℕ} {rest : List (ℕ × ℕ)}

theorem path_of_frames (hframes : s.frames = (current, next) :: rest) : s.path = current :: rest.map Prod.fst := by
  unfold Search.path
  rw [hframes]
  rfl

theorem Sound.lt_of_rest (h : Sound edges root cache owed s) (hframes : s.frames = (current, next) :: rest) :
    ∀ f ∈ rest.map Prod.fst, f < current := by
  have hdesc := h.descending
  rw [path_of_frames hframes] at hdesc
  exact (List.pairwise_cons.1 hdesc).1

theorem Sound.current_open (h : Sound edges root cache owed s) (hframes : s.frames = (current, next) :: rest) :
    current ∈ s.active := by
  apply h.path_open
  rw [path_of_frames hframes]
  exact List.mem_cons_self

/-- The top position has one frame. -/
theorem Sound.eq_next (h : Sound edges root cache owed s) (hframes : s.frames = (current, next) :: rest) {n : ℕ}
    (hn : (current, n) ∈ s.frames) : n = next := by
  rw [hframes] at hn
  rcases List.mem_cons.1 hn with heq | hmem
  · exact (Prod.mk.inj heq).2
  · have := h.lt_of_rest hframes current (List.mem_map_of_mem hmem)
    omega

theorem Sound.advance (h : Sound edges root cache none s) (hframes : s.frames = (current, next) :: rest) {v child : V}
    (hv : s.idAt current = some v) (hchild : (edges v).1[next]? = some child) :
    Sound edges root cache (some (current, child)) { s with frames := (current, next + 1) :: rest } := by
  have hpath : Search.path { s with frames := (current, next + 1) :: rest } = s.path := by
    rw [path_of_frames hframes]
    rfl
  refine
    { h with
      descending := hpath ▸ h.descending
      path_open := hpath ▸ h.path_open
      above := hpath ▸ h.above
      finished := hpath ▸ h.finished
      scanned := ?_ }
  rintro i hi c ⟨w, k, hw, hk, hlt⟩
  by_cases hic : i = current
  · subst hic
    obtain rfl := Option.some.inj (hw.symm.trans hv)
    have hknext : k < next + 1 := hlt _ List.mem_cons_self
    by_cases hkn : k = next
    · subst hkn
      obtain rfl := Option.some.inj (hk.symm.trans hchild)
      exact Or.inl rfl
    · refine (h.scanned i hi c ⟨w, k, hw, hk, fun n hn => ?_⟩).elim (fun h' => nomatch h') Or.inr
      rw [h.eq_next hframes hn]
      omega
  · refine (h.scanned i hi c ⟨w, k, hw, hk, fun n hn => hlt n ?_⟩).elim (fun h' => nomatch h') Or.inr
    rw [hframes] at hn
    rcases List.mem_cons.1 hn with heq | hmem
    · exact absurd (Prod.mk.inj heq).1 hic
    · exact List.mem_cons_of_mem _ hmem

end Top

theorem Sound.meet {current : ℕ} {child : V} (h : Sound edges root cache (some (current, child)) s)
    (hchild : (s.cache child).isSome ∨ ∃ j ∈ s.active, s.idAt j = some child ∧ s.lowAt current ≤ j) :
    Sound edges root cache none s := by
  refine { h with scanned := fun i hi c hc => ?_ }
  rcases h.scanned i hi c hc with howed | hc
  · obtain ⟨rfl, rfl⟩ := Prod.mk.inj (Option.some.inj howed)
    exact Or.inr hchild
  · exact Or.inr hc

theorem Sound.lower (h : Sound edges root cache owed s) {i j : ℕ} (hi : i ∈ s.path) (hj : j ∈ s.active)
    (hij : s.Reaches edges i j) : Sound edges root cache owed (s.lower i j) where
  exact := h.exact
  origin := h.origin
  edge k n hn := by
    rw [getElem?_lower] at hn
    obtain ⟨n₀, hn₀, rfl⟩ := Option.map_eq_some_iff.1 hn
    have hedge := h.edge k n₀ hn₀
    split <;> exact hedge
  index k v := by rw [idAt_lower]; exact h.index k v
  fromRoot k v hv := h.fromRoot k v (by rwa [idAt_lower] at hv)
  isOpen k n hn := by
    rw [getElem?_lower] at hn
    obtain ⟨n₀, hn₀, rfl⟩ := Option.map_eq_some_iff.1 hn
    have hopen := h.isOpen k n₀ hn₀
    split <;> exact hopen
  inRange k hk := by rw [idAt_lower]; exact h.inRange k hk
  closed k v hv hk := h.closed k v (by rwa [idAt_lower] at hv) hk
  stack := h.stack
  descending := h.descending
  path_open := h.path_open
  low k hk := by
    obtain ⟨hle, hmem, hreach⟩ := h.low k hk
    rw [lowAt_lower s j (h.inRange k hk)]
    split
    · next hki =>
      subst hki
      rcases le_total (s.lowAt k) j with hlow | hlow
      · rw [min_eq_left hlow]
        exact ⟨hle, hmem, hreach.lower⟩
      · rw [min_eq_right hlow]
        exact ⟨hlow.trans hle, hj, hij.lower⟩
    · exact ⟨hle, hmem, hreach.lower⟩
  above f hf k hk hle := (h.above f hf k hk hle).lower
  finished k hk hpath := by
    obtain ⟨hlt, f, hf, hfk, hmax, hlow⟩ := h.finished k hk hpath
    have hki : k ≠ i := fun e => hpath (e ▸ hi)
    have hkeep : (s.lower i j).lowAt k = s.lowAt k := by rw [lowAt_lower s j (h.inRange k hk), if_neg hki]
    rw [hkeep]
    exact ⟨hlt, f, hf, hfk, hmax, (lowAt_lower_le s i j f).trans hlow⟩
  scanned k hk c hc := by
    rcases h.scanned k hk c (scanned_lower.1 hc) with howed | hcached | ⟨j', hj', hid, hlow⟩
    · exact Or.inl howed
    · exact Or.inr (Or.inl hcached)
    · exact Or.inr (Or.inr ⟨j', hj', by rwa [idAt_lower], (lowAt_lower_le s i j k).trans hlow⟩)

/-! ### Opening a node -/

section Enter

variable [DecidableEq V] {id : V}

theorem getElem?_enter (s : Search V M) (id : V) (j : ℕ) :
    (s.enter edges id).nodes[j]? =
      if j = s.nodes.length then some ⟨id, s.nodes.length, true, (edges id).1, (edges id).2⟩ else s.nodes[j]? := by
  unfold Search.enter
  by_cases h : j = s.nodes.length
  · rw [if_pos h, h, List.getElem?_concat_length]
  · rw [if_neg h]
    rcases Nat.lt_or_gt_of_ne h with hlt | hgt
    · exact List.getElem?_append_left hlt
    · rw [List.getElem?_eq_none hgt.le, List.getElem?_eq_none]
      simp only [List.length_append, List.length_cons, List.length_nil]
      omega

theorem idAt_enter (s : Search V M) (id : V) (j : ℕ) :
    (s.enter edges id).idAt j = if j = s.nodes.length then some id else s.idAt j := by
  unfold Search.idAt
  rw [getElem?_enter]
  split <;> rfl

theorem lowAt_enter (s : Search V M) (id : V) (j : ℕ) :
    (s.enter edges id).lowAt j = if j = s.nodes.length then s.nodes.length else s.lowAt j := by
  unfold Search.lowAt
  rw [getElem?_enter]
  split <;> rfl

omit [DecidableEq V] in
theorem lt_of_idAt {i : ℕ} (h : (s.idAt i).isSome) : i < s.nodes.length := by
  unfold Search.idAt at h
  rw [Option.isSome_map] at h
  exact (List.getElem?_eq_some_iff.1 (Option.isSome_iff_exists.1 h).choose_spec).1

theorem Search.Reaches.enter {i j : ℕ} (h : s.Reaches edges i j) : (s.enter edges id).Reaches edges i j := by
  obtain ⟨v, w, hv, hw, hvw⟩ := h
  have hi := lt_of_idAt (Option.isSome_iff_exists.2 ⟨v, hv⟩)
  have hj := lt_of_idAt (Option.isSome_iff_exists.2 ⟨w, hw⟩)
  refine ⟨v, w, ?_, ?_, hvw⟩
  · rw [idAt_enter, if_neg (by omega), hv]
  · rw [idAt_enter, if_neg (by omega), hw]

theorem Sound.enter (h : Sound edges root cache owed s) (hnew : s.indices id = none) (hroot : Leads edges root id)
    (hpath : ∀ f ∈ s.path, ∃ v, s.idAt f = some v ∧ Leads edges v id) (howed : ∀ p ∈ owed, p.2 = id) :
    Sound edges root cache none (s.enter edges id) where
  exact := h.exact
  origin := h.origin
  edge i n hn := by
    rw [getElem?_enter] at hn
    split at hn
    · obtain rfl := Option.some.inj hn
      exact ⟨rfl, rfl⟩
    · exact h.edge i n hn
  index i v := by
    rw [idAt_enter]
    show Function.update s.indices id (some s.nodes.length) v = some i ↔ _
    by_cases hv : v = id
    · subst hv
      rw [Function.update_self]
      constructor
      · intro hi
        rw [if_pos (Option.some.inj hi).symm]
      · intro hi
        split at hi
        · next heq => rw [heq]
        · exact absurd ((h.index i v).2 hi) (by rw [hnew]; exact nofun)
    · rw [Function.update_of_ne hv, h.index i v]
      split
      · next heq =>
        constructor
        · intro hi
          have := lt_of_idAt (Option.isSome_iff_exists.2 ⟨v, hi⟩)
          omega
        · exact fun hi => absurd (Option.some.inj hi).symm hv
      · exact Iff.rfl
  fromRoot i v hv := by
    rw [idAt_enter] at hv
    split at hv
    · exact Option.some.inj hv ▸ hroot
    · exact h.fromRoot i v hv
  isOpen i n hn := by
    show n.active = true ↔ i ∈ s.nodes.length :: s.active
    rw [getElem?_enter] at hn
    rw [List.mem_cons]
    split at hn
    · next heq =>
      obtain rfl := Option.some.inj hn
      exact ⟨fun _ => Or.inl heq, fun _ => rfl⟩
    · next hne => rw [h.isOpen i n hn, or_iff_right hne]
  inRange i hi := by
    rw [idAt_enter]
    split
    · rfl
    · next hne => exact h.inRange i ((List.mem_cons.1 hi).resolve_left hne)
  closed i v hv hi := by
    obtain ⟨hne, hi⟩ := not_or.1 fun hmem => hi (List.mem_cons.2 hmem)
    rw [idAt_enter, if_neg hne] at hv
    exact h.closed i v hv hi
  stack := List.pairwise_cons.2 ⟨fun i hi => lt_of_idAt (h.inRange i hi), h.stack⟩
  descending := List.pairwise_cons.2 ⟨fun f hf => lt_of_idAt (h.inRange f (h.path_open f hf)), h.descending⟩
  path_open f hf := by
    rcases List.mem_cons.1 hf with rfl | hf
    · exact List.mem_cons_self
    · exact List.mem_cons_of_mem _ (h.path_open f hf)
  low i hi := by
    rw [lowAt_enter]
    split
    · next heq =>
      refine ⟨heq.ge, List.mem_cons_self, id, id, ?_, ?_, .refl⟩
      · rw [idAt_enter, if_pos heq]
      · rw [idAt_enter, if_pos rfl]
    · next hne =>
      obtain ⟨hle, hmem, hreach⟩ := h.low i ((List.mem_cons.1 hi).resolve_left hne)
      exact ⟨hle, List.mem_cons_of_mem _ hmem, hreach.enter⟩
  above f hf i hi hle := by
    rcases List.mem_cons.1 hf with rfl | hf
    · have hi : i = s.nodes.length := by
        refine (List.mem_cons.1 hi).resolve_right fun hi => ?_
        have := lt_of_idAt (h.inRange i hi)
        omega
      refine ⟨id, id, ?_, ?_, .refl⟩
      · rw [idAt_enter, if_pos rfl]
      · rw [idAt_enter, if_pos hi]
    · rcases List.mem_cons.1 hi with rfl | hi
      · obtain ⟨v, hv, hlead⟩ := hpath f hf
        have hlt := lt_of_idAt (h.inRange f (h.path_open f hf))
        refine ⟨v, id, ?_, ?_, hlead⟩
        · rw [idAt_enter, if_neg hlt.ne, hv]
        · rw [idAt_enter, if_pos rfl]
      · exact (h.above f hf i hi hle).enter
  finished i hi hout := by
    obtain ⟨hne, hout⟩ := not_or.1 fun hmem => hout (List.mem_cons.2 hmem)
    have hi := (List.mem_cons.1 hi).resolve_left hne
    obtain ⟨hlt, f, hf, hfi, hmax, hlow⟩ := h.finished i hi hout
    have hrange := lt_of_idAt (h.inRange i hi)
    rw [lowAt_enter, if_neg hne]
    refine ⟨hlt, f, List.mem_cons_of_mem _ hf, hfi, fun g hg hgi => ?_, ?_⟩
    · rcases List.mem_cons.1 hg with rfl | hg
      · omega
      · exact hmax g hg hgi
    · rw [lowAt_enter, if_neg (by omega)]
      exact hlow
  scanned := by
    rintro i hi c ⟨v, k, hv, hk, hlt⟩
    right
    rw [idAt_enter] at hv
    split at hv
    · next heq =>
      -- none of the children of the new node is passed yet
      have := hlt 0 (heq ▸ List.mem_cons_self)
      omega
    · next hne =>
      have hi := (List.mem_cons.1 hi).resolve_left hne
      have hrange := lt_of_idAt (h.inRange i hi)
      have hlow := (h.low i hi).1
      rw [lowAt_enter, if_neg hne]
      rcases h.scanned i hi c ⟨v, k, hv, hk, fun n hn => hlt n (List.mem_cons_of_mem _ hn)⟩ with
        howe | hcached | ⟨j, hj, hid, hle⟩
      · obtain rfl := howed _ howe
        refine Or.inr ⟨s.nodes.length, List.mem_cons_self, ?_, by omega⟩
        rw [idAt_enter, if_pos rfl]
      · exact Or.inl hcached
      · refine Or.inr ⟨j, List.mem_cons_of_mem _ hj, ?_, hle⟩
        have := lt_of_idAt (h.inRange j hj)
        rw [idAt_enter, if_neg (by omega), hid]

end Enter

/-! ### Leaving a node -/

section Leave

variable {current next : ℕ} {rest : List (ℕ × ℕ)}

/-- The children of a position above the path, and of the top one at its end, have all been looked at. -/
theorem Sound.scanned_of_end (h : Sound edges root cache none s) (hframes : s.frames = (current, next) :: rest)
    {v : V} (hv : s.idAt current = some v) (hend : (edges v).1[next]? = none) {i : ℕ} (hi : i ∈ s.active)
    (hle : current ≤ i) {w c : V} (hw : s.idAt i = some w) (hc : c ∈ (edges w).1) :
    (s.cache c).isSome ∨ ∃ j ∈ s.active, s.idAt j = some c ∧ s.lowAt i ≤ j := by
  obtain ⟨k, hk⟩ := List.mem_iff_getElem?.1 hc
  refine (h.scanned i hi c ⟨w, k, hw, hk, fun n hn => ?_⟩).resolve_left fun howe => nomatch howe
  have hic : i = current := by
    rw [hframes] at hn
    rcases List.mem_cons.1 hn with heq | hmem
    · exact (Prod.mk.inj heq).1
    · have := h.lt_of_rest hframes i (List.mem_map_of_mem hmem)
      omega
  subst hic
  obtain rfl := Option.some.inj (hw.symm.trans hv)
  rw [h.eq_next hframes hn]
  have hklt := (List.getElem?_eq_some_iff.1 hk).1
  have hlen := List.getElem?_eq_none_iff.1 hend
  omega

theorem Sound.finished_above (h : Sound edges root cache owed s) (hframes : s.frames = (current, next) :: rest)
    {i : ℕ} (hi : i ∈ s.active) (hlt : current < i) : s.lowAt i < i ∧ s.lowAt current ≤ s.lowAt i := by
  have hpath := path_of_frames hframes
  have hout : i ∉ s.path := by
    intro hmem
    rw [hpath] at hmem
    rcases List.mem_cons.1 hmem with rfl | hmem
    · omega
    · have := h.lt_of_rest hframes i hmem
      omega
  obtain ⟨hlow, f, hf, -, hmax, hle⟩ := h.finished i hi hout
  have hcf : current ≤ f := hmax current (hpath ▸ List.mem_cons_self) hlt.le
  have hfc : f = current := by
    rw [hpath] at hf
    rcases List.mem_cons.1 hf with rfl | hf
    · rfl
    · have := h.lt_of_rest hframes f hf
      omega
  exact ⟨hlow, hfc ▸ hle⟩

/-- The top frame ends at a position that reaches a lower one: it stays open, below the frame under it. -/
theorem Sound.pop (h : Sound edges root cache none s) {parent n : ℕ} {rest' : List (ℕ × ℕ)}
    (hframes : s.frames = (current, next) :: (parent, n) :: rest') {v : V} (hv : s.idAt current = some v)
    (hend : (edges v).1[next]? = none) (hlow : s.lowAt current ≠ current)
    (hparent : s.lowAt parent ≤ s.lowAt current) :
    Sound edges root cache none { s with frames := (parent, n) :: rest' } := by
  have hpath := path_of_frames hframes
  have hcurrent := h.current_open hframes
  have hbelow := h.lt_of_rest hframes
  have hdesc := h.descending
  rw [hpath] at hdesc
  have hdesc := (List.pairwise_cons.1 hdesc).2
  have hsub : ∀ f ∈ ((parent, n) :: rest').map Prod.fst, f ∈ s.path := by
    intro f hf
    rw [hpath]
    exact List.mem_cons_of_mem _ hf
  have htop : ∀ g ∈ ((parent, n) :: rest').map Prod.fst, g ≤ parent := by
    intro g hg
    rcases List.mem_cons.1 hg with rfl | hg
    · exact le_rfl
    · exact ((List.pairwise_cons.1 hdesc).1 g hg).le
  have hpc : parent < current := hbelow parent List.mem_cons_self
  refine
    { h with
      descending := hdesc
      path_open := fun f hf => h.path_open f (hsub f hf)
      above := fun f hf => h.above f (hsub f hf)
      finished := fun i hi hout => ?_
      scanned := ?_ }
  · by_cases hic : i = current
    · subst hic
      have hlt := lt_of_le_of_ne (h.low i hi).1 hlow
      exact ⟨hlt, parent, List.mem_cons_self, hpc, fun g hg _ => htop g hg, hparent⟩
    · have hnot : i ∉ s.path := by
        rw [hpath]
        exact fun hmem => (List.mem_cons.1 hmem).elim hic hout
      obtain ⟨hlt, f, hf, hfi, hmax, hle⟩ := h.finished i hi hnot
      refine ⟨hlt, ?_⟩
      rw [hpath] at hf
      rcases List.mem_cons.1 hf with rfl | hf
      · exact ⟨parent, List.mem_cons_self, by omega, fun g hg _ => htop g hg, hparent.trans hle⟩
      · exact ⟨f, hf, hfi, fun g hg => hmax g (hsub g hg), hle⟩
  · rintro i hi c ⟨w, k, hw, hk, hlt⟩
    by_cases hic : i = current
    · subst hic
      exact Or.inr (h.scanned_of_end hframes hv hend hi le_rfl hw (List.mem_of_getElem? hk))
    · refine h.scanned i hi c ⟨w, k, hw, hk, fun m hm => hlt m ?_⟩
      rw [hframes] at hm
      rcases List.mem_cons.1 hm with heq | hmem
      · exact absurd (Prod.mk.inj heq).1 hic
      · exact hmem

/-- The open positions from `current` on, and those before it. -/
theorem popComponent_spec {active : List ℕ} (hdesc : active.Pairwise (· > ·)) (hmem : current ∈ active) :
    ∃ component rest, popComponent current active = some (component, rest) ∧
      (∀ i, i ∈ component ↔ i ∈ active ∧ current ≤ i) ∧ (∀ i, i ∈ rest ↔ i ∈ active ∧ i < current) ∧
      rest.Pairwise (· > ·) := by
  induction active with
  | nil => cases hmem
  | cons member active ih =>
    obtain ⟨hhead, htail⟩ := List.pairwise_cons.1 hdesc
    rw [popComponent]
    by_cases heq : member = current
    · subst heq
      rw [if_pos rfl]
      refine ⟨[member], active, rfl, fun i => ?_, fun i => ?_, htail⟩
      · rw [List.mem_singleton, List.mem_cons]
        constructor
        · rintro rfl
          exact ⟨Or.inl rfl, le_rfl⟩
        · rintro ⟨rfl | hi, hle⟩
          · rfl
          · have := hhead i hi
            omega
      · rw [List.mem_cons]
        constructor
        · exact fun hi => ⟨Or.inr hi, hhead i hi⟩
        · rintro ⟨rfl | hi, hlt⟩
          · omega
          · exact hi
    · have hmem : current ∈ active := (List.mem_cons.1 hmem).resolve_left fun e => heq e.symm
      have hgt := hhead current hmem
      obtain ⟨component, rest, hpop, hcomponent, hrest, hsorted⟩ := ih htail hmem
      rw [if_neg heq, hpop]
      refine ⟨member :: component, rest, rfl, fun i => ?_, fun i => ?_, hsorted⟩
      · rw [List.mem_cons, List.mem_cons, hcomponent]
        constructor
        · rintro (rfl | ⟨hi, hle⟩)
          · exact ⟨Or.inl rfl, hgt.le⟩
          · exact ⟨Or.inr hi, hle⟩
        · rintro ⟨rfl | hi, hle⟩
          · exact Or.inl rfl
          · exact Or.inr ⟨hi, hle⟩
      · rw [List.mem_cons, hrest]
        constructor
        · exact fun ⟨hi, hlt⟩ => ⟨Or.inr hi, hlt⟩
        · rintro ⟨rfl | hi, hlt⟩
          · omega
          · exact ⟨hi, hlt⟩

theorem Sound.connected (h : Sound edges root cache none s) (hframes : s.frames = (current, next) :: rest)
    (hlow : s.lowAt current = current) {i : ℕ} (hi : i ∈ s.active) (hle : current ≤ i) :
    s.Reaches edges current i ∧ s.Reaches edges i current := by
  have hcurrent := h.current_open hframes
  have hpath : current ∈ s.path := path_of_frames hframes ▸ List.mem_cons_self
  refine ⟨h.above current hpath i hi hle, ?_⟩
  -- the lowest position that one reaches is in the component too, and lower
  induction i using Nat.strong_induction_on with
  | h i ih =>
    rcases hle.lt_or_eq with hlt | rfl
    · obtain ⟨hdown, habove⟩ := h.finished_above hframes hi hlt
      obtain ⟨-, hmem, hreach⟩ := h.low i hi
      exact hreach.trans (ih (s.lowAt i) hdown hmem (by omega))
    · obtain ⟨v, hv⟩ := Option.isSome_iff_exists.1 (h.inRange current hi)
      exact ⟨v, v, hv, hv, .refl⟩

end Leave

/-! ### The answer of a component -/

section Answer

variable {component : List ℕ}

theorem exists_mapM {α : Type} {f : α → Option (Finset M)} {as : List α} (h : ∀ a ∈ as, (f a).isSome) :
    ∃ answers, as.mapM f = some answers ∧
      ∀ m, (∃ answer ∈ answers, m ∈ answer) ↔ ∃ a ∈ as, ∃ b, f a = some b ∧ m ∈ b := by
  refine ⟨as.map fun a => (f a).getD ∅, mapM_eq_some_map fun a ha => ?_, fun m => ?_⟩
  · obtain ⟨b, hb⟩ := Option.isSome_iff_exists.1 (h a ha)
    rw [hb]
    rfl
  · simp only [List.mem_map, exists_exists_and_eq_and]
    refine exists_congr fun a => and_congr_right fun ha => ?_
    obtain ⟨b, hb⟩ := Option.isSome_iff_exists.1 (h a ha)
    rw [hb]
    exact ⟨fun hm => ⟨b, rfl, hm⟩, fun ⟨b', hb', hm⟩ => Option.some.inj hb' ▸ hm⟩

/-- Where the nodes of a component lead to each other, and out of it only to nodes with right answers, its answer is
right for each of them. -/
theorem holds_component {C : V → Prop} (hexact : Exact edges s.cache)
    (hconnected : ∀ v w, C v → C w → Leads edges v w)
    (hout : ∀ v, C v → ∀ c ∈ (edges v).1, C c ∨ (s.cache c).isSome) {v : V} (hv : C v) (m : M) :
    Holds edges v m ↔ ∃ w, C w ∧
      (m ∈ (edges w).2 ∨ ∃ c ∈ (edges w).1, ¬ C c ∧ ∃ b, s.cache c = some b ∧ m ∈ b) := by
  constructor
  · rintro ⟨x, hvx, hm⟩
    -- along the path to the fact: the last node that is in the component
    induction hvx using Relation.ReflTransGen.head_induction_on with
    | refl => exact ⟨x, hv, Or.inl hm⟩
    | @head a c hac hcx ih =>
      have hac : c ∈ (edges a).1 := hac
      by_cases hc : C c
      · exact ih hc
      · obtain ⟨b, hb⟩ := Option.isSome_iff_exists.1 ((hout a hv c hac).resolve_left hc)
        exact ⟨a, hv, Or.inr ⟨c, hac, hc, b, hb, (hexact c b hb m).2 ⟨x, hcx, hm⟩⟩⟩
  · rintro ⟨w, hw, hm | ⟨c, hc, -, b, hb, hm⟩⟩
    · exact ⟨w, hconnected v w hv hw, hm⟩
    · exact Holds.of_leads (leads_child (hconnected v w hv hw) hc) ((hexact c b hb m).1 hm)

theorem Sound.childAnswer_eq (h : Sound edges root cache owed s) (component : List ℕ) (c : V) :
    (s.Within component c ∧ s.childAnswer component c = some ∅) ∨
      (¬ s.Within component c ∧ s.childAnswer component c = s.cache c) := by
  unfold Search.childAnswer Search.Within
  cases hi : s.indices c with
  | none =>
    refine Or.inr ⟨?_, rfl⟩
    rintro ⟨i, -, hid⟩
    rw [(h.index i c).2 hid] at hi
    cases hi
  | some i =>
    have hid := (h.index i c).1 hi
    by_cases hmem : i ∈ component
    · refine Or.inl ⟨⟨i, hmem, hid⟩, ?_⟩
      simp [hmem]
    · refine Or.inr ⟨?_, by simp [hmem]⟩
      rintro ⟨j, hj, hjd⟩
      have hji := Option.some.inj (((h.index j c).2 hjd).symm.trans hi)
      exact hmem (hji ▸ hj)

variable [DecidableEq V]

theorem getElem?_settle (s : Search V M) (component rest : List ℕ) (answer : Finset M) (j : ℕ) :
    (s.settle component rest answer).nodes[j]? =
      (s.nodes[j]?).map fun n => if j ∈ component then { n with active := false } else n := by
  unfold Search.settle
  rw [List.getElem?_mapIdx]

@[simp] theorem idAt_settle (s : Search V M) (component rest : List ℕ) (answer : Finset M) (j : ℕ) :
    (s.settle component rest answer).idAt j = s.idAt j := by
  unfold Search.idAt
  rw [getElem?_settle, Option.map_map]
  congr 1
  funext n
  by_cases h : j ∈ component <;> simp [h]

@[simp] theorem lowAt_settle (s : Search V M) (component rest : List ℕ) (answer : Finset M) (j : ℕ) :
    (s.settle component rest answer).lowAt j = s.lowAt j := by
  unfold Search.lowAt
  rw [getElem?_settle, Option.map_map]
  congr 2
  funext n
  by_cases h : j ∈ component <;> simp [h]

theorem Search.Reaches.settle {rest : List ℕ} {answer : Finset M} {i j : ℕ} (h : s.Reaches edges i j) :
    (s.settle component rest answer).Reaches edges i j := by
  obtain ⟨v, w, hv, hw, hvw⟩ := h
  exact ⟨v, w, by rwa [idAt_settle], by rwa [idAt_settle], hvw⟩

theorem cache_settle (s : Search V M) (component rest : List ℕ) (answer : Finset M) (v : V) :
    (s.settle component rest answer).cache v = if s.Within component v then some answer else s.cache v := rfl

theorem isSome_cache_settle {rest : List ℕ} {answer : Finset M} {v : V} (h : (s.cache v).isSome) :
    ((s.settle component rest answer).cache v).isSome := by
  rw [cache_settle]
  split
  · rfl
  · exact h

variable [DecidableEq M]

theorem mem_foldr_union {answers : List (Finset M)} {base : Finset M} {m : M} :
    m ∈ answers.foldr (· ∪ ·) base ↔ m ∈ base ∨ ∃ answer ∈ answers, m ∈ answer := by
  induction answers with
  | nil => simp
  | cons answer answers ih =>
    rw [List.foldr_cons, Finset.mem_union, ih, List.exists_mem_cons_iff]
    exact or_left_comm

omit [DecidableEq V] in
/-- A fact is in the answer of a component when it is on one of its nodes, or in the answer of a node that one of them
leads out to. -/
theorem Sound.componentAnswer_spec (h : Sound edges root cache owed s) (hrange : ∀ i ∈ component, (s.idAt i).isSome)
    (hout : ∀ v, s.Within component v → ∀ c ∈ (edges v).1, s.Within component c ∨ (s.cache c).isSome) :
    ∃ answer, s.componentAnswer component = some answer ∧ ∀ m, m ∈ answer ↔ ∃ v, s.Within component v ∧
      (m ∈ (edges v).2 ∨ ∃ c ∈ (edges v).1, ¬ s.Within component c ∧ ∃ b, s.cache c = some b ∧ m ∈ b) := by
  have hnode : ∀ i ∈ component, ∃ v answer, s.idAt i = some v ∧ s.nodeAnswer component i = some answer ∧
      ∀ m, m ∈ answer ↔
        m ∈ (edges v).2 ∨ ∃ c ∈ (edges v).1, ¬ s.Within component c ∧ ∃ b, s.cache c = some b ∧ m ∈ b := by
    intro i hi
    obtain ⟨v, hv⟩ := Option.isSome_iff_exists.1 (hrange i hi)
    obtain ⟨n, hn, rfl⟩ := idAt_eq_some.1 hv
    obtain ⟨hchildren, hmembers⟩ := h.edge i n hn
    have hsome : ∀ c ∈ n.children, (s.childAnswer component c).isSome := by
      intro c hc
      rcases h.childAnswer_eq component c with ⟨-, heq⟩ | ⟨hnot, heq⟩
      · rw [heq]
        rfl
      · rw [heq]
        exact (hout n.id ⟨i, hi, hv⟩ c (hchildren ▸ hc)).resolve_left hnot
    obtain ⟨answers, hanswers, hmem⟩ := exists_mapM hsome
    refine ⟨n.id, answers.foldr (· ∪ ·) n.members.toFinset, hv, ?_, fun m => ?_⟩
    · unfold Search.nodeAnswer
      rw [hn, Option.bind_eq_bind, Option.bind_some, hanswers]
      rfl
    · rw [mem_foldr_union, hmem, List.mem_toFinset, hmembers, hchildren]
      refine or_congr_right (exists_congr fun c => and_congr_right fun _ => ?_)
      rcases h.childAnswer_eq component c with ⟨hin, heq⟩ | ⟨hnot, heq⟩
      · rw [heq]
        constructor
        · rintro ⟨b, hb, hm⟩
          obtain rfl := Option.some.inj hb
          exact absurd hm (Finset.notMem_empty m)
        · exact fun hc => absurd hin hc.1
      · rw [heq]
        exact ⟨fun hm => ⟨hnot, hm⟩, fun hm => hm.2⟩
  have hsome : ∀ i ∈ component, (s.nodeAnswer component i).isSome := by
    intro i hi
    obtain ⟨-, answer, -, heq, -⟩ := hnode i hi
    rw [heq]
    rfl
  obtain ⟨answers, hanswers, hmem⟩ := exists_mapM hsome
  refine ⟨answers.foldr (· ∪ ·) ∅, ?_, fun m => ?_⟩
  · unfold Search.componentAnswer
    rw [hanswers]
    rfl
  · rw [mem_foldr_union, hmem]
    constructor
    · rintro (hm | ⟨i, hi, answer, heq, hm⟩)
      · exact absurd hm (Finset.notMem_empty m)
      · obtain ⟨v, answer', hv, heq', hiff⟩ := hnode i hi
        obtain rfl := Option.some.inj (heq.symm.trans heq')
        exact ⟨v, ⟨i, hi, hv⟩, (hiff m).1 hm⟩
    · rintro ⟨v, ⟨i, hi, hv⟩, hm⟩
      obtain ⟨v', answer, hv', heq, hiff⟩ := hnode i hi
      obtain rfl := Option.some.inj (hv.symm.trans hv')
      exact Or.inr ⟨i, hi, answer, heq, (hiff m).2 hm⟩

/-! ### Closing a component -/

variable {current next : ℕ} {rest : List (ℕ × ℕ)}

omit [DecidableEq M] in
/-- The positions from the top one on get the answer that is right for them, and are closed. -/
theorem Sound.settle (h : Sound edges root cache none s) (hframes : s.frames = (current, next) :: rest)
    {stay : List ℕ} {answer : Finset M} (hcomponent : ∀ i, i ∈ component ↔ i ∈ s.active ∧ current ≤ i)
    (hstay : ∀ i, i ∈ stay ↔ i ∈ s.active ∧ i < current) (hsorted : stay.Pairwise (· > ·))
    (hright : ∀ w, s.Within component w → ∀ m, m ∈ answer ↔ Holds edges w m) :
    Sound edges root cache none (Search.settle { s with frames := rest } component stay answer) := by
  have hpath := path_of_frames hframes
  have hrest : ∀ f ∈ rest.map Prod.fst, f ∈ s.path := by
    intro f hf
    rw [hpath]
    exact List.mem_cons_of_mem _ hf
  have hdesc := h.descending
  rw [hpath] at hdesc
  have hkeep : ∀ i j, s.Reaches edges i j →
      (Search.settle { s with frames := rest } component stay answer).Reaches edges i j :=
    fun i j hij => Search.Reaches.settle (s := { s with frames := rest }) hij
  exact {
    exact := by
      intro w a ha m
      rw [cache_settle] at ha
      split at ha
      · next hw =>
        obtain rfl := Option.some.inj ha
        exact hright w hw m
      · exact h.exact w a ha m
    origin := by
      intro w hw
      rw [cache_settle] at hw
      split at hw
      · next hin =>
        obtain ⟨i, -, hid⟩ := hin
        exact Or.inr (h.fromRoot i w hid)
      · exact h.origin w hw
    edge := by
      intro i n hn
      rw [getElem?_settle] at hn
      obtain ⟨n₀, hn₀, rfl⟩ := Option.map_eq_some_iff.1 hn
      have hedge := h.edge i n₀ hn₀
      split <;> exact hedge
    index := fun i w => by
      rw [idAt_settle]
      exact h.index i w
    fromRoot := fun i w hw => h.fromRoot i w (by rwa [idAt_settle] at hw)
    isOpen := by
      intro i n hn
      rw [getElem?_settle] at hn
      obtain ⟨n₀, hn₀, rfl⟩ := Option.map_eq_some_iff.1 hn
      have hopen := h.isOpen i n₀ hn₀
      show _ ↔ i ∈ stay
      rw [hstay]
      by_cases hi : i ∈ component
      · rw [if_pos hi]
        have := ((hcomponent i).1 hi).2
        exact ⟨fun hfalse => absurd hfalse Bool.false_ne_true, fun hboth => absurd hboth.2 (by omega)⟩
      · rw [if_neg hi, hopen]
        refine ⟨fun hact => ⟨hact, ?_⟩, fun hboth => hboth.1⟩
        by_contra hge
        exact hi ((hcomponent i).2 ⟨hact, by omega⟩)
    inRange := fun i hi => by
      rw [idAt_settle]
      exact h.inRange i ((hstay i).1 hi).1
    closed := by
      intro i w hw hi
      rw [idAt_settle] at hw
      by_cases hact : i ∈ s.active
      · have hge : current ≤ i := by
          by_contra hlt
          exact hi ((hstay i).2 ⟨hact, by omega⟩)
        rw [cache_settle, if_pos ⟨i, (hcomponent i).2 ⟨hact, hge⟩, hw⟩]
        rfl
      · exact isSome_cache_settle (h.closed i w hw hact)
    stack := hsorted
    descending := (List.pairwise_cons.1 hdesc).2
    path_open := fun f hf => (hstay f).2 ⟨h.path_open f (hrest f hf), h.lt_of_rest hframes f hf⟩
    low := by
      intro i hi
      obtain ⟨hact, hlt⟩ := (hstay i).1 hi
      obtain ⟨hle, hmem, hreach⟩ := h.low i hact
      rw [lowAt_settle]
      exact ⟨hle, (hstay _).2 ⟨hmem, lt_of_le_of_lt hle hlt⟩, hkeep _ _ hreach⟩
    above := fun f hf i hi hle => hkeep f i (h.above f (hrest f hf) i ((hstay i).1 hi).1 hle)
    finished := by
      intro i hi hnot
      obtain ⟨hact, hlt⟩ := (hstay i).1 hi
      have hnot' : i ∉ s.path := by
        intro hmem
        rw [hpath] at hmem
        rcases List.mem_cons.1 hmem with rfl | hmem
        · omega
        · exact hnot hmem
      obtain ⟨hdown, f, hf, hfi, hmax, hle⟩ := h.finished i hact hnot'
      rw [lowAt_settle]
      refine ⟨hdown, f, ?_, hfi, fun g hg => hmax g (hrest g hg), by rwa [lowAt_settle]⟩
      rw [hpath] at hf
      rcases List.mem_cons.1 hf with rfl | hf
      · omega
      · exact hf
    scanned := by
      rintro i hi c ⟨w, k, hw, hk, hlt⟩
      obtain ⟨hact, hbelow⟩ := (hstay i).1 hi
      rw [idAt_settle] at hw
      refine Or.inr ?_
      have hscanned : s.Scanned edges i c := by
        refine ⟨w, k, hw, hk, fun n hn => hlt n ?_⟩
        rw [hframes] at hn
        rcases List.mem_cons.1 hn with heq | hmem
        · have := (Prod.mk.inj heq).1
          omega
        · exact hmem
      rcases h.scanned i hact c hscanned with howe | hcached | ⟨j, hj, hid, hle⟩
      · exact absurd howe nofun
      · exact Or.inl (isSome_cache_settle hcached)
      · by_cases hjc : current ≤ j
        · refine Or.inl ?_
          rw [cache_settle, if_pos ⟨j, (hcomponent j).2 ⟨hj, hjc⟩, hid⟩]
          rfl
        · exact Or.inr ⟨j, (hstay j).2 ⟨hj, by omega⟩, by rwa [idAt_settle], by rwa [lowAt_settle]⟩ }

/-- The top frame ends at a position that reaches no lower one: the positions from it on are a component, and all of
them get its answer. -/
theorem Sound.close (h : Sound edges root cache none s) (hframes : s.frames = (current, next) :: rest) {v : V}
    (hv : s.idAt current = some v) (hend : (edges v).1[next]? = none) (hlow : s.lowAt current = current) :
    ∃ component stay answer, Search.close { s with frames := rest } current =
        some (Search.settle { s with frames := rest } component stay answer) ∧
      Sound edges root cache none (Search.settle { s with frames := rest } component stay answer) := by
  have hcurrent := h.current_open hframes
  obtain ⟨component, stay, hpop, hcomponent, hstay, hsorted⟩ := popComponent_spec h.stack hcurrent
  have hrange : ∀ i ∈ component, (s.idAt i).isSome := fun i hi => h.inRange i ((hcomponent i).1 hi).1
  -- nothing in the component leads to an open position below it
  have hout : ∀ w, s.Within component w → ∀ c ∈ (edges w).1, s.Within component c ∨ (s.cache c).isSome := by
    rintro w ⟨i, hi, hw⟩ c hc
    obtain ⟨hopen, hle⟩ := (hcomponent i).1 hi
    rcases h.scanned_of_end hframes hv hend hopen hle hw hc with hcached | ⟨j, hj, hid, hij⟩
    · exact Or.inr hcached
    · have hlowi : current ≤ s.lowAt i := by
        rcases hle.lt_or_eq with hlt | rfl
        · have := (h.finished_above hframes hopen hlt).2
          omega
        · omega
      exact Or.inl ⟨j, (hcomponent j).2 ⟨hj, by omega⟩, hid⟩
  have hconnected : ∀ w x, s.Within component w → s.Within component x → Leads edges w x := by
    rintro w x ⟨i, hi, hw⟩ ⟨j, hj, hx⟩
    have hi := (hcomponent i).1 hi
    have hj := (hcomponent j).1 hj
    obtain ⟨w', x', hw', hx', hlead⟩ :=
      (h.connected hframes hlow hi.1 hi.2).2.trans (h.connected hframes hlow hj.1 hj.2).1
    obtain rfl := Option.some.inj (hw.symm.trans hw')
    obtain rfl := Option.some.inj (hx.symm.trans hx')
    exact hlead
  obtain ⟨answer, hanswer, hspec⟩ := h.componentAnswer_spec hrange hout
  have hright : ∀ w, s.Within component w → ∀ m, m ∈ answer ↔ Holds edges w m := fun w hw m =>
    (hspec m).trans (holds_component h.exact hconnected hout hw m).symm
  have hanswer' : Search.componentAnswer { s with frames := rest } component = some answer := hanswer
  refine ⟨component, stay, answer, ?_, h.settle hframes hcomponent hstay hsorted hright⟩
  simp only [Search.close, hpop, hanswer', Option.bind_eq_bind, Option.bind_some, Option.pure_def]
end Answer

/-! ### Rounds and runs -/

section Rounds

variable {current next : ℕ} {rest : List (ℕ × ℕ)}

/-- What is left to do: the nodes that are not opened, and the children that the frames have not passed. -/
def Search.remaining (whole width : ℕ) (s : Search V M) : ℕ :=
  (whole - s.nodes.length) * (width + 2) + (s.frames.map fun f => width - f.2 + 1).sum

theorem Sound.length_le (h : Sound edges root cache owed s) {whole : List V}
    (hwhole : ∀ v, Leads edges root v → v ∈ whole) : s.nodes.length ≤ whole.length := by
  have hnodup : (s.nodes.map Node.id).Nodup := by
    refine List.nodup_iff_getElem?_ne_getElem?.2 fun i j hij hj heq => ?_
    rw [List.length_map] at hj
    obtain ⟨n, hn⟩ : ∃ n, s.nodes[i]? = some n := ⟨_, List.getElem?_eq_getElem (hij.trans hj)⟩
    have hv := idAt_of_node hn
    have hw : s.idAt j = s.idAt i := by
      unfold Search.idAt
      rw [← List.getElem?_map, ← List.getElem?_map, heq]
    have hi := (h.index i _).2 hv
    have hj := (h.index j _).2 (hw.trans hv)
    have := Option.some.inj (hi.symm.trans hj)
    omega
  have hsub : ∀ v ∈ s.nodes.map Node.id, v ∈ whole := by
    intro v hv
    obtain ⟨n, hn, rfl⟩ := List.mem_map.1 hv
    obtain ⟨i, hi⟩ := List.mem_iff_getElem?.1 hn
    exact hwhole _ (h.fromRoot i _ (idAt_of_node hi))
  rw [← List.length_map (f := Node.id)]
  exact (hnodup.subperm hsub).length_le

theorem remaining_advance {whole width : ℕ} (hframes : s.frames = (current, next) :: rest) (hlt : next < width) :
    Search.remaining whole width { s with frames := (current, next + 1) :: rest } <
      Search.remaining whole width s := by
  unfold Search.remaining
  rw [hframes]
  simp only [List.map_cons, List.sum_cons]
  omega

theorem remaining_pop {whole width : ℕ} (hframes : s.frames = (current, next) :: rest) :
    Search.remaining whole width { s with frames := rest } < Search.remaining whole width s := by
  unfold Search.remaining
  rw [hframes]
  simp only [List.map_cons, List.sum_cons]
  omega

theorem remaining_lower {whole width : ℕ} (s : Search V M) (i low : ℕ) :
    (s.lower i low).remaining whole width = s.remaining whole width := by
  unfold Search.remaining Search.lower
  rw [List.length_modify]

variable [DecidableEq V]

theorem remaining_enter {whole width : ℕ} (s : Search V M) (id : V) (hlt : s.nodes.length < whole) :
    (s.enter edges id).remaining whole width < s.remaining whole width := by
  obtain ⟨left, hleft⟩ : ∃ left, whole - s.nodes.length = left + 1 := ⟨whole - s.nodes.length - 1, by omega⟩
  have hlength : (s.enter edges id).nodes.length = s.nodes.length + 1 := by
    unfold Search.enter
    exact List.length_append
  have hleft' : whole - (s.enter edges id).nodes.length = left := by omega
  unfold Search.remaining
  rw [hleft, hleft', Nat.succ_mul]
  show left * (width + 2) + (((s.nodes.length, 0) :: s.frames).map fun f => width - f.2 + 1).sum < _
  rw [List.map_cons, List.sum_cons]
  omega

theorem remaining_settle {whole width : ℕ} (s : Search V M) (component rest : List ℕ) (answer : Finset M) :
    (s.settle component rest answer).remaining whole width = s.remaining whole width := by
  unfold Search.remaining Search.settle
  rw [List.length_mapIdx]

theorem isSome_indices_enter_self (s : Search V M) (id : V) : ((s.enter edges id).indices id).isSome := by
  show Option.isSome (Function.update s.indices id (some s.nodes.length) id)
  rw [Function.update_self]
  rfl

theorem isSome_indices_enter {id v : V} (hv : (s.indices v).isSome) : ((s.enter edges id).indices v).isSome := by
  show Option.isSome (Function.update s.indices id (some s.nodes.length) v)
  by_cases h : v = id
  · rw [h, Function.update_self]
    rfl
  · rwa [Function.update_of_ne h]

variable [DecidableEq M]

/-- What one round is to leave behind. -/
structure Progress (edges : V → List V × List M) (root : V) (cache : V → Option (Finset M)) (whole width : ℕ)
    (s s' : Search V M) : Prop where
  sound : Sound edges root cache none s'
  less : s'.remaining whole width < s.remaining whole width
  indices : ∀ v, (s.indices v).isSome → (s'.indices v).isSome

/-- A round at a child. -/
theorem Sound.step_child (h : Sound edges root cache none s) (hframes : s.frames = (current, next) :: rest)
    {n : Node V M} (hn : s.nodes[current]? = some n) {child : V} (hchild : n.children[next]? = some child)
    {whole : List V} (hwhole : ∀ v, Leads edges root v → v ∈ whole) {width : ℕ} (hwidth : n.children.length ≤ width) :
    ∃ s', s.step edges current next rest = some s' ∧ Progress edges root cache whole.length width s s' := by
  have hv := idAt_of_node hn
  obtain ⟨hchildren, -⟩ := h.edge current n hn
  have hcurrent := h.current_open hframes
  have hless : Search.remaining whole.length width { s with frames := (current, next + 1) :: rest } <
      s.remaining whole.length width :=
    remaining_advance hframes ((List.getElem?_eq_some_iff.1 hchild).1.trans_le hwidth)
  have hadv := h.advance hframes hv (hchildren ▸ hchild)
  have hmem : child ∈ (edges n.id).1 := hchildren ▸ List.mem_of_getElem? hchild
  have hstep : s.step edges current next rest =
      Search.visit edges current child { s with frames := (current, next + 1) :: rest } := by
    simp only [Search.step, hn, hchild, Option.bind_eq_bind, Option.bind_some]
  rw [hstep]
  unfold Search.visit
  by_cases hcached : (s.cache child).isSome
  · rw [if_pos hcached]
    exact ⟨_, rfl, hadv.meet (Or.inl hcached), hless, fun v hv => hv⟩
  rw [if_neg hcached]
  cases hi : s.indices child with
  | some i =>
    have hid := (h.index i child).1 hi
    obtain ⟨found, hfound, -⟩ := idAt_eq_some.1 hid
    have hopen : i ∈ s.active := by
      by_contra hnot
      exact hcached (h.closed i child hid hnot)
    simp only [hfound, Option.map_some, (h.isOpen i found hfound).2 hopen, if_true]
    refine ⟨_, rfl, ?_, ?_, fun v hv => hv⟩
    · have hreach : s.Reaches edges current i := ⟨n.id, child, hv, hid, leads_child .refl hmem⟩
      refine (hadv.lower List.mem_cons_self hopen hreach).meet (Or.inr ⟨i, hopen, ?_, ?_⟩)
      · rw [idAt_lower]
        exact hid
      · have hlow := lowAt_lower (i := current) { s with frames := (current, next + 1) :: rest } i
          (h.inRange current hcurrent)
        rw [if_pos rfl] at hlow
        exact hlow.le.trans (min_le_right _ _)
    · rw [remaining_lower]
      exact hless
  | none =>
    have hlead : Leads edges root child := leads_child (h.fromRoot current n.id hv) hmem
    have hent := hadv.enter hi hlead (fun f hf => ?_) (fun p hp => ?_)
    · refine ⟨_, rfl, hent, ?_, fun v hv => isSome_indices_enter hv⟩
      have hlength := hent.length_le hwhole
      rw [Search.enter, List.length_append] at hlength
      exact (remaining_enter { s with frames := (current, next + 1) :: rest } child hlength).trans hless
    · have hle : f ≤ current := by
        rcases List.mem_cons.1 hf with rfl | hf
        · exact le_rfl
        · exact (h.lt_of_rest hframes f hf).le
      have hf : f ∈ s.path := path_of_frames hframes ▸ hf
      obtain ⟨w, x, hw, hx, hwx⟩ := h.above f hf current hcurrent hle
      obtain rfl := Option.some.inj (hx.symm.trans hv)
      exact ⟨w, hw, leads_child hwx hmem⟩
    · obtain rfl := Option.some.inj hp
      rfl

theorem Sound.step_end (h : Sound edges root cache none s) (hframes : s.frames = (current, next) :: rest)
    {n : Node V M} (hn : s.nodes[current]? = some n) (hend : n.children[next]? = none) (whole width : ℕ) :
    ∃ s', s.step edges current next rest = some s' ∧ Progress edges root cache whole width s s' := by
  have hv := idAt_of_node hn
  obtain ⟨hchildren, -⟩ := h.edge current n hn
  have hstep : s.step edges current next rest = Search.leave current n.low { s with frames := rest } := by
    simp only [Search.step, hn, hend, Option.bind_eq_bind, Option.bind_some]
  rw [hstep]
  rw [hchildren] at hend
  have hcurrent := h.current_open hframes
  have hlowAt := lowAt_of_node hn
  have hless : Search.remaining whole width { s with frames := rest } < s.remaining whole width :=
    remaining_pop hframes
  unfold Search.leave
  by_cases hlow : n.low = current
  · rw [if_pos hlow]
    obtain ⟨component, stay, answer, hclose, hsound⟩ := h.close hframes hv hend (hlowAt.trans hlow)
    rw [hclose]
    have hprogress : Progress edges root cache whole width s
        (Search.settle { s with frames := rest } component stay answer) :=
      ⟨hsound, by rwa [remaining_settle], fun v hv => hv⟩
    cases rest with
    | nil => exact ⟨_, rfl, hprogress⟩
    | cons frame rest =>
      obtain ⟨parent, m⟩ := frame
      -- the component's position tells its parent nothing new
      have hsame : (Search.settle { s with frames := (parent, m) :: rest } component stay answer).lower parent n.low =
          Search.settle { s with frames := (parent, m) :: rest } component stay answer := by
        apply lower_eq
        rw [lowAt_settle, hlow]
        have hlt := h.lt_of_rest hframes parent List.mem_cons_self
        have hparent : parent ∈ s.path := by
          rw [path_of_frames hframes]
          exact List.mem_cons_of_mem _ List.mem_cons_self
        exact (h.low parent (h.path_open parent hparent)).1.trans hlt.le
      exact ⟨_, congrArg some hsame, hprogress⟩
  · rw [if_neg hlow]
    have hne : s.lowAt current ≠ current := hlowAt ▸ hlow
    obtain ⟨hle, hmem, hreach⟩ := h.low current hcurrent
    cases rest with
    | nil =>
      -- the first position has none below it
      obtain ⟨f, hf, hfl⟩ : ∃ f ∈ s.path, f ≤ s.lowAt current := by
        by_cases hin : s.lowAt current ∈ s.path
        · exact ⟨_, hin, le_rfl⟩
        · obtain ⟨-, f, hf, hlt, -⟩ := h.finished _ hmem hin
          exact ⟨f, hf, hlt.le⟩
      rw [path_of_frames hframes] at hf
      obtain rfl := List.mem_singleton.1 hf
      omega
    | cons frame rest =>
      obtain ⟨parent, m⟩ := frame
      have hparent : parent ∈ s.path := by
        rw [path_of_frames hframes]
        exact List.mem_cons_of_mem _ List.mem_cons_self
      have hpc := h.lt_of_rest hframes parent List.mem_cons_self
      have hlower := h.lower hparent hmem ((h.above parent hparent current hcurrent hpc.le).trans hreach)
      have hkeep : (s.lower parent (s.lowAt current)).lowAt current = s.lowAt current := by
        rw [lowAt_lower _ _ (h.inRange current hcurrent), if_neg hpc.ne']
      have hpop := hlower.pop (v := n.id) (by rw [Search.lower_frames, hframes]) (by rw [idAt_lower, hv]) hend
        (by rwa [hkeep]) (by
          rw [hkeep, lowAt_lower _ _ (h.inRange parent (h.path_open parent hparent)), if_pos rfl]
          exact min_le_right _ _)
      refine ⟨Search.lower { s with frames := (parent, m) :: rest } parent n.low, rfl, ?_, ?_, fun v hv => hv⟩
      · rw [← hlowAt]
        exact hpop
      · rw [remaining_lower]
        exact hless

/-- **A round keeps the invariant**, and there is less left to do. -/
theorem Sound.step (h : Sound edges root cache none s) (hframes : s.frames = (current, next) :: rest)
    {whole : List V} (hwhole : ∀ v, Leads edges root v → v ∈ whole) {width : ℕ}
    (hwidth : ∀ v ∈ whole, (edges v).1.length ≤ width) :
    ∃ s', s.step edges current next rest = some s' ∧ Progress edges root cache whole.length width s s' := by
  obtain ⟨v, hv⟩ := Option.isSome_iff_exists.1 (h.inRange current (h.current_open hframes))
  obtain ⟨n, hn, rfl⟩ := idAt_eq_some.1 hv
  cases hchild : n.children[next]? with
  | none => exact h.step_end hframes hn hchild whole.length width
  | some child =>
    refine h.step_child hframes hn hchild hwhole ?_
    rw [(h.edge current n hn).1]
    exact hwidth n.id (hwhole _ (h.fromRoot current n.id hv))

variable {whole : List V} {width : ℕ}

/-- A run that has finished answers rightly for the root, and keeps the answers it started with. -/
theorem Sound.of_run (h : Sound edges root cache none s) (hroot : (s.indices root).isSome)
    (hwhole : ∀ v, Leads edges root v → v ∈ whole) (hwidth : ∀ v ∈ whole, (edges v).1.length ≤ width) {fuel : ℕ}
    {cache' : V → Option (Finset M)} (hrun : run edges fuel s = some cache') :
    Exact edges cache' ∧ (cache' root).isSome ∧ ∀ v, (cache' v).isSome → (cache v).isSome ∨ Leads edges root v := by
  induction fuel generalizing s with
  | zero => cases hrun
  | succ fuel ih =>
    rw [run] at hrun
    cases hframes : s.frames with
    | nil =>
      rw [hframes] at hrun
      obtain rfl := Option.some.inj hrun
      refine ⟨h.exact, ?_, h.origin⟩
      obtain ⟨i, hi⟩ := Option.isSome_iff_exists.1 hroot
      refine h.closed i root ((h.index i root).1 hi) fun hopen => ?_
      -- an open position would have a frame
      have hpath : s.path = [] := by
        unfold Search.path
        rw [hframes]
        rfl
      obtain ⟨-, f, hf, -⟩ := h.finished i hopen (by simp [hpath])
      simp [hpath] at hf
    | cons frame rest =>
      obtain ⟨current, next⟩ := frame
      obtain ⟨s', hstep, hprogress⟩ := h.step hframes hwhole hwidth
      simp only [hframes, hstep, Option.bind_eq_bind, Option.bind_some] at hrun
      exact ih hprogress.sound (hprogress.indices root hroot) hrun

/-- **Enough rounds**: one for everything that is left to do, and one to end. -/
theorem Sound.run_finishes (h : Sound edges root cache none s) (hwhole : ∀ v, Leads edges root v → v ∈ whole)
    (hwidth : ∀ v ∈ whole, (edges v).1.length ≤ width) {fuel : ℕ}
    (hfuel : s.remaining whole.length width < fuel) : ∃ cache', Components.run edges fuel s = some cache' := by
  induction fuel generalizing s with
  | zero => omega
  | succ fuel ih =>
    rw [Components.run]
    cases hframes : s.frames with
    | nil => exact ⟨s.cache, rfl⟩
    | cons frame rest =>
      obtain ⟨current, next⟩ := frame
      obtain ⟨s', hstep, hprogress⟩ := h.step hframes hwhole hwidth
      have hless := hprogress.less
      simp only [hstep, Option.bind_eq_bind, Option.bind_some]
      exact ih hprogress.sound (by omega)

omit [DecidableEq M] in
theorem sound_start (hcache : Exact edges cache) :
    Sound edges root cache none (Search.enter edges ⟨fun _ => none, [], [], [], cache⟩ root) := by
  have hempty : Sound edges root cache none (⟨fun _ => none, [], [], [], cache⟩ : Search V M) := by
    refine ⟨hcache, fun v hv => Or.inl hv, ?_, ?_, ?_, ?_, ?_, ?_, .nil, .nil, ?_, ?_, ?_, ?_, ?_⟩
    all_goals simp [Search.idAt, Search.path]
  refine hempty.enter rfl .refl (fun f hf => ?_) (fun p hp => ?_)
  · exact absurd hf List.not_mem_nil
  · exact absurd hp nofun

end Rounds

end Invariant

/-! ### The search -/

section Search

variable [DecidableEq V] [DecidableEq M] {edges : V → List V × List M} {cache cache' : V → Option (Finset M)} {root : V}
  {whole : List V} {width fuel : ℕ}

theorem search_eq {answer : Finset M} (h : search edges fuel root cache = some (answer, cache')) :
    run edges fuel (if (cache root).isSome then ⟨fun _ => none, [], [], [], cache⟩
      else Search.enter edges ⟨fun _ => none, [], [], [], cache⟩ root) = some cache' ∧ cache' root = some answer := by
  unfold search at h
  obtain ⟨c, hrun, h⟩ := Option.bind_eq_some_iff.1 h
  obtain ⟨a, ha, h⟩ := Option.bind_eq_some_iff.1 h
  obtain ⟨rfl, rfl⟩ := Prod.mk.inj (Option.some.inj h)
  exact ⟨hrun, ha⟩

/-- **The answers of a search are right**, those it returns and those it leaves behind, and what it adds to the cache
is what its root leads to. -/
theorem search_exact (hcache : Exact edges cache) (hwhole : ∀ v, Leads edges root v → v ∈ whole)
    (hwidth : ∀ v ∈ whole, (edges v).1.length ≤ width) {answer : Finset M}
    (h : search edges fuel root cache = some (answer, cache')) :
    (∀ m, m ∈ answer ↔ Holds edges root m) ∧ Exact edges cache' ∧
      ∀ v, (cache' v).isSome → (cache v).isSome ∨ Leads edges root v := by
  obtain ⟨hrun, hanswer⟩ := search_eq h
  split at hrun
  · cases fuel with
    | zero => cases hrun
    | succ fuel =>
      obtain rfl := Option.some.inj hrun
      exact ⟨hcache root answer hanswer, hcache, fun v hv => Or.inl hv⟩
  · obtain ⟨hexact, -, horigin⟩ := (sound_start hcache).of_run (isSome_indices_enter_self _ root) hwhole hwidth hrun
    exact ⟨hexact root answer hanswer, hexact, horigin⟩

/-- **The search ends**: some number of rounds is enough, and so is every larger one. -/
theorem search_finishes (hcache : Exact edges cache) (hwhole : ∀ v, Leads edges root v → v ∈ whole)
    (hwidth : ∀ v ∈ whole, (edges v).1.length ≤ width) :
    ∃ n, ∀ fuel ≥ n, ∃ answer cache', search edges fuel root cache = some (answer, cache') := by
  by_cases hroot : (cache root).isSome
  · obtain ⟨answer, hanswer⟩ := Option.isSome_iff_exists.1 hroot
    refine ⟨1, fun fuel hfuel => ⟨answer, cache, ?_⟩⟩
    obtain ⟨fuel, rfl⟩ := Nat.exists_eq_add_of_le' hfuel
    simp only [search, hanswer, Option.isSome_some, if_true, run, Option.bind_eq_bind, Option.bind_some]
    rfl
  · refine ⟨(Search.enter edges ⟨fun _ => none, [], [], [], cache⟩ root).remaining whole.length width + 1,
      fun fuel hfuel => ?_⟩
    obtain ⟨cache', hrun⟩ := (sound_start hcache).run_finishes hwhole hwidth (Nat.lt_of_succ_le hfuel)
    obtain ⟨-, hanswered, -⟩ := (sound_start hcache).of_run (isSome_indices_enter_self _ root) hwhole hwidth hrun
    obtain ⟨answer, hanswer⟩ := Option.isSome_iff_exists.1 hanswered
    refine ⟨answer, cache', ?_⟩
    simp only [search, hroot, hrun, hanswer, Option.bind_eq_bind, Option.bind_some, Bool.false_eq_true, if_false]
    rfl

end Search

end Blot.Support.Components
