import Mathlib.Data.Finset.Sort
import Blot.Support.Components
import Blot.Typecheck.Walks

/-!
# Reachable member requirements (`member_constraints.rs`)

`reachableMemberRequirements` answers by strongly connected components over a cache that outlives the query, and
`hasMemberRequirements` by a walk that stops at the first obligation.  A `Session` is a checker with that cache;
`Session.Step` has one case for each thing that changes the bound graph or the obligations, with what the source does
to the cache there, and one for a query.  In every session the cache is right (`Session.Sound`), so that both queries
agree with plain reachability: `Checker.Reachable`.
-/

namespace Blot.Typecheck

open Blot.Support Checker

/-! ### The queries -/

/-- The obligations of a variable that are not discharged, in order of registration. -/
def MemberConstraints.pendingOf (m : MemberConstraints) (v : ℕ) : List (ℕ × MemberRequirement Ty) :=
  ((m.watched v).sort (· ≤ ·)).filterMap fun id =>
    match m.entries[id]? with
    | some entry => if entry.discharged then none else some (id, entry.requirement)
    | none => none

/-- `member_graph_edges`: the children of a type in the graph, and the obligations it carries. -/
def memberGraphEdges (s : Checker) : Ty → List Ty × List ℕ
  | .var v =>
    let pending := s.memberConstraints.pendingOf v
    ((s.variableOf v).lower ++ (s.variableOf v).upper ++ pending.flatMap fun p => [p.2.subject, p.2.member],
      pending.map Prod.fst)
  | .qualified rs body => (body :: rs.flatMap fun r => [r.subject, r.member], [])
  | t => (t.children, [])

/-- A checker with the answers of earlier queries (`member_reachability`), and the checkpoints that a rollback may go
back to, newest first. -/
structure Session where
  checker : Checker
  memberReachability : Ty → Option (Finset ℕ)
  checkpoints : List Checker

def reachableMemberRequirements (fuel : ℕ) (t : Ty) (s : Session) : Option (List (MemberRequirement Ty) × Session) := do
  let (ids, cache) ← Components.search (memberGraphEdges s.checker) fuel t s.memberReachability
  return ((ids.sort (· ≤ ·)).filterMap fun id => (s.checker.memberConstraints.entries[id]?).map (·.requirement),
    { s with memberReachability := cache })

/-- What `walk_member_variables` puts on its stack: the structure of a type, the bounds of a variable. -/
def memberSuccessors (s : Checker) : Ty → List Ty
  | .var v => (s.variableOf v).lower ++ (s.variableOf v).upper
  | .qualified rs body => body :: rs.flatMap fun r => [r.subject, r.member]
  | t => t.children

/-- `walk_member_variables`: whether the walk meets a variable at which `visit` stops it. -/
def walkMemberVariables (s : Checker) (visit : ℕ → Bool) : ℕ → List Ty → List Ty → Option Bool
  | _, [], _ => some false
  | 0, _ :: _, _ => none
  | fuel + 1, t :: pending, visited =>
    if t ∈ visited then walkMemberVariables s visit fuel pending visited
    else if t.asVar.any visit then some true
    else walkMemberVariables s visit fuel ((memberSuccessors s t).reverse ++ pending) (t :: visited)

def hasMemberRequirements (fuel : ℕ) (t : Ty) (s : Checker) : Option Bool :=
  walkMemberVariables s (fun v => !(s.memberConstraints.pendingOf v).isEmpty) fuel [t] []

/-! ### What they should answer -/

namespace Checker

/-- The pending obligation `r`, registered as `id`, hangs on the variable `v`. -/
def Attached (s : Checker) (v id : ℕ) (r : MemberRequirement Ty) : Prop :=
  id ∈ s.memberConstraints.watched v ∧ s.memberConstraints.entries[id]? = some ⟨r, false⟩

/-- A type leads to another: by its structure, by the bounds of a variable, or by an obligation of a variable. -/
inductive Touches (s : Checker) : Ty → Ty → Prop
  | child {t c : Ty} (h : c ∈ t.children) : Touches s t c
  | bound {v : ℕ} {d : BoundDirection} {c : Ty} (h : c ∈ s.bounds v d) : Touches s (.var v) c
  | subject {v id : ℕ} {r : MemberRequirement Ty} (h : s.Attached v id r) : Touches s (.var v) r.subject
  | member {v id : ℕ} {r : MemberRequirement Ty} (h : s.Attached v id r) : Touches s (.var v) r.member

/-- The pending obligation `r`, registered as `id`, hangs on a variable that `t` leads to. -/
def Reachable (s : Checker) (t : Ty) (id : ℕ) (r : MemberRequirement Ty) : Prop :=
  ∃ v, Relation.ReflTransGen s.Touches t (.var v) ∧ s.Attached v id r

/-- All variables that a type leads to are in the arena, which the source indexes with them. -/
def InArena (s : Checker) (t : Ty) : Prop :=
  ∀ v, Relation.ReflTransGen s.Touches t (.var v) → v < s.arena.length

end Checker

theorem mem_pendingOf {s : Checker} {v id : ℕ} {r : MemberRequirement Ty} :
    (id, r) ∈ s.memberConstraints.pendingOf v ↔ s.Attached v id r := by
  unfold MemberConstraints.pendingOf Checker.Attached
  rw [List.mem_filterMap]
  constructor
  · rintro ⟨i, hi, hsome⟩
    rw [Finset.mem_sort] at hi
    split at hsome
    · next entry hentry =>
      split at hsome
      · cases hsome
      · next hpending =>
        obtain ⟨rfl, rfl⟩ := Prod.mk.inj (Option.some.inj hsome)
        refine ⟨hi, hentry.trans ?_⟩
        rw [← Bool.eq_false_iff.2 hpending]
    · cases hsome
  · rintro ⟨hid, hentry⟩
    refine ⟨id, (Finset.mem_sort _).2 hid, ?_⟩
    rw [hentry]
    rfl

theorem mem_requirement_children {rs : List (MemberRequirement Ty)} {body c : Ty} :
    (c ∈ body :: rs.flatMap fun r => [r.subject, r.member]) ↔ c ∈ (Ty.qualified rs body).children := by
  rw [Ty.children, List.mem_append, List.mem_singleton, List.mem_cons]
  exact or_comm

theorem mem_bounds_iff {s : Checker} {v : ℕ} {c : Ty} :
    c ∈ (s.variableOf v).lower ++ (s.variableOf v).upper ↔ ∃ d, c ∈ s.bounds v d := by
  rw [List.mem_append]
  constructor
  · rintro (h | h)
    · exact ⟨.lower, h⟩
    · exact ⟨.upper, h⟩
  · rintro ⟨d, h⟩
    cases d with
    | lower => exact Or.inl h
    | upper => exact Or.inr h

/-- What the walk puts on its stack. -/
theorem mem_memberSuccessors {s : Checker} {t c : Ty} :
    c ∈ memberSuccessors s t ↔ c ∈ t.children ∨ ∃ v d, t = .var v ∧ c ∈ s.bounds v d := by
  unfold memberSuccessors
  split
  · next v =>
    rw [mem_bounds_iff]
    constructor
    · exact fun ⟨d, h⟩ => Or.inr ⟨v, d, rfl, h⟩
    · rintro (h | ⟨w, d, heq, h⟩)
      · cases h
      · cases heq
        exact ⟨d, h⟩
  · next rs body =>
    rw [mem_requirement_children]
    refine (or_iff_left ?_).symm
    rintro ⟨v, d, heq, -⟩
    cases heq
  · next hvar _ =>
    refine (or_iff_left ?_).symm
    rintro ⟨v, d, rfl, -⟩
    exact hvar v rfl

theorem mem_edges_fst {s : Checker} {t c : Ty} : c ∈ (memberGraphEdges s t).1 ↔ s.Touches t c := by
  have hstructure : s.Touches t c ↔ (c ∈ t.children ∨ ∃ v d, t = .var v ∧ c ∈ s.bounds v d) ∨
      ∃ v id r, t = .var v ∧ s.Attached v id r ∧ (c = r.subject ∨ c = r.member) := by
    constructor
    · rintro (h | h | h | h)
      · exact Or.inl (Or.inl h)
      · exact Or.inl (Or.inr ⟨_, _, rfl, h⟩)
      · exact Or.inr ⟨_, _, _, rfl, h, Or.inl rfl⟩
      · exact Or.inr ⟨_, _, _, rfl, h, Or.inr rfl⟩
    · rintro ((h | ⟨v, d, rfl, h⟩) | ⟨v, id, r, rfl, h, rfl | rfl⟩)
      · exact .child h
      · exact .bound h
      · exact .subject h
      · exact .member h
  rw [hstructure, ← mem_memberSuccessors]
  cases t with
  | var v =>
    show c ∈ (s.variableOf v).lower ++ (s.variableOf v).upper ++ _ ↔ _
    rw [List.mem_append]
    refine or_congr Iff.rfl ?_
    rw [List.mem_flatMap]
    constructor
    · rintro ⟨⟨id, r⟩, hmem, hc⟩
      exact ⟨v, id, r, rfl, mem_pendingOf.1 hmem, by simpa using hc⟩
    · rintro ⟨w, id, r, heq, hattached, hc⟩
      cases heq
      exact ⟨(id, r), mem_pendingOf.2 hattached, by simpa using hc⟩
  | _ =>
    refine (or_iff_left ?_).symm
    rintro ⟨v, id, r, heq, -⟩
    cases heq

theorem mem_edges_snd {s : Checker} {t : Ty} {id : ℕ} :
    id ∈ (memberGraphEdges s t).2 ↔ ∃ v r, t = .var v ∧ s.Attached v id r := by
  cases t with
  | var v =>
    show id ∈ (s.memberConstraints.pendingOf v).map Prod.fst ↔ _
    rw [List.mem_map]
    constructor
    · rintro ⟨⟨i, r⟩, hmem, rfl⟩
      exact ⟨v, r, rfl, mem_pendingOf.1 hmem⟩
    · rintro ⟨w, r, heq, hattached⟩
      cases heq
      exact ⟨(id, r), mem_pendingOf.2 hattached, rfl⟩
  | _ =>
    constructor
    · exact fun h => absurd h List.not_mem_nil
    · rintro ⟨v, r, heq, -⟩
      cases heq

theorem leads_iff {s : Checker} {t c : Ty} :
    Components.Leads (memberGraphEdges s) t c ↔ Relation.ReflTransGen s.Touches t c := by
  have hrel : (fun a b => b ∈ (memberGraphEdges s a).1) = s.Touches := by
    funext a b
    exact propext mem_edges_fst
  show Relation.ReflTransGen (fun a b => b ∈ (memberGraphEdges s a).1) t c ↔ _
  rw [hrel]

theorem holds_iff {s : Checker} {t : Ty} {id : ℕ} :
    Components.Holds (memberGraphEdges s) t id ↔ ∃ r, s.Reachable t id r := by
  constructor
  · rintro ⟨w, hlead, hmem⟩
    obtain ⟨v, r, rfl, hattached⟩ := mem_edges_snd.1 hmem
    exact ⟨r, v, leads_iff.1 hlead, hattached⟩
  · rintro ⟨r, v, hlead, hattached⟩
    exact ⟨.var v, leads_iff.2 hlead, mem_edges_snd.2 ⟨v, r, rfl, hattached⟩⟩

/-! ### The graph is finite -/

/-- A list of types holds all children of what it holds. -/
def ChildClosed (whole : List Ty) : Prop := ∀ t ∈ whole, t.children ⊆ whole

theorem exists_childClosed_of_forall {ts : List Ty} (h : ∀ t ∈ ts, ∃ whole, t ∈ whole ∧ ChildClosed whole) :
    ∃ whole, ts ⊆ whole ∧ ChildClosed whole := by
  induction ts with
  | nil => exact ⟨[], List.nil_subset _, fun t ht => absurd ht List.not_mem_nil⟩
  | cons t ts ih =>
    obtain ⟨xs, ht, hxs⟩ := h t List.mem_cons_self
    obtain ⟨ys, hts, hys⟩ := ih fun u hu => h u (List.mem_cons_of_mem _ hu)
    refine ⟨xs ++ ys, ?_, fun u hu => ?_⟩
    · refine List.cons_subset.2 ⟨List.mem_append_left _ ht, ?_⟩
      exact List.subset_append_of_subset_right _ hts
    · rcases List.mem_append.1 hu with hu | hu
      · exact List.subset_append_of_subset_left _ (hxs u hu)
      · exact List.subset_append_of_subset_right _ (hys u hu)

/-- Finitely many types have finitely many parts. -/
theorem exists_childClosed (ts : List Ty) : ∃ whole, ts ⊆ whole ∧ ChildClosed whole := by
  refine exists_childClosed_of_forall fun t ht => ?_
  clear ht
  induction t using Ty.ind with
  | h t ih =>
    obtain ⟨whole, hsub, hclosed⟩ := exists_childClosed_of_forall ih
    refine ⟨t :: whole, List.mem_cons_self, fun u hu => ?_⟩
    apply List.subset_cons_of_subset
    rcases List.mem_cons.1 hu with rfl | hu
    · exact hsub
    · exact hclosed u hu

theorem exists_width {α β : Type} (f : α → List β) (whole : List α) :
    ∃ width, ∀ a ∈ whole, (f a).length ≤ width := by
  induction whole with
  | nil => exact ⟨0, fun a ha => absurd ha List.not_mem_nil⟩
  | cons a whole ih =>
    obtain ⟨width, hwidth⟩ := ih
    refine ⟨max (f a).length width, fun b hb => ?_⟩
    rcases List.mem_cons.1 hb with rfl | hb
    · exact le_max_left _ _
    · exact (hwidth b hb).trans (le_max_right _ _)

theorem exists_whole (s : Checker) (t : Ty) :
    ∃ whole : List Ty, t ∈ whole ∧ ∀ u ∈ whole, ∀ c, s.Touches u c → c ∈ whole := by
  obtain ⟨whole, hsub, hclosed⟩ := exists_childClosed
    (t :: (s.arena.flatMap (fun v => v.lower ++ v.upper) ++
      s.memberConstraints.entries.flatMap fun e => [e.requirement.subject, e.requirement.member]))
  obtain ⟨ht, hsub⟩ := List.cons_subset.1 hsub
  obtain ⟨hbounds, hentries⟩ := List.append_subset.1 hsub
  refine ⟨whole, ht, fun u hu c htouch => ?_⟩
  have hattached : ∀ {v id : ℕ} {r : MemberRequirement Ty}, s.Attached v id r →
      r.subject ∈ whole ∧ r.member ∈ whole := by
    intro v id r h
    have hmem := List.mem_of_getElem? h.2
    constructor
    · exact hentries (List.mem_flatMap.2 ⟨_, hmem, List.mem_cons_self⟩)
    · exact hentries (List.mem_flatMap.2 ⟨_, hmem, List.mem_cons_of_mem _ List.mem_cons_self⟩)
  cases htouch with
  | child h => exact hclosed u hu h
  | @bound v d _ h =>
    have hv := lt_of_mem_bounds h
    have hvar : s.variableOf v ∈ s.arena := by
      unfold variableOf
      rw [List.getD_eq_getElem _ _ hv]
      exact List.getElem_mem hv
    exact hbounds (List.mem_flatMap.2 ⟨_, hvar, mem_bounds_iff.2 ⟨d, h⟩⟩)
  | subject h => exact (hattached h).1
  | member h => exact (hattached h).2

theorem mem_whole_of_leads {s : Checker} {whole : List Ty} (hclosed : ∀ u ∈ whole, ∀ c, s.Touches u c → c ∈ whole)
    {t u : Ty} (ht : t ∈ whole) (h : Relation.ReflTransGen s.Touches t u) : u ∈ whole := by
  induction h with
  | refl => exact ht
  | tail _ hstep ih => exact hclosed _ ih _ hstep

/-! ### The walk -/

section Walk

variable {s : Checker} {visit : ℕ → Bool}

/-- The walk meets a variable that stops it when a search without stops sees one. -/
theorem walk_of_explore {fuel : ℕ} {pending visited seen : List Ty}
    (h : explore (memberSuccessors s) fuel pending visited = some seen)
    (hvisited : ∀ v, .var v ∈ visited → visit v = false) :
    ∃ b, walkMemberVariables s visit fuel pending visited = some b ∧
      (b = true ↔ ∃ v, .var v ∈ seen ∧ visit v = true) := by
  induction fuel generalizing pending visited with
  | zero =>
    cases pending with
    | nil =>
      obtain rfl := Option.some.inj h
      refine ⟨false, rfl, ⟨fun hb => absurd hb Bool.false_ne_true, ?_⟩⟩
      rintro ⟨v, hv, hstop⟩
      rw [hvisited v hv] at hstop
      exact absurd hstop Bool.false_ne_true
    | cons t pending => cases h
  | succ fuel ih =>
    cases pending with
    | nil =>
      obtain rfl := Option.some.inj h
      refine ⟨false, rfl, ⟨fun hb => absurd hb Bool.false_ne_true, ?_⟩⟩
      rintro ⟨v, hv, hstop⟩
      rw [hvisited v hv] at hstop
      exact absurd hstop Bool.false_ne_true
    | cons t pending =>
      rw [explore] at h
      rw [walkMemberVariables]
      by_cases ht : t ∈ visited
      · rw [if_pos ht] at h ⊢
        exact ih h hvisited
      · rw [if_neg ht] at h ⊢
        by_cases hstop : t.asVar.any visit = true
        · rw [if_pos hstop]
          obtain ⟨v, hv, hvisit⟩ := (Option.any_eq_true _ _).1 hstop
          obtain rfl := Ty.asVar_eq_some.1 hv
          exact ⟨true, rfl, fun _ => ⟨v, (explore_complete h).1 List.mem_cons_self, hvisit⟩, fun _ => rfl⟩
        · rw [if_neg hstop]
          refine ih h fun v hv => ?_
          rcases List.mem_cons.1 hv with rfl | hv
          · simpa [Ty.asVar] using hstop
          · exact hvisited v hv

/-- A type that leads to an obligation leads to one by its structure and bounds alone: up to the first obligation no
other is needed. -/
theorem exists_attached_iff {s : Checker} {t : Ty} :
    (∃ v id r, LeadsTo (memberSuccessors s) t (.var v) ∧ s.Attached v id r) ↔ ∃ id r, s.Reachable t id r := by
  have hstep : ∀ {u c : Ty}, c ∈ memberSuccessors s u → s.Touches u c := by
    intro u c hc
    rcases mem_memberSuccessors.1 hc with h | ⟨v, d, rfl, h⟩
    · exact .child h
    · exact .bound h
  constructor
  · rintro ⟨v, id, r, hlead, hattached⟩
    exact ⟨id, r, v, Relation.ReflTransGen.mono (fun _ _ hc => hstep hc) _ _ hlead, hattached⟩
  · rintro ⟨id, r, v, hlead, hattached⟩
    have hfirst : ∀ u, Relation.ReflTransGen s.Touches t u → LeadsTo (memberSuccessors s) t u ∨
        ∃ w id r, LeadsTo (memberSuccessors s) t (.var w) ∧ s.Attached w id r := by
      intro u hlead
      induction hlead with
      | refl => exact Or.inl .refl
      | @tail u c _ htouch ih =>
        rcases ih with hu | hfound
        · cases htouch with
          | child h => exact Or.inl (hu.tail (mem_memberSuccessors.2 (Or.inl h)))
          | bound h => exact Or.inl (hu.tail (mem_memberSuccessors.2 (Or.inr ⟨_, _, rfl, h⟩)))
          | subject h | member h => exact Or.inr ⟨_, _, _, hu, h⟩
        · exact Or.inr hfound
    rcases hfirst (.var v) hlead with hv | hfound
    · exact ⟨v, id, r, hv, hattached⟩
    · exact hfound

/-- **The existence query** finds an obligation exactly where one is reachable, with enough rounds. -/
theorem hasMemberRequirements_exact (s : Checker) (t : Ty) :
    ∃ n, ∀ fuel ≥ n, ∃ b, hasMemberRequirements fuel t s = some b ∧ (b = true ↔ ∃ id r, s.Reachable t id r) := by
  obtain ⟨whole, ht, hclosed⟩ := exists_whole s t
  obtain ⟨width, hwidth⟩ := exists_width (memberSuccessors s) whole
  have hsub : ∀ u ∈ whole, memberSuccessors s u ⊆ whole := by
    intro u hu c hc
    apply hclosed u hu
    rcases mem_memberSuccessors.1 hc with h | ⟨v, d, rfl, h⟩
    · exact .child h
    · exact .bound h
  obtain ⟨seen, n, hseen⟩ := explore_eventually hsub hwidth (List.cons_subset.2 ⟨ht, List.nil_subset _⟩) []
  refine ⟨n, fun fuel hfuel => ?_⟩
  obtain ⟨b, hb, hiff⟩ := @walk_of_explore s (fun v => !(s.memberConstraints.pendingOf v).isEmpty) fuel [t] [] seen
    (hseen fuel hfuel) fun v hv => absurd hv List.not_mem_nil
  refine ⟨b, hb, hiff.trans (Iff.trans ?_ exists_attached_iff)⟩
  refine exists_congr fun v => ?_
  rw [mem_explore (hseen fuel hfuel)]
  constructor
  · rintro ⟨⟨u, hu, hlead⟩, hpending⟩
    obtain rfl := List.mem_singleton.1 hu
    obtain ⟨⟨id, r⟩, hmem⟩ := List.exists_mem_of_ne_nil (s.memberConstraints.pendingOf v) (by simpa using hpending)
    exact ⟨id, r, hlead, mem_pendingOf.1 hmem⟩
  · rintro ⟨id, r, hlead, hattached⟩
    have hmem := mem_pendingOf.2 hattached
    exact ⟨⟨t, List.mem_singleton_self t, hlead⟩, by simpa using List.ne_nil_of_mem hmem⟩

end Walk

/-! ### Sessions -/

/-- The obligations of a table have the identities it records, each once. -/
structure MemberConstraints.Distinct (m : MemberConstraints) : Prop where
  identities : m.identities = m.entries.map (·.requirement)
  nodup : m.identities.Nodup

/-- Two registrations with one requirement are the same one. -/
theorem MemberConstraints.Distinct.eq_of_requirement {m : MemberConstraints} (h : m.Distinct) {i j : ℕ}
    {r : MemberRequirement Ty} (hi : r ∈ (m.entries[i]?).map (·.requirement))
    (hj : r ∈ (m.entries[j]?).map (·.requirement)) : i = j := by
  have hnodup := h.nodup
  rw [h.identities] at hnodup
  rw [← List.getElem?_map] at hi hj
  have hlt := (List.getElem?_eq_some_iff.1 hi).1
  exact (List.getElem?_inj hlt hnodup).1 (hi.trans hj.symm)

namespace Session

/-- The session with nothing in it. -/
def empty : Session := ⟨Checker.empty, fun _ => none, []⟩

def keep (s : Session) (c : Checker) : Session := { s with checker := c }

def clear (s : Session) (c : Checker) : Session := { s with checker := c, memberReachability := fun _ => none }

/-- `rollback_bounds` to a checkpoint, and the obligations as they were there. -/
def rolledBack (c saved : Checker) : Checker :=
  { c.rollbackBounds saved.boundInsertions.length saved.arena.length saved.nextSkolem with
    memberConstraints := saved.memberConstraints }

def restored (c saved : Checker) : Checker :=
  { c with
    arena := saved.arena
    nextSkolem := saved.nextSkolem
    memberConstraints := saved.memberConstraints
    numericLiterals := saved.numericLiterals
    emptyArrayElements := saved.emptyArrayElements }

/-- One thing that happens to the graph, to the obligations or to the answers. -/
inductive Step : Session → Session → Prop
  /-- `register_member_requirement` of a known obligation changes nothing; of a new one it drops the answers. -/
  | register {s : Session} {fuel : ℕ} {r : MemberRequirement Ty} {c : Checker}
      (h : registerMemberRequirement fuel r s.checker = (.ok (), c)) :
      Step s (if r ∈ s.checker.memberConstraints.identities then s.keep c else s.clear c)
  /-- `index_member_requirement` drops the answers where it hangs the obligation on a new variable. -/
  | index {s : Session} {fuel id : ℕ} {r : MemberRequirement Ty} {found : Finset ℕ} {c : Checker}
      (hfound : memberVariableIds s.checker fuel [r.subject, r.member] [] ∅ = some found)
      (h : indexMemberRequirement fuel id r s.checker = (.ok (), c)) :
      Step s (if ∃ v ∈ found, id ∉ s.checker.memberConstraints.watched v then s.clear c else s.keep c)
  /-- A bound is inserted and recorded. -/
  | insert {s : Session} (v : ℕ) (d : BoundDirection) (t : Ty) : Step s (s.clear (s.checker.insertBound v d t))
  /-- An obligation is discharged. -/
  | discharge {s : Session} (id : ℕ) :
      Step s (s.clear
        { s.checker with memberConstraints :=
          { s.checker.memberConstraints with
            entries := s.checker.memberConstraints.entries.modify id fun e => { e with discharged := true } } })
  /-- Variables are allocated together with their bounds, which are not recorded: `fresh`, `freshen_constraint`. -/
  | allocate {s : Session} (block : List Variable) :
      Step s (s.keep { s.checker with arena := s.checker.arena ++ block })
  /-- A trial starts. -/
  | checkpoint {s : Session} : Step s { s with checkpoints := s.checker :: s.checkpoints }
  /-- A trial is undone. -/
  | rollback {s : Session} {saved : Checker} {rest : List Checker} (h : s.checkpoints = saved :: rest) :
      Step s { s.clear (rolledBack s.checker saved) with checkpoints := rest }
  /-- A probe is undone. -/
  | restore {s : Session} {saved : Checker} {rest : List Checker} (h : s.checkpoints = saved :: rest) :
      Step s { s.clear (restored s.checker saved) with checkpoints := rest }
  /-- A trial is kept. -/
  | commit {s : Session} {saved : Checker} {rest : List Checker} (h : s.checkpoints = saved :: rest) :
      Step s { s with checkpoints := rest }
  /-- The checker is cleared. -/
  | reset {s : Session} : Step s empty
  /-- A query leaves its answers behind. -/
  | query {s s' : Session} {fuel : ℕ} {t : Ty} {found : List (MemberRequirement Ty)} (ht : s.checker.InArena t)
      (h : reachableMemberRequirements fuel t s = some (found, s')) : Step s s'
  /-- Anything else: the woken obligations, marks, literals, levels, supplies, the journal. -/
  | other {s : Session} {c : Checker} (harena : c.arena = s.checker.arena)
      (hentries : c.memberConstraints.entries = s.checker.memberConstraints.entries)
      (hidentities : c.memberConstraints.identities = s.checker.memberConstraints.identities)
      (hwatched : c.memberConstraints.watched = s.checker.memberConstraints.watched) : Step s (s.keep c)

def Run (s : Session) : Prop := Relation.ReflTransGen Step empty s

/-- **The invariant of a session**: its answers are right, and about variables of the arena only; obligations are
registered once, now and at every checkpoint. -/
structure Sound (s : Session) : Prop where
  exact : Components.Exact (memberGraphEdges s.checker) s.memberReachability
  inArena : ∀ t, (s.memberReachability t).isSome → s.checker.InArena t
  distinct : s.checker.memberConstraints.Distinct
  saved : ∀ c ∈ s.checkpoints, c.memberConstraints.Distinct

/-! ### What keeps the answers right -/

theorem sound_empty : Sound empty where
  exact t answer ht := by cases ht
  inArena t ht := by cases ht
  distinct := ⟨rfl, .nil⟩
  saved c hc := absurd hc List.not_mem_nil

theorem Sound.clear {s : Session} (h : s.Sound) {c : Checker} (hc : c.memberConstraints.Distinct) :
    (s.clear c).Sound where
  exact t answer ht := by cases ht
  inArena t ht := by cases ht
  distinct := hc
  saved := h.saved

def SameGraph (c c' : Checker) : Prop :=
  c.arena.length ≤ c'.arena.length ∧
    ∀ v < c.arena.length, c'.variableOf v = c.variableOf v ∧
      c'.memberConstraints.pendingOf v = c.memberConstraints.pendingOf v

theorem SameGraph.edges {c c' : Checker} (h : SameGraph c c') {t : Ty} (ht : ∀ v, t = .var v → v < c.arena.length) :
    memberGraphEdges c' t = memberGraphEdges c t := by
  cases t with
  | var v =>
    obtain ⟨hvar, hpending⟩ := h.2 v (ht v rfl)
    simp only [memberGraphEdges, hvar, hpending]
  | _ => rfl

/-- Where the graph stays as it was, the answers may stay. -/
theorem Sound.keep {s : Session} (h : s.Sound) {c : Checker} (hsame : SameGraph s.checker c)
    (hc : c.memberConstraints.Distinct) : (s.keep c).Sound := by
  have hedges : ∀ t, (s.memberReachability t).isSome → ∀ u, Components.Leads (memberGraphEdges s.checker) t u →
      memberGraphEdges c u = memberGraphEdges s.checker u := by
    intro t ht u hu
    refine hsame.edges fun v hv => h.inArena t ht v ?_
    rw [← hv]
    exact leads_iff.1 hu
  refine ⟨fun t answer ht id => ?_, fun t ht v hv => ?_, hc, h.saved⟩
  · have hsome : (s.memberReachability t).isSome := Option.isSome_iff_exists.2 ⟨answer, ht⟩
    rw [h.exact t answer ht id]
    exact (Components.holds_congr (hedges t hsome) id).symm
  · have hlead := (Components.leads_congr (hedges t ht) (.var v)).1 (leads_iff.2 hv)
    exact (h.inArena t ht v (leads_iff.1 hlead)).trans_le hsame.1

theorem sameGraph_of_eq {c c' : Checker} (harena : c'.arena = c.arena)
    (hentries : c'.memberConstraints.entries = c.memberConstraints.entries)
    (hwatched : c'.memberConstraints.watched = c.memberConstraints.watched) : SameGraph c c' := by
  refine ⟨by rw [harena], fun v _ => ⟨?_, ?_⟩⟩
  · unfold variableOf
    rw [harena]
  · unfold MemberConstraints.pendingOf
    rw [hentries, hwatched]

theorem sameGraph_allocate (c : Checker) (block : List Variable) :
    SameGraph c { c with arena := c.arena ++ block } := by
  refine ⟨?_, fun v hv => ⟨?_, rfl⟩⟩
  · rw [List.length_append]
    omega
  · exact List.getD_append _ _ _ _ hv

/-- **A query** finds what is reachable, and its answers are right. -/
theorem Sound.query {s s' : Session} (h : s.Sound) {fuel : ℕ} {t : Ty} {found : List (MemberRequirement Ty)}
    (hquery : reachableMemberRequirements fuel t s = some (found, s')) :
    ∃ ids cache, s' = { s with memberReachability := cache } ∧
      Components.Exact (memberGraphEdges s.checker) cache ∧
      (∀ u, (cache u).isSome → (s.memberReachability u).isSome ∨ Relation.ReflTransGen s.checker.Touches t u) ∧
      (∀ id, id ∈ ids ↔ ∃ r, s.checker.Reachable t id r) ∧
      found = ((Finset.sort ids (· ≤ ·)).filterMap fun id =>
        (s.checker.memberConstraints.entries[id]?).map (·.requirement)) := by
  unfold reachableMemberRequirements at hquery
  obtain ⟨⟨ids, cache⟩, hsearch, hresult⟩ := Option.bind_eq_some_iff.1 hquery
  obtain ⟨rfl, rfl⟩ := Prod.mk.inj (Option.some.inj hresult)
  obtain ⟨whole, ht, hclosed⟩ := exists_whole s.checker t
  obtain ⟨width, hwidth⟩ := exists_width (fun u => (memberGraphEdges s.checker u).1) whole
  obtain ⟨hids, hexact, horigin⟩ := Components.search_exact h.exact
    (fun u hu => mem_whole_of_leads hclosed ht (leads_iff.1 hu)) hwidth hsearch
  exact ⟨ids, cache, rfl, hexact, fun u hu => (horigin u hu).imp (fun h => h) leads_iff.1,
    fun id => (hids id).trans holds_iff, rfl⟩

/-! ### Every step keeps the invariant -/

theorem indexMemberRequirement_ok {fuel id : ℕ} {r : MemberRequirement Ty} {c c' : Checker}
    (h : indexMemberRequirement fuel id r c = (.ok (), c')) :
    ∃ found, memberVariableIds c fuel [r.subject, r.member] [] ∅ = some found ∧ c' = { c with memberConstraints :=
      { c.memberConstraints with
        watched := fun v => if v ∈ found then insert id (c.memberConstraints.watched v)
          else c.memberConstraints.watched v } } := by
  unfold indexMemberRequirement at h
  replace h := Attempt.get_bind_eq_ok.1 h
  cases hfound : memberVariableIds c fuel [r.subject, r.member] [] ∅ with
  | none =>
    rw [hfound] at h
    exact absurd h Attempt.stop_ne_ok
  | some found =>
    rw [hfound] at h
    exact ⟨found, rfl, (Attempt.modify_eq_ok.1 h).symm⟩

theorem registerMemberRequirement_ok {fuel : ℕ} {r : MemberRequirement Ty} {c c' : Checker}
    (hc : c.memberConstraints.Distinct) (h : registerMemberRequirement fuel r c = (.ok (), c')) :
    c'.memberConstraints.Distinct ∧ (r ∈ c.memberConstraints.identities → c' = c) := by
  unfold registerMemberRequirement at h
  replace h := Attempt.get_bind_eq_ok.1 h
  by_cases hknown : r ∈ c.memberConstraints.identities
  · simp only [hknown, if_true] at h
    obtain ⟨-, rfl⟩ := Attempt.pure_eq_ok.1 h
    exact ⟨hc, fun _ => rfl⟩
  · refine ⟨?_, fun hmem => absurd hmem hknown⟩
    simp only [hknown, if_false] at h
    obtain ⟨u, c₁, hmodify, h⟩ := Attempt.bind_eq_ok.1 h
    obtain rfl := Attempt.modify_eq_ok.1 hmodify
    obtain ⟨found, -, rfl⟩ := indexMemberRequirement_ok h
    constructor
    · show c.memberConstraints.identities ++ [r] = List.map (fun e : PendingMember => e.requirement)
        (c.memberConstraints.entries ++ [⟨r, false⟩])
      rw [List.map_append, hc.identities]
      rfl
    · show (c.memberConstraints.identities ++ [r]).Nodup
      refine List.nodup_append.2 ⟨hc.nodup, List.nodup_singleton r, ?_⟩
      rintro a ha b hb rfl
      obtain rfl := List.mem_singleton.1 hb
      exact hknown ha

theorem distinct_of_eq {m m' : MemberConstraints} (hm : m.Distinct) (hidentities : m'.identities = m.identities)
    (hentries : m'.entries = m.entries) : m'.Distinct :=
  ⟨by rw [hidentities, hentries, hm.identities], by rw [hidentities]; exact hm.nodup⟩

/-- **One step keeps the answers right.** -/
theorem Sound.step {s s' : Session} (h : s.Sound) (hstep : Step s s') : s'.Sound := by
  cases hstep with
  | @register fuel r c hregister =>
    obtain ⟨hdistinct, hsame⟩ := registerMemberRequirement_ok h.distinct hregister
    split
    · next hknown =>
      obtain rfl := hsame hknown
      exact h.keep (sameGraph_of_eq rfl rfl rfl) h.distinct
    · exact h.clear hdistinct
  | @index fuel id r found c hfound hindex =>
    obtain ⟨found', hfound', rfl⟩ := indexMemberRequirement_ok hindex
    obtain rfl := Option.some.inj (hfound.symm.trans hfound')
    have hdistinct : MemberConstraints.Distinct { s.checker.memberConstraints with
        watched := fun v => if v ∈ found then insert id (s.checker.memberConstraints.watched v)
          else s.checker.memberConstraints.watched v } := distinct_of_eq h.distinct rfl rfl
    split
    · exact h.clear hdistinct
    · next hold =>
      refine h.keep (sameGraph_of_eq rfl rfl (funext fun v => ?_)) hdistinct
      -- the obligation hangs on all of these variables already
      show (if v ∈ found then _ else _) = _
      split
      · next hv =>
        refine Finset.insert_eq_of_mem ?_
        by_contra hnot
        exact hold ⟨v, hv, hnot⟩
      · rfl
  | insert v d t => exact h.clear (distinct_of_eq h.distinct rfl rfl)
  | discharge id =>
    refine h.clear ⟨?_, h.distinct.nodup⟩
    show s.checker.memberConstraints.identities = (s.checker.memberConstraints.entries.modify id _).map _
    rw [h.distinct.identities]
    refine List.ext_getElem? fun i => ?_
    rw [List.getElem?_map, List.getElem?_map, List.getElem?_modify, Option.map_eq_map, Option.map_map]
    congr 1
    funext e
    by_cases hi : id = i <;> simp [hi]
  | allocate block => exact h.keep (sameGraph_allocate s.checker block) h.distinct
  | checkpoint =>
    refine { h with saved := fun c hc => ?_ }
    rcases List.mem_cons.1 hc with rfl | hc
    · exact h.distinct
    · exact h.saved c hc
  | @rollback saved rest hcheckpoints =>
    have hsaved : ∀ c ∈ saved :: rest, c.memberConstraints.Distinct := hcheckpoints ▸ h.saved
    have hcleared := h.clear (c := rolledBack s.checker saved) (hsaved saved List.mem_cons_self)
    exact { hcleared with saved := fun c hc => hsaved c (List.mem_cons_of_mem _ hc) }
  | @restore saved rest hcheckpoints =>
    have hsaved : ∀ c ∈ saved :: rest, c.memberConstraints.Distinct := hcheckpoints ▸ h.saved
    have hcleared := h.clear (c := restored s.checker saved) (hsaved saved List.mem_cons_self)
    exact { hcleared with saved := fun c hc => hsaved c (List.mem_cons_of_mem _ hc) }
  | @commit saved rest hcheckpoints =>
    have hsaved : ∀ c ∈ saved :: rest, c.memberConstraints.Distinct := hcheckpoints ▸ h.saved
    exact { h with saved := fun c hc => hsaved c (List.mem_cons_of_mem _ hc) }
  | reset => exact sound_empty
  | @query _ fuel t found ht hquery =>
    obtain ⟨ids, cache, rfl, hexact, horigin, -⟩ := h.query hquery
    refine { h with exact := hexact, inArena := fun u hu => ?_ }
    rcases horigin u hu with hold | hlead
    · exact h.inArena u hold
    · exact fun v hv => ht v (hlead.trans hv)
  | other harena hentries hidentities hwatched =>
    exact h.keep (sameGraph_of_eq harena hentries hwatched) (distinct_of_eq h.distinct hidentities hentries)

theorem Sound.run {s : Session} (h : Run s) : s.Sound := by
  unfold Run at h
  induction h with
  | refl => exact sound_empty
  | tail _ hstep ih => exact ih.step hstep

end Session

open Session

/-- **Reachable requirements are exact**, after any run: with enough rounds, `reachableMemberRequirements` lists each
pending obligation that hangs on a variable the type leads to, once, and no other; and `hasMemberRequirements` says
whether there is one. -/
theorem reachableMemberRequirements_exact {s : Session} (h : Run s) (t : Ty) :
    ∃ n, ∀ fuel ≥ n, ∃ found s', reachableMemberRequirements fuel t s = some (found, s') ∧ found.Nodup ∧
      (∀ r, r ∈ found ↔ ∃ id, s.checker.Reachable t id r) ∧
      hasMemberRequirements fuel t s.checker = some (!found.isEmpty) := by
  have hsound := Sound.run h
  obtain ⟨whole, ht, hclosed⟩ := exists_whole s.checker t
  obtain ⟨width, hwidth⟩ := exists_width (fun u => (memberGraphEdges s.checker u).1) whole
  obtain ⟨n, hfinishes⟩ := Components.search_finishes hsound.exact
    (fun u hu => mem_whole_of_leads hclosed ht (leads_iff.1 hu)) hwidth
  obtain ⟨m, hexists⟩ := hasMemberRequirements_exact s.checker t
  refine ⟨max n m, fun fuel hfuel => ?_⟩
  obtain ⟨ids₀, cache₀, hsearch⟩ := hfinishes fuel ((le_max_left n m).trans hfuel)
  obtain ⟨b, hb, hbiff⟩ := hexists fuel ((le_max_right n m).trans hfuel)
  obtain ⟨⟨found, s'⟩, hquery⟩ : ∃ result, reachableMemberRequirements fuel t s = some result := by
    unfold reachableMemberRequirements
    rw [hsearch]
    exact ⟨_, rfl⟩
  obtain ⟨ids, cache, -, -, -, hids, hfound⟩ := hsound.query hquery
  have hmem : ∀ r, r ∈ found ↔ ∃ id, s.checker.Reachable t id r := by
    intro r
    rw [hfound, List.mem_filterMap]
    constructor
    · rintro ⟨id, hid, hentry⟩
      obtain ⟨r', hreach⟩ := (hids id).1 ((Finset.mem_sort _).1 hid)
      obtain ⟨v, hlead, hwatched, hpending⟩ := hreach
      rw [hpending] at hentry
      obtain rfl := Option.some.inj hentry
      exact ⟨id, v, hlead, hwatched, hpending⟩
    · rintro ⟨id, v, hlead, hwatched, hpending⟩
      refine ⟨id, (Finset.mem_sort _).2 ((hids id).2 ⟨r, v, hlead, hwatched, hpending⟩), ?_⟩
      rw [hpending]
      rfl
  refine ⟨found, s', hquery, ?_, hmem, ?_⟩
  · rw [hfound]
    refine List.Nodup.filterMap (fun i j r hi hj => ?_) (Finset.sort_nodup _ _)
    exact hsound.distinct.eq_of_requirement hi hj
  · rw [hb]
    congr 1
    rw [Bool.eq_iff_iff, hbiff, Bool.not_eq_true', Bool.eq_false_iff, Ne, List.isEmpty_iff]
    constructor
    · rintro ⟨id, r, hreach⟩ hnil
      rw [hnil] at hmem
      exact absurd ((hmem r).2 ⟨id, hreach⟩) List.not_mem_nil
    · intro hne
      obtain ⟨r, hr⟩ := List.exists_mem_of_ne_nil found hne
      obtain ⟨id, hreach⟩ := (hmem r).1 hr
      exact ⟨id, r, hreach⟩

/-- Two variables, the second an upper bound of the first. -/
def tied : Session :=
  let allocated := Session.empty.keep { Checker.empty with arena := [⟨0, [], []⟩, ⟨0, [], []⟩] }
  allocated.clear (allocated.checker.insertBound 0 .upper (.var 1))

def addition : MemberRequirement Ty := ⟨"add", .var 1, .unit⟩

def obliged : Session := tied.clear (registerMemberRequirement 3 addition tied.checker).2

theorem run_obliged : Run obliged :=
  .tail (.tail (.tail .refl (.allocate [⟨0, [], []⟩, ⟨0, [], []⟩])) (.insert 0 .upper (.var 1)))
    (@Step.register tied 3 addition _ rfl)

/-- The first variable has the obligation of the second. -/
theorem reachableMemberRequirements_exact_obliged : ∃ n, ∀ fuel ≥ n, ∃ found s',
    reachableMemberRequirements fuel (.var 0) obliged = some (found, s') ∧ addition ∈ found := by
  obtain ⟨n, hn⟩ := reachableMemberRequirements_exact run_obliged (.var 0)
  refine ⟨n, fun fuel hfuel => ?_⟩
  obtain ⟨found, s', hquery, -, hmem, -⟩ := hn fuel hfuel
  refine ⟨found, s', hquery, (hmem addition).2 ⟨0, 1, ?_, ?_⟩⟩
  · exact .single (.bound (d := .upper) (by decide))
  · exact ⟨by decide, rfl⟩

end Blot.Typecheck
