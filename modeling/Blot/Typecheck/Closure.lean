import Blot.Typecheck.Declarative
import Blot.Typecheck.Guarded
import Blot.Typecheck.Rollback
import Blot.Typecheck.Structural
import Blot.Typecheck.Walks

/-!
# Propagation closure (`spec/TYPECHECKING.md`, Lemmas 1 and 2)

Runs on types without quantifiers, qualified types and unions, with all variables at one level: no item extrudes,
instantiates or chooses, and the solver only inserts bounds.

* `Checker.Extends` — nothing that was there is lost;
* `Checker.Implied` — what the recorded bounds answer;
* `Checker.Saturating` — what a walk keeps: bounds are carried along edges, and every pair of structural bounds of a
  variable follows from recorded bounds and what is owed;
* `Checker.Saturated` — the same over a whole queue.
-/

namespace Blot.Typecheck

open Blot.Support Checker

/-! ### Plain types -/

theorem Part.hereditarily {p : Ty → Prop} (hlabels : ∀ l, p (.effects l))
    (hfield : ∀ name c, p (.record [(name, c)])) {left right t : Ty} (h : Part left right t)
    (hl : left.Hereditarily p) (hr : right.Hereditarily p) : t.Hereditarily p := by
  cases h with
  | left => exact hl
  | right => exact hr
  | leftChild hc => exact hl.child hc
  | rightChild hc => exact hr.child hc
  | labels l => exact .intro (hlabels l) fun c hc => absurd hc List.not_mem_nil
  | field name hc => exact .intro (hfield name _) fun c hc' => List.mem_singleton.1 hc' ▸ hr.child hc

structure PlainKind (kind : Ty → Prop) : Prop where
  plain : ∀ t, kind t → t.Plain
  part : ∀ left right t, Part left right t → kind left → kind right → kind t

theorem plainKind_plain : PlainKind Ty.Plain where
  plain _ h := h
  part _ _ _ h hl hr := h.hereditarily (fun _ => trivial) (fun _ _ => trivial) hl hr

/-! ### What the bounds answer -/

namespace Checker

/-- The edge `x ≤ y`. -/
def Edge (s : Checker) (x y : ℕ) : Prop := Ty.var y ∈ s.bounds x .upper

def Flows (s : Checker) : ℕ → ℕ → Prop := Relation.ReflTransGen s.Edge

/-- The obligations over variables that the recorded bounds answer: two variables joined by a path, and a type that is
a bound, up to `same`, of a variable on a path. -/
inductive Implied (s : Checker) : Ty → Ty → Prop where
  | path {x y : ℕ} (h : s.Flows x y) : Implied s (.var x) (.var y)
  | above {x y : ℕ} {t : Ty} (h : s.Flows x y) (ht : containsConstraint (s.bounds y .upper) t = true) :
    Implied s (.var x) t
  | below {x y : ℕ} {t : Ty} (h : s.Flows x y) (ht : containsConstraint (s.bounds x .lower) t = true) :
    Implied s t (.var y)

/-- Every variable, level and bound of `s` is in `s'`, the bounds in their order. -/
structure Extends (s s' : Checker) : Prop where
  length_le : s.arena.length ≤ s'.arena.length
  levelOfVar : ∀ v < s.arena.length, s'.levelOfVar v = s.levelOfVar v
  bounds : ∀ v d, s.bounds v d <+: s'.bounds v d

variable {s s' s'' : Checker}

theorem Extends.refl (s : Checker) : s.Extends s := ⟨le_rfl, fun _ _ => rfl, fun _ _ => List.prefix_rfl⟩

theorem Extends.trans (h₁ : s.Extends s') (h₂ : s'.Extends s'') : s.Extends s'' :=
  ⟨h₁.length_le.trans h₂.length_le,
    fun v hv => (h₂.levelOfVar v (hv.trans_le h₁.length_le)).trans (h₁.levelOfVar v hv),
    fun v d => (h₁.bounds v d).trans (h₂.bounds v d)⟩

theorem Extends.mem (h : s.Extends s') {v : ℕ} {d : BoundDirection} {t : Ty} (ht : t ∈ s.bounds v d) :
    t ∈ s'.bounds v d := (h.bounds v d).subset ht

theorem Extends.contains (h : s.Extends s') {v : ℕ} {d : BoundDirection} {t : Ty}
    (ht : containsConstraint (s.bounds v d) t = true) : containsConstraint (s'.bounds v d) t = true := by
  obtain ⟨u, hu, hsame⟩ := containsConstraint_iff.1 ht
  exact containsConstraint_iff.2 ⟨u, h.mem hu, hsame⟩

theorem Extends.flows (h : s.Extends s') {x y : ℕ} (hf : s.Flows x y) : s'.Flows x y :=
  Relation.ReflTransGen.mono (fun a b (hab : s.Edge a b) => h.mem hab) x y hf

theorem Extends.implied (h : s.Extends s') {a b : Ty} (hi : s.Implied a b) : s'.Implied a b := by
  cases hi with
  | path hf => exact .path (h.flows hf)
  | above hf ht => exact .above (h.flows hf) (h.contains ht)
  | below hf ht => exact .below (h.flows hf) (h.contains ht)

theorem Adds.extends {d : BoundDirection} {P : Ty → Prop} (h : Adds d P s s') : s.Extends s' where
  length_le := h.length.ge
  levelOfVar v _ := h.levels v
  bounds v e := by
    by_cases hd : e = d
    · subst hd
      obtain ⟨added, heq, -⟩ := h.added v
      exact ⟨added, heq.symm⟩
    · have he : e = d.opposite := by cases e <;> cases d <;> simp_all [BoundDirection.opposite]
      subst he
      rw [h.opposite]

theorem extends_insertBound (s : Checker) (id : ℕ) (d : BoundDirection) (t : Ty) : s.Extends (s.insertBound id d t) :=
  (adds_insertBound (P := fun _ => True) s id d trivial).extends

theorem extends_link (s : Checker) (l r : ℕ) : s.Extends (s.link l r) :=
  (extends_insertBound s l .upper _).trans (extends_insertBound _ r .lower _)

/-! ### The states and items of plain runs -/

structure Asleep (m : MemberConstraints) : Prop where
  watched : ∀ v, m.watched v = ∅
  queued : m.queued = ∅

/-- All variables at one level, bounds of one kind over the arena, no obligations. -/
structure Tame (N : ℕ) (kind : Ty → Prop) (s : Checker) : Prop where
  level : ∀ v < s.arena.length, s.levelOfVar v = N
  boundsInScope : s.BoundsInScope
  kinds : ∀ v d, ∀ t ∈ s.bounds v d, kind t
  asleep : Asleep s.memberConstraints

def ItemInScope (s : Checker) (item : WorkItem) : Prop :=
  item.left.InScope s.arena.length ∧ item.right.InScope s.arena.length

structure TameItem (kind : Ty → Prop) (s : Checker) (item : WorkItem) : Prop where
  inScope : s.ItemInScope item
  left : kind item.left
  right : kind item.right

variable {N : ℕ} {kind : Ty → Prop}

theorem Extends.tameItem (h : s.Extends s') {item : WorkItem} (hi : s.TameItem kind item) : s'.TameItem kind item :=
  ⟨⟨hi.inScope.1.mono h.length_le, hi.inScope.2.mono h.length_le⟩, hi.left, hi.right⟩

theorem Tame.insertBound (hs : Tame N kind s) (id : ℕ) (d : BoundDirection) {t : Ty}
    (ht : t.InScope s.arena.length) (hk : kind t) : Tame N kind (s.insertBound id d t) where
  level v hv := by
    rw [length_insertBound] at hv
    rw [levelOfVar_insertBound]
    exact hs.level v hv
  boundsInScope v e u hu := by
    rw [length_insertBound]
    rcases mem_bounds_insertBound hu with hold | ⟨-, -, rfl⟩
    · exact hs.boundsInScope v e u hold
    · exact ht
  kinds v e u hu := by
    rcases mem_bounds_insertBound hu with hold | ⟨-, -, rfl⟩
    · exact hs.kinds v e u hold
    · exact hk
  asleep := by
    have h : (s.insertBound id d t).memberConstraints = s.memberConstraints := changed_asleep hs.asleep.watched id
    rw [h]
    exact hs.asleep

/-- No type over the arena is deeper than a variable of it. -/
theorem Tame.levelOf_le (hs : Tame N kind s) {t : Ty} (ht : t.InScope s.arena.length) {id : ℕ}
    (hid : id < s.arena.length) : s.levelOf t ≤ s.levelOfVar id :=
  Ty.levelOf_le.2 fun v hv => (hs.level v (ht v hv)).trans (hs.level id hid).symm |>.le

/-! ### Saturation -/

/-- What is owed besides what the bounds answer. -/
def Open (s : Checker) (owed : Ty → Ty → Prop) (a b : Ty) : Prop := s.Implied a b ∨ owed a b

def Queued (work : List WorkItem) (a b : Ty) : Prop := ∃ span, (⟨a, b, span⟩ : WorkItem) ∈ work

def Symmetric (s : Checker) : Prop := ∀ x y d, Ty.var y ∈ s.bounds x d.opposite ↔ Ty.var x ∈ s.bounds y d

/-- The structural bounds of a direction are carried along the edges, `except` for some. -/
def Carried (s : Checker) (d : BoundDirection) (except : ℕ → ℕ → Ty → Prop) : Prop :=
  ∀ x y, Ty.var y ∈ s.bounds x d.opposite → ∀ t ∈ s.bounds x d, t.asVar = none →
    containsConstraint (s.bounds y d) t = true ∨ except x y t

/-- Every two structural bounds of a variable hold, up to what is owed. -/
def Paired (s : Checker) (owed : Ty → Ty → Prop) : Prop :=
  ∀ v, ∀ l ∈ s.bounds v .lower, ∀ u ∈ s.bounds v .upper, l.asVar = none → u.asVar = none →
    Declared (s.Open owed) l u

/-- A bound and a bound of the other side, in the order of the direction. -/
def Owes (owed : Ty → Ty → Prop) (d : BoundDirection) (other bound : Ty) : Prop :=
  match d with
  | .upper => owed other bound
  | .lower => owed bound other

section Saturation

variable {owed owed' : Ty → Ty → Prop} {E E' : ℕ → ℕ → Ty → Prop}

theorem Open.mono (h : s.Extends s') (howed : ∀ a b, owed a b → owed' a b) {a b : Ty} (hab : s.Open owed a b) :
    s'.Open owed' a b := hab.imp h.implied (howed a b)

/-- What was owed may be derived from what is owed. -/
theorem Paired.resolve (h : s.Paired owed) (howed : ∀ a b, owed a b → Declared (s.Open owed') a b) :
    s.Paired owed' := fun v l hl u hu hlv huv =>
  (h v l hl u hu hlv huv).bind fun a b hab => hab.elim (fun hi => .leaf (Or.inl hi)) (howed a b)

theorem Paired.insertBound (h : s.Paired owed) (howed : ∀ a b, owed a b → owed' a b) {id : ℕ} {d : BoundDirection}
    {bound : Ty} (hnew : ∀ other ∈ s.bounds id d.opposite, other.asVar = none → Owes owed' d other bound) :
    (s.insertBound id d bound).Paired owed' := by
  intro v l hl u hu hlv huv
  have hext := extends_insertBound s id d bound
  rcases mem_bounds_insertBound hl with hlold | ⟨rfl, rfl, rfl⟩
  · rcases mem_bounds_insertBound hu with huold | ⟨rfl, rfl, rfl⟩
    · exact (h v l hlold u huold hlv huv).mono fun a b => Open.mono hext howed
    · exact .leaf (Or.inr (hnew l hlold hlv))
  · rcases mem_bounds_insertBound hu with huold | ⟨-, hd, -⟩
    · exact .leaf (Or.inr (hnew u huold huv))
    · exact absurd hd nofun

theorem Paired.link (h : s.Paired owed) (l r : ℕ) : (s.link l r).Paired owed := by
  intro v a ha b hb hav hbv
  rw [mem_bounds_link_structural s hav] at ha
  rw [mem_bounds_link_structural s hbv] at hb
  exact (h v a ha b hb hav hbv).mono fun a b => Open.mono (extends_link s l r) fun _ _ h => h

theorem Carried.mono {d : BoundDirection} (h : s.Carried d E)
    (hE : ∀ x y t, E x y t → containsConstraint (s.bounds y d) t = true ∨ E' x y t) : s.Carried d E' := by
  intro x y he t ht hv
  rcases h x y he t ht hv with hc | hx
  · exact Or.inl hc
  · exact hE x y t hx

theorem Adds.carried_opposite {d : BoundDirection} {P : Ty → Prop} (h : Adds d P s s')
    (hP : ∀ t, P t → t.asVar = none) (hc : s.Carried d.opposite E) : s'.Carried d.opposite E := by
  intro x y he t ht hv
  rw [h.opposite] at ht ⊢
  refine hc x y ?_ t ht hv
  exact (h.mem_iff fun hp => by simpa [Ty.asVar] using hP _ hp).1 he

theorem Adds.symmetric {d : BoundDirection} {P : Ty → Prop} (h : Adds d P s s') (hP : ∀ t, P t → t.asVar = none)
    (hs : s.Symmetric) : s'.Symmetric := by
  intro x y e
  have hvar : ∀ v, ¬ P (.var v) := fun v hp => by simpa [Ty.asVar] using hP _ hp
  rw [h.mem_iff (hvar y), h.mem_iff (hvar x)]
  exact hs x y e

/-- What a walk keeps: tameness, what is carried, and everything that is owed. -/
structure Saturating (N : ℕ) (kind : Ty → Prop) (d : BoundDirection) (E : ℕ → ℕ → Ty → Prop)
    (owed : Ty → Ty → Prop) (s : Checker) (work : List WorkItem) : Prop where
  tame : Tame N kind s
  items : ∀ item ∈ work, s.TameItem kind item
  carried : s.Carried d E
  paired : s.Paired fun a b => owed a b ∨ Queued work a b

theorem Saturating.mono {d : BoundDirection} {work : List WorkItem} (h : Saturating N kind d E owed s work)
    (hE : ∀ x y t, E x y t → containsConstraint (s.bounds y d) t = true ∨ E' x y t) :
    Saturating N kind d E' owed s work := ⟨h.tame, h.items, h.carried.mono hE, h.paired⟩

end Saturation

end Checker

section Walk

variable {N : ℕ} {kind : Ty → Prop} {d : BoundDirection} {bound : Ty} {span : Span} {E : ℕ → ℕ → Ty → Prop}
  {owed : Ty → Ty → Prop} {work work' : List WorkItem} {s s' : Checker}

/-- A bound is inserted: the edges to go on along are exempted, and the new pairs are queued. -/
theorem Checker.Saturating.insertBound {id : ℕ} {pending : List ℕ} (hvar : bound.asVar = none)
    (hs : Saturating N kind d (fun x y t => (t = bound ∧ y ∈ id :: pending) ∨ E x y t) owed s work)
    (hbound : bound.InScope s.arena.length) (hkind : kind bound) (hid : id < s.arena.length) :
    Saturating N kind d
      (fun x y t => (t = bound ∧ y ∈ neighbours (s.bounds id d.opposite) ++ pending) ∨ E x y t) owed
      (s.insertBound id d bound)
      (work ++ (structural (s.bounds id d.opposite)).map fun other => orient d other bound span) := by
  have hext := extends_insertBound s id d bound
  have hself : containsConstraint ((s.insertBound id d bound).bounds id d) bound = true :=
    containsConstraint_iff.2 ⟨bound, mem_bounds_insertBound_self hid d bound, Ty.same_refl bound⟩
  refine ⟨hs.tame.insertBound id d hbound hkind, ?_, ?_, ?_⟩
  · intro item hitem
    rcases List.mem_append.1 hitem with hold | hnew
    · exact hext.tameItem (hs.items item hold)
    · obtain ⟨other, hother, rfl⟩ := List.mem_map.1 hnew
      have hmem := (mem_structural.1 hother).1
      have hscope : other.InScope s.arena.length := hs.tame.boundsInScope id _ other hmem
      have hk : kind other := hs.tame.kinds id _ other hmem
      refine hext.tameItem ?_
      cases d with
      | lower => exact ⟨⟨hbound, hscope⟩, hkind, hk⟩
      | upper => exact ⟨⟨hscope, hbound⟩, hk, hkind⟩
  · intro x y he t ht htv
    have heold : Ty.var y ∈ s.bounds x d.opposite := by
      rcases mem_bounds_insertBound he with hold | ⟨-, hd, -⟩
      · exact hold
      · exact absurd hd (opposite_ne d)
    rcases mem_bounds_insertBound ht with hold | ⟨rfl, -, rfl⟩
    · rcases hs.carried x y heold t hold htv with hc | ⟨rfl, hy⟩ | hx
      · exact Or.inl (hext.contains hc)
      · rcases List.mem_cons.1 hy with rfl | hy
        · exact Or.inl hself
        · exact Or.inr (Or.inl ⟨rfl, List.mem_append_right _ hy⟩)
      · exact Or.inr (Or.inr hx)
    · exact Or.inr (Or.inl ⟨rfl, List.mem_append_left _ (mem_neighbours.2 heold)⟩)
  · refine hs.paired.insertBound (fun a b hab => hab.imp (fun h => h) ?_) ?_
    · rintro ⟨span', hmem⟩
      exact ⟨span', List.mem_append_left _ hmem⟩
    · intro other hother hov
      have hmem : orient d other bound span ∈
          work ++ (structural (s.bounds id d.opposite)).map fun other => orient d other bound span :=
        List.mem_append_right _ (List.mem_map.2 ⟨other, mem_structural.2 ⟨hother, hov⟩, rfl⟩)
      cases d with
      | lower | upper => exact Or.inr ⟨span, hmem⟩

/-- **A walk** inserts its bound wherever it goes, carries it along every edge it meets and queues what it owes. -/
theorem addBound_saturating {fuel : ℕ} {pending : List ℕ} {visited : Finset ℕ} (hvar : bound.asVar = none)
    (hs : Saturating N kind d (fun x y t => (t = bound ∧ y ∈ pending) ∨ E x y t) owed s work)
    (hbound : bound.InScope s.arena.length) (hkind : kind bound) (hpending : ∀ a ∈ pending, a < s.arena.length)
    (hvisited : ∀ a ∈ visited, containsConstraint (s.bounds a d) bound = true)
    (h : addBound d bound span fuel pending visited work s = (.ok work', s')) :
    Saturating N kind d E owed s' work' ∧ ∀ a, a ∈ pending ∨ a ∈ visited →
      containsConstraint (s'.bounds a d) bound = true := by
  induction fuel generalizing pending visited work s with
  | zero => exact absurd h Attempt.stop_ne_ok
  | succ fuel ih =>
    cases pending with
    | nil =>
      obtain ⟨rfl, rfl⟩ := Attempt.pure_eq_ok.1 h
      refine ⟨hs.mono fun x y t hx => ?_, fun a ha => ?_⟩
      · exact Or.inr (hx.resolve_left fun hp => absurd hp.2 List.not_mem_nil)
      · exact hvisited a (ha.resolve_left List.not_mem_nil)
    | cons id pending =>
      have hrest : ∀ a ∈ pending, a < s.arena.length := fun a ha => hpending a (List.mem_cons_of_mem _ ha)
      -- a variable that holds the bound is done with
      have hskip : ∀ visited', (∀ a ∈ visited', containsConstraint (s.bounds a d) bound = true) →
          containsConstraint (s.bounds id d) bound = true → (∀ a, a = id ∨ a ∈ visited → a ∈ visited') →
          addBound d bound span fuel pending visited' work s = (.ok work', s') →
          Saturating N kind d E owed s' work' ∧ ∀ a, a ∈ id :: pending ∨ a ∈ visited →
            containsConstraint (s'.bounds a d) bound = true := by
        intro visited' hvisited' hid hsub h
        have hs₁ : Saturating N kind d (fun x y t => (t = bound ∧ y ∈ pending) ∨ E x y t) owed s work :=
          hs.mono fun x y t hx => by
            rcases hx with ⟨rfl, hy⟩ | hx
            · rcases List.mem_cons.1 hy with rfl | hy
              · exact Or.inl hid
              · exact Or.inr (Or.inl ⟨rfl, hy⟩)
            · exact Or.inr (Or.inr hx)
        obtain ⟨h₁, h₂⟩ := ih hs₁ hbound hrest hvisited' h
        refine ⟨h₁, fun a ha => ?_⟩
        rcases ha with ha | ha
        · rcases List.mem_cons.1 ha with rfl | ha
          · exact h₂ a (Or.inr (hsub a (Or.inl rfl)))
          · exact h₂ a (Or.inl ha)
        · exact h₂ a (Or.inr (hsub a (Or.inr ha)))
      unfold addBound at h
      split at h
      · rename_i hmem
        exact hskip visited hvisited (hvisited id hmem) (fun a ha => ha.elim (fun e => e ▸ hmem) fun ha => ha) h
      · replace h := Attempt.get_bind_eq_ok.1 h
        simp only at h
        split at h
        · rename_i hold
          refine hskip (insert id visited) (fun a ha => ?_) hold (fun a ha => Finset.mem_insert.2 ha) h
          rcases Finset.mem_insert.1 ha with rfl | ha
          · exact hold
          · exact hvisited a ha
        · replace h := Attempt.modify_bind_eq_ok.1 h
          have hid : id < s.arena.length := hpending id List.mem_cons_self
          have hext := extends_insertBound s id d bound
          have hpending' : ∀ a ∈ neighbours (s.bounds id d.opposite) ++ pending,
              a < (s.insertBound id d bound).arena.length := by
            intro a ha
            rw [length_insertBound]
            rcases List.mem_append.1 ha with ha | ha
            · exact hs.tame.boundsInScope id _ _ (mem_neighbours.1 ha) a (by simp [Ty.vars])
            · exact hrest a ha
          have hvisited' : ∀ a ∈ insert id visited,
              containsConstraint ((s.insertBound id d bound).bounds a d) bound = true := by
            intro a ha
            rcases Finset.mem_insert.1 ha with rfl | ha
            · exact containsConstraint_iff.2 ⟨bound, mem_bounds_insertBound_self hid d bound, Ty.same_refl bound⟩
            · exact hext.contains (hvisited a ha)
          obtain ⟨h₁, h₂⟩ := ih (hs.insertBound hvar hbound hkind hid) (by rwa [length_insertBound]) hpending'
            hvisited' h
          refine ⟨h₁, fun a ha => h₂ a ?_⟩
          rcases ha with ha | ha
          · rcases List.mem_cons.1 ha with rfl | ha
            · exact Or.inr (Finset.mem_insert_self _ _)
            · exact Or.inl (List.mem_append_right _ ha)
          · exact Or.inr (Finset.mem_insert_of_mem ha)

theorem addBound_saturating_one {fuel id : ℕ} (hvar : bound.asVar = none)
    (hs : Saturating N kind d (fun x y t => (t = bound ∧ y = id) ∨ E x y t) owed s work)
    (hbound : bound.InScope s.arena.length) (hkind : kind bound) (hid : id < s.arena.length)
    (h : addBound d bound span fuel [id] ∅ work s = (.ok work', s')) :
    Saturating N kind d E owed s' work' ∧ containsConstraint (s'.bounds id d) bound = true := by
  have hs₁ : Saturating N kind d (fun x y t => (t = bound ∧ y ∈ [id]) ∨ E x y t) owed s work :=
    hs.mono fun x y t hx => Or.inr (hx.imp (fun hp => ⟨hp.1, List.mem_singleton.2 hp.2⟩) fun h => h)
  obtain ⟨h₁, h₂⟩ := addBound_saturating hvar hs₁ hbound hkind (List.forall_mem_singleton.2 hid)
    (fun a ha => absurd ha (Finset.notMem_empty a)) h
  exact ⟨h₁, h₂ id (Or.inl List.mem_cons_self)⟩

/-- **The walks of a list of bounds** across one edge. -/
theorem addEach_saturating {fuel src dst : ℕ} {bounds : List Ty} (hvar : ∀ t ∈ bounds, t.asVar = none)
    (hs : Saturating N kind d (fun x y t => (x = src ∧ y = dst ∧ t ∈ bounds) ∨ E x y t) owed s work)
    (hbounds : ∀ t ∈ bounds, t.InScope s.arena.length ∧ kind t) (hdst : dst < s.arena.length)
    (h : addEach (fun bound => addBound d bound span fuel [dst] ∅) bounds work s = (.ok work', s')) :
    Saturating N kind d E owed s' work' := by
  induction bounds generalizing work s with
  | nil =>
    obtain ⟨rfl, rfl⟩ := Attempt.pure_eq_ok.1 h
    exact hs.mono fun x y t hx => Or.inr (hx.resolve_left fun hp => absurd hp.2.2 List.not_mem_nil)
  | cons bound rest ih =>
    obtain ⟨work₁, s₁, h₁, h₂⟩ := Attempt.bind_eq_ok.1 h
    obtain ⟨hbound, hrest⟩ := List.forall_mem_cons.1 hbounds
    have hs₀ : Saturating N kind d
        (fun x y t => (t = bound ∧ y = dst) ∨ (x = src ∧ y = dst ∧ t ∈ rest) ∨ E x y t) owed s work :=
      hs.mono fun x y t hx => Or.inr <| by
        rcases hx with ⟨hx, hy, ht⟩ | hx
        · rcases List.mem_cons.1 ht with ht | ht
          · exact Or.inl ⟨ht, hy⟩
          · exact Or.inr (Or.inl ⟨hx, hy, ht⟩)
        · exact Or.inr (Or.inr hx)
    have hadds : Adds d (· = bound) s s₁ := (adds_addBound d bound span fuel [dst] ∅ work).ok h₁
    obtain ⟨hs₁, -⟩ := addBound_saturating_one (hvar bound List.mem_cons_self) hs₀ hbound.1 hbound.2 hdst h₁
    refine ih (fun t ht => hvar t (List.mem_cons_of_mem _ ht)) hs₁ ?_ ?_ h₂
    · intro t ht
      rw [hadds.length]
      exact hrest t ht
    · rwa [hadds.length]

end Walk

/-! ### Work items -/

section Items

variable {N : ℕ} {kind : Ty → Prop} {d : BoundDirection} {span : Span} {owed : Ty → Ty → Prop}
  {work work' : List WorkItem} {s s' : Checker}

/-- The state between two items: every bound is carried, and every pair follows up to what is owed. -/
structure Checker.Saturated (N : ℕ) (kind : Ty → Prop) (owed : Ty → Ty → Prop) (s : Checker)
    (work : List WorkItem) : Prop where
  tame : Tame N kind s
  items : ∀ item ∈ work, s.TameItem kind item
  symmetric : s.Symmetric
  carried : ∀ d, s.Carried d fun _ _ _ => False
  paired : s.Paired fun a b => owed a b ∨ Queued work a b

/-- A walk in one direction leaves what the other direction carries. -/
theorem Checker.Saturating.saturated {P : Ty → Prop} {s₀ : Checker}
    (hs : Saturating N kind d (fun _ _ _ => False) owed s work) (hadds : Adds d P s₀ s)
    (hP : ∀ t, P t → t.asVar = none) (hsymmetric : s₀.Symmetric)
    (hopposite : s₀.Carried d.opposite fun _ _ _ => False) : Saturated N kind owed s work where
  tame := hs.tame
  items := hs.items
  symmetric := hadds.symmetric hP hsymmetric
  carried e := by
    by_cases he : e = d
    · exact he ▸ hs.carried
    · have he : e = d.opposite := by cases e <;> cases d <;> simp_all [BoundDirection.opposite]
      exact he ▸ hadds.carried_opposite hP hopposite
  paired := hs.paired

/-- **A structural bound** of a variable, all being at one level, is added to it. -/
theorem constrainBound_saturated {fuel id : ℕ} {bound : Ty} (hvar : bound.asVar = none)
    (hs : Saturated N kind owed s work) (hbound : bound.InScope s.arena.length) (hkind : kind bound)
    (hid : id < s.arena.length)
    (h : constrainBound fuel d (fun bound => addBound d bound span fuel [id] ∅) id bound span work s =
      (.ok work', s')) :
    Saturated N kind owed s' work' ∧ s.Extends s' ∧ containsConstraint (s'.bounds id d) bound = true := by
  replace h := Attempt.get_bind_eq_ok.1 h
  rw [if_pos (hs.tame.levelOf_le hbound hid)] at h
  have hadds : Adds d (· = bound) s s' := (adds_addBound d bound span fuel [id] ∅ work).ok h
  have hs₁ : Saturating N kind d (fun x y t => (t = bound ∧ y = id) ∨ False) owed s work :=
    ⟨hs.tame, hs.items, (hs.carried d).mono fun x y t hx => hx.elim, hs.paired⟩
  obtain ⟨hs₂, hcontains⟩ := addBound_saturating_one hvar hs₁ hbound hkind hid h
  have hP : ∀ t, t = bound → t.asVar = none := fun t ht => ht ▸ hvar
  exact ⟨hs₂.saturated hadds hP hs.symmetric (hs.carried _), hadds.extends, hcontains⟩

theorem Checker.Symmetric.link {l r : ℕ} (h : s.Symmetric) (hl : l < s.arena.length) (hr : r < s.arena.length) :
    (s.link l r).Symmetric := by
  have hends : Ty.var r ∈ (s.link l r).bounds l .upper ∧ Ty.var l ∈ (s.link l r).bounds r .lower :=
    ⟨subset_bounds_insertBound (mem_bounds_insertBound_self hl _ _),
      mem_bounds_insertBound_self (by rwa [length_insertBound]) _ _⟩
  intro x y d
  constructor
  · intro he
    rcases mem_bounds_link s he with hold | ⟨rfl, hd, hy⟩ | ⟨rfl, hd, hy⟩
    · exact subset_bounds_link s ((h x y d).1 hold)
    · obtain rfl := Ty.var.inj hy
      cases d with
      | lower => exact hends.2
      | upper => exact absurd hd nofun
    · obtain rfl := Ty.var.inj hy
      cases d with
      | lower => exact absurd hd nofun
      | upper => exact hends.1
  · intro he
    rcases mem_bounds_link s he with hold | ⟨rfl, rfl, hy⟩ | ⟨rfl, rfl, hy⟩
    · exact subset_bounds_link s ((h x y d).2 hold)
    · obtain rfl := Ty.var.inj hy
      exact hends.2
    · obtain rfl := Ty.var.inj hy
      exact hends.1

theorem Checker.Tame.link {l r : ℕ} (hs : Tame N kind s) (hl : l < s.arena.length) (hr : r < s.arena.length)
    (hkl : kind (.var l)) (hkr : kind (.var r)) : Tame N kind (s.link l r) :=
  (hs.insertBound l .upper (Ty.inScope_var hr) hkr).insertBound r .lower
    (Ty.inScope_var (by rwa [length_insertBound])) hkl

theorem Checker.Carried.link_lower {l r : ℕ} (h : s.Carried .lower fun _ _ _ => False) :
    (s.link l r).Carried .lower
      fun x y t => (x = l ∧ y = r ∧ t ∈ structural ((s.link l r).bounds l .lower)) ∨ False := by
  intro x y he t ht htv
  rcases mem_bounds_link s he with hold | ⟨rfl, -, hy⟩ | ⟨-, hd, -⟩
  · exact Or.inl ((extends_link s l r).contains
      ((h x y hold t ((mem_bounds_link_structural s htv).1 ht) htv).resolve_right fun h => h))
  · exact Or.inr (Or.inl ⟨rfl, Ty.var.inj hy, mem_structural.2 ⟨ht, htv⟩⟩)
  · exact absurd hd nofun

theorem Checker.Carried.link_upper {l r : ℕ} (h : s.Carried .upper fun _ _ _ => False) :
    (s.link l r).Carried .upper
      fun x y t => (x = r ∧ y = l ∧ t ∈ structural ((s.link l r).bounds r .upper)) ∨ False := by
  intro x y he t ht htv
  rcases mem_bounds_link s he with hold | ⟨-, hd, -⟩ | ⟨rfl, -, hy⟩
  · exact Or.inl ((extends_link s l r).contains
      ((h x y hold t ((mem_bounds_link_structural s htv).1 ht) htv).resolve_right fun h => h))
  · exact absurd hd nofun
  · exact Or.inr (Or.inl ⟨rfl, Ty.var.inj hy, mem_structural.2 ⟨ht, htv⟩⟩)

/-- **An item over two variables** leaves a path between them. -/
theorem constrainVariables_saturated {fuel l r : ℕ} {seen : Finset (ℕ × ℕ)} {q : Queue}
    (hs : Saturated N kind owed s work) (hseen : ∀ p ∈ seen, s.Edge p.1 p.2) (hl : l < s.arena.length)
    (hr : r < s.arena.length) (hkl : kind (.var l)) (hkr : kind (.var r))
    (h : constrainVariables fuel l r span seen work s = (.ok q, s')) :
    Saturated N kind owed s' q.2 ∧ s.Extends s' ∧ (∀ p ∈ q.1, s'.Edge p.1 p.2) ∧ s'.Flows l r := by
  cases constrainVariables_step h with
  | skipped hskip =>
    refine ⟨hs, .refl s, hseen, ?_⟩
    rcases hskip with rfl | hmem
    · exact Relation.ReflTransGen.refl
    · exact Relation.ReflTransGen.single (hseen _ hmem)
  | linked hold =>
    refine ⟨hs, .refl s, fun p hp => ?_, Relation.ReflTransGen.single hold⟩
    rcases Finset.mem_insert.1 hp with rfl | hp
    · exact hold
    · exact hseen p hp
  | @link work₁ work₂ s₁ _ hne hnew hlower hupper =>
    have htame := hs.tame.link hl hr hkl hkr
    have hP : ∀ {v d}, ∀ t ∈ structural ((s.link l r).bounds v d), t.asVar = none := fun t ht => (mem_structural.1 ht).2
    have hbounds : ∀ {v d}, ∀ t ∈ structural ((s.link l r).bounds v d), t.InScope s.arena.length ∧ kind t :=
      fun t ht => ⟨length_link s ▸ htame.boundsInScope _ _ t (mem_structural.1 ht).1,
        htame.kinds _ _ t (mem_structural.1 ht).1⟩
    have hadds₁ : Adds .lower (· ∈ structural ((s.link l r).bounds l .lower)) (s.link l r) s₁ :=
      (adds_addEach .lower span fuel r _ work).ok hlower
    have hadds' : Adds .upper (· ∈ structural ((s.link l r).bounds r .upper)) s₁ s' :=
      (adds_addEach .upper span fuel l _ work₁).ok hupper
    have hlength : s₁.arena.length = s.arena.length := hadds₁.length.trans (length_link s)
    have hs₀ : Saturating N kind .lower
        (fun x y t => (x = l ∧ y = r ∧ t ∈ structural ((s.link l r).bounds l .lower)) ∨ False) owed (s.link l r) work :=
      ⟨htame, fun item hitem => (extends_link s l r).tameItem (hs.items item hitem), (hs.carried .lower).link_lower,
        hs.paired.link l r⟩
    have hs₁ := addEach_saturating hP hs₀ (by rw [length_link]; exact hbounds) (by rwa [length_link]) hlower
    have hcarried : s₁.Carried .upper
        fun x y t => (x = r ∧ y = l ∧ t ∈ structural ((s.link l r).bounds r .upper)) ∨ False :=
      hadds₁.carried_opposite hP (hs.carried .upper).link_upper
    have hs₂ := addEach_saturating hP ⟨hs₁.tame, hs₁.items, hcarried, hs₁.paired⟩ (by rw [hlength]; exact hbounds)
      (by rwa [hlength]) hupper
    have hext : s.Extends s' := ((extends_link s l r).trans hadds₁.extends).trans hadds'.extends
    have hedge : s'.Edge l r := (hadds₁.extends.trans hadds'.extends).mem
      (subset_bounds_insertBound (mem_bounds_insertBound_self hl _ _))
    refine ⟨hs₂.saturated hadds' hP (hadds₁.symmetric hP (hs.symmetric.link hl hr)) hs₁.carried, hext, fun p hp => ?_,
      Relation.ReflTransGen.single hedge⟩
    rcases Finset.mem_insert.1 hp with rfl | hp
    · exact hedge
    · exact hext.mem (hseen p hp)

end Items

/-! ### The queue -/

/-- The pairs that an item drops because the solver takes their types for equal: its own sides, or the tails of its
two rows. -/
def Dropped (left right a b : Ty) : Prop := Ty.same a b = true ∧ (a = left ∧ b = right ∨ SameTails left right a b)

theorem Dropped.plain {left right a b : Ty} (h : Dropped left right a b) (hleft : left.Plain) : a.Plain := by
  rcases h.2 with ⟨rfl, -⟩ | ⟨l, m, rfl, -, -⟩
  · exact hleft
  · exact hleft.child List.mem_cons_self

section Queue

variable {N : ℕ} {kind : Ty → Prop} {owed : Ty → Ty → Prop} {work : List WorkItem} {s s' : Checker}

/-- What an item owed is paid. -/
theorem Checker.Saturated.pay {left right : Ty}
    (hs : Saturated N kind (fun a b => owed a b ∨ (a = left ∧ b = right)) s work)
    (h : Declared (s.Open fun a b => owed a b ∨ Queued work a b) left right) : Saturated N kind owed s work :=
  { hs with
    paired := hs.paired.resolve fun a b hab => by
      rcases hab with (howed | ⟨rfl, rfl⟩) | hqueued
      · exact .leaf (Or.inr (Or.inl howed))
      · exact h
      · exact .leaf (Or.inr (Or.inr hqueued)) }

theorem Checker.Saturated.take {left right : Ty} {span : Span}
    (hs : Saturated N kind owed s (⟨left, right, span⟩ :: work)) :
    Saturated N kind (fun a b => owed a b ∨ (a = left ∧ b = right)) s work :=
  { hs with
    items := fun item hitem => hs.items item (List.mem_cons_of_mem _ hitem)
    paired := hs.paired.resolve fun a b hab => by
      rcases hab with howed | ⟨span', hmem⟩
      · exact .leaf (Or.inr (Or.inl (Or.inl howed)))
      · rcases List.mem_cons.1 hmem with heq | hmem
        · injection heq with ha hb
          exact .leaf (Or.inr (Or.inl (Or.inr ⟨ha, hb⟩)))
        · exact .leaf (Or.inr (Or.inr ⟨span', hmem⟩)) }

theorem Checker.Saturated.decompose (hkind : PlainKind kind) {isEmpty : ℕ → Bool} {left right : Ty} {span : Span}
    {items : List (Ty × Ty)} (hs : Saturated N kind owed s work) (hitem : s.TameItem kind ⟨left, right, span⟩)
    (h : Typecheck.decompose isEmpty left right = .ok items) :
    Saturated N kind owed s (work ++ items.map fun p => ⟨p.1, p.2, span⟩) :=
  { hs with
    items := by
      intro item hmem
      rcases List.mem_append.1 hmem with hold | hnew
      · exact hs.items item hold
      · obtain ⟨p, hp, rfl⟩ := List.mem_map.1 hnew
        obtain ⟨hl, hr⟩ := decompose_parts h p hp
        exact ⟨⟨hl.forall_vars hitem.inScope.1 hitem.inScope.2, hr.forall_vars hitem.inScope.1 hitem.inScope.2⟩,
          hkind.part _ _ _ hl hitem.left hitem.right, hkind.part _ _ _ hr hitem.left hitem.right⟩
    paired := hs.paired.resolve fun a b hab => by
      rcases hab with howed | ⟨span', hmem⟩
      · exact .leaf (Or.inr (Or.inl howed))
      · exact .leaf (Or.inr (Or.inr ⟨span', List.mem_append_left _ hmem⟩)) }

/-- **A work item** adds the bounds and queues the obligations that it follows from. -/
theorem constrainWorkItem_saturated (hkind : PlainKind kind) {fuel : ℕ} {can : Ty → Ty → Span → Solve Bool}
    {left right : Ty} {span : Span} {seen : Finset (ℕ × ℕ)} {q : Queue}
    (hdropped : ∀ a b, Dropped left right a b → a = b ∨ a.DistinctNames ∨ owed a b)
    (hs : Saturated N kind owed s (⟨left, right, span⟩ :: work)) (hseen : ∀ p ∈ seen, s.Edge p.1 p.2)
    (h : constrainWorkItem fuel can ⟨left, right, span⟩ seen work s = (.ok q, s')) :
    Saturated N kind owed s' q.2 ∧ s.Extends s' ∧ ∀ p ∈ q.1, s'.Edge p.1 p.2 := by
  have hitem := hs.items _ List.mem_cons_self
  have hplain : left.Plain := hkind.plain left hitem.left
  have hplainRight : right.Plain := hkind.plain right hitem.right
  have hdeclared : ∀ {leaf : Ty → Ty → Prop}, (∀ a b, owed a b → leaf a b) →
      ∀ a b, Dropped left right a b → Declared leaf a b := by
    intro leaf hleaf a b hab
    rcases hdropped a b hab with rfl | hnames | howed
    · exact .refl
    · exact (declared_of_same (hab.plain hplain) hnames hab.1).1
    · exact .leaf (hleaf a b howed)
  have htake := hs.take
  cases constrainWorkItem_step h with
  | same hsame =>
    have hleft : Declared (s.Open fun a b => owed a b ∨ Queued work a b) left right :=
      hdeclared (fun a b h => Or.inr (Or.inl h)) left right ⟨hsame, Or.inl ⟨rfl, rfl⟩⟩
    exact ⟨htake.pay hleft, .refl s, hseen⟩
  | top => exact ⟨htake.pay .top, .refl s, hseen⟩
  | bottom => exact ⟨htake.pay .bottom, .refl s, hseen⟩
  | edge hrun =>
    obtain ⟨hs', hext, hseen', hflows⟩ := constrainVariables_saturated htake hseen
      (hitem.inScope.1 _ (by simp [Ty.vars])) (hitem.inScope.2 _ (by simp [Ty.vars])) hitem.left hitem.right hrun
    exact ⟨hs'.pay (.leaf (Or.inl (.path hflows))), hext, hseen'⟩
  | above hvar hq hrun =>
    obtain ⟨hs', hext, hcontains⟩ := constrainBound_saturated hvar htake hitem.inScope.2 hitem.right
      (hitem.inScope.1 _ (by simp [Ty.vars])) hrun
    exact ⟨hs'.pay (.leaf (Or.inl (.above Relation.ReflTransGen.refl hcontains))), hext,
      fun p hp => hext.mem (hseen p hp)⟩
  | below hvar hq hrun =>
    obtain ⟨hs', hext, hcontains⟩ := constrainBound_saturated hvar htake hitem.inScope.1 hitem.left
      (hitem.inScope.2 _ (by simp [Ty.vars])) hrun
    exact ⟨hs'.pay (.leaf (Or.inl (.below Relation.ReflTransGen.refl hcontains))), hext,
      fun p hp => hext.mem (hseen p hp)⟩
  | @structural _ _ items _ _ hitems =>
    refine ⟨(htake.decompose hkind hitem hitems).pay
      (declared_of_decompose hitems (fun p hp => ?_) fun a b htails => ?_),
      .refl s, hseen⟩
    · exact .leaf (Or.inr (Or.inr ⟨span, List.mem_append_right _ (List.mem_map.2 ⟨p, hp, rfl⟩)⟩))
    · have hsame : Ty.same a b = true := by
        obtain ⟨l, m, -, -, hsame⟩ := htails
        exact hsame
      exact hdeclared (fun a b h => Or.inr (Or.inl h)) a b ⟨hsame, Or.inr htails⟩
  | qualifiedLeft _ => exact absurd hplain.here id
  | qualifiedRight _ => exact absurd hplainRight.here id
  | forallLeft _ => exact absurd hplain.here id
  | forallRight _ => exact absurd hplainRight.here id
  | unionLeft _ => exact absurd hplain.here id
  | unionRight _ => exact absurd hplainRight.here id

theorem takeReadyMemberConstraints_asleep {lookup : MemberLookup} {span : Span} {n : ℕ} {ready : List WorkItem}
    (hs : Asleep s.memberConstraints) (h : takeReadyMemberConstraints lookup span n s = (.ok ready, s')) :
    ready = [] ∧ s' = s := by
  cases n with
  | zero => exact absurd h Attempt.stop_ne_ok
  | succ n =>
    replace h := Attempt.get_bind_eq_ok.1 h
    rw [hs.queued] at h
    obtain ⟨rfl, rfl⟩ := Attempt.pure_eq_ok.1 h
    exact ⟨rfl, rfl⟩

/-- **A run of the queue** whose dropped pairs are harmless, or owed. -/
theorem constrainIdsWhile_saturated (hkind : PlainKind kind) {guard : Checker → WorkItem → Bool}
    {lookup : MemberLookup} {fuel : ℕ} {left right : Ty} {span : Span} {u : Unit}
    (hguard : ∀ s item, guard s item = true → kind item.left → ∀ a b, Dropped item.left item.right a b →
      a = b ∨ a.DistinctNames ∨ owed a b)
    (hs : Saturated N kind owed s []) (hitem : s.TameItem kind ⟨left, right, span⟩)
    (h : constrainIdsWhile guard lookup fuel left right span s = (.ok u, s')) :
    Saturated N kind owed s' [] ∧ s.Extends s' := by
  cases fuel with
  | zero => exact absurd h Attempt.stop_ne_ok
  | succ fuel =>
    have hstart : Saturated N kind owed s [⟨left, right, span⟩] :=
      { hs with
        items := List.forall_mem_singleton.2 hitem
        paired := hs.paired.resolve fun a b hab => hab.elim (fun howed => .leaf (Or.inr (Or.inl howed)))
          fun ⟨_, hmem⟩ => absurd hmem List.not_mem_nil }
    let inv := fun s₁ (seen : Finset (ℕ × ℕ)) work =>
      Saturated N kind owed s₁ work ∧ s.Extends s₁ ∧ ∀ p ∈ seen, s₁.Edge p.1 p.2
    have hstep : ∀ s₁ seen item work q s₂, inv s₁ seen (item :: work) →
        guardItem guard (constrainWorkItem fuel (guardChoice (canConstrainIds lookup fuel)
          (constrainIdsWhile guard lookup fuel))) item seen work s₁ = (.ok q, s₂) → inv s₂ q.1 q.2 := by
      rintro s₁ seen ⟨l, r, span'⟩ work q s₂ ⟨hs₁, hext₁, hseen⟩ hrun
      obtain ⟨hg, hrun⟩ := guardItem_ok hrun
      obtain ⟨hs₂, hext₂, hseen₂⟩ := constrainWorkItem_saturated hkind
        (hguard s₁ _ hg (hs₁.items _ List.mem_cons_self).left) hs₁ hseen hrun
      exact ⟨hs₂, hext₁.trans hext₂, hseen₂⟩
    have hready : ∀ n s₁ seen ready s₂, inv s₁ seen [] →
        takeReadyMemberConstraints lookup span n s₁ = (.ok ready, s₂) → inv s₂ seen ready := by
      rintro n s₁ seen ready s₂ ⟨hs₁, hext₁, hseen⟩ hrun
      obtain ⟨rfl, rfl⟩ := takeReadyMemberConstraints_asleep hs₁.tame.asleep hrun
      exact ⟨hs₁, hext₁, hseen⟩
    obtain ⟨seen', hs', hext, -⟩ := constrainLoop_invariant inv hstep hready
      ⟨hstart, Extends.refl s, fun p hp => absurd hp (Finset.notMem_empty p)⟩ h
    exact ⟨hs', hext⟩

end Queue

/-! ### The closure over runs -/

/-- **Propagation closure**: every edge is recorded at both ends and has carried the structural bounds, and every two
structural bounds of a variable follow, by the declarative rules, from what the recorded bounds answer. -/
structure Checker.Closed (s : Checker) : Prop where
  symmetric : s.Symmetric
  carried : ∀ d, s.Carried d fun _ _ _ => False
  paired : ∀ v, ∀ l ∈ s.bounds v .lower, ∀ u ∈ s.bounds v .upper, l.asVar = none → u.asVar = none →
    Declared s.Implied l u

section Closed

variable {N : ℕ} {kind : Ty → Prop} {owed : Ty → Ty → Prop} {lookup : MemberLookup} {s s' : Checker}

theorem Checker.Saturated.closed (hs : Saturated N kind (fun _ _ => False) s []) : s.Closed where
  symmetric := hs.symmetric
  carried := hs.carried
  paired v l hl u hu hlv huv := (hs.paired v l hl u hu hlv huv).mono fun a b hab => by
    rcases hab with himplied | howed | ⟨_, hmem⟩
    · exact himplied
    · exact absurd howed id
    · exact absurd hmem List.not_mem_nil

/-- A state with the same bounds. -/
theorem Checker.Saturated.of_bounds (hs : Saturated N kind owed s []) (hext : s.Extends s')
    (hbounds : ∀ v d, s'.bounds v d = s.bounds v d) (hlevel : ∀ v < s'.arena.length, s'.levelOfVar v = N)
    (hasleep : Asleep s'.memberConstraints) : Saturated N kind owed s' [] where
  tame :=
    { level := hlevel
      boundsInScope := fun v d t ht => (hs.tame.boundsInScope v d t (hbounds v d ▸ ht)).mono hext.length_le
      kinds := fun v d t ht => hs.tame.kinds v d t (hbounds v d ▸ ht)
      asleep := hasleep }
  items item hitem := absurd hitem List.not_mem_nil
  symmetric x y d := by
    rw [hbounds, hbounds]
    exact hs.symmetric x y d
  carried d x y he t ht htv := by
    rw [hbounds] at he ht ⊢
    exact hs.carried d x y he t ht htv
  paired v l hl u hu hlv huv := by
    rw [hbounds] at hl hu
    exact (hs.paired v l hl u hu hlv huv).mono fun a b => Open.mono hext fun _ _ h => h

theorem saturated_empty : Saturated N kind owed Checker.empty [] where
  tame :=
    { level := fun v hv => absurd hv (Nat.not_lt_zero v)
      boundsInScope := fun _ d t ht => by cases d <;> exact absurd ht List.not_mem_nil
      kinds := fun v _ _ ht => absurd (lt_of_mem_bounds ht) (Nat.not_lt_zero v)
      asleep := ⟨fun _ => rfl, rfl⟩ }
  items _ hitem := absurd hitem List.not_mem_nil
  symmetric x y _ := ⟨fun h => absurd (lt_of_mem_bounds h) (Nat.not_lt_zero x),
    fun h => absurd (lt_of_mem_bounds h) (Nat.not_lt_zero y)⟩
  carried _ x _ he := absurd (lt_of_mem_bounds he) (Nat.not_lt_zero x)
  paired v _ hl := absurd (lt_of_mem_bounds hl) (Nat.not_lt_zero v)

theorem extends_allocateOne (s : Checker) (level : ℕ) (isEmpty : Bool) : s.Extends (s.allocateOne level isEmpty) := by
  have h : s.Extends (s.allocate level) :=
    ⟨by rw [length_allocate]; omega, fun v hv => congrArg Variable.level (variableOf_allocate_lt s level hv),
      fun v d => by rw [bounds_allocate]⟩
  cases isEmpty with
  | false => exact h
  | true => exact ⟨h.length_le, h.levelOfVar, h.bounds⟩

theorem Checker.Saturated.allocateOne (hs : Saturated N kind owed s []) (isEmpty : Bool) :
    Saturated N kind owed (s.allocateOne N isEmpty) [] := by
  have hlevel : ∀ v < (s.allocate N).arena.length, (s.allocate N).levelOfVar v = N := by
    intro v hv
    rw [length_allocate] at hv
    rcases Nat.lt_succ_iff_lt_or_eq.1 hv with hlt | rfl
    · exact (congrArg Variable.level (variableOf_allocate_lt s N hlt)).trans (hs.tame.level v hlt)
    · exact congrArg Variable.level (variableOf_allocate_self s N)
  refine hs.of_bounds (extends_allocateOne s N isEmpty) (fun v d => ?_) ?_ ?_
  · cases isEmpty <;> exact bounds_allocate s N v d
  · cases isEmpty <;> exact hlevel
  · cases isEmpty <;> exact hs.tame.asleep

theorem constrainWhile_saturated (hkind : PlainKind kind) {guard : Checker → WorkItem → Bool} {fuel : ℕ}
    {left right : Ty} {span : Span} {u : Unit}
    (hguard : ∀ s item, guard s item = true → kind item.left → ∀ a b, Dropped item.left item.right a b →
      a = b ∨ a.DistinctNames ∨ owed a b)
    (hs : Saturated N kind owed s []) (hitem : s.TameItem kind ⟨left, right, span⟩)
    (h : constrainWhile guard lookup fuel left right span s = (.ok u, s')) :
    Saturated N kind owed s' [] ∧ s.Extends s' := by
  unfold constrainWhile at h
  rcases hr : constrainIdsWhile guard lookup fuel left right span s with ⟨e | u', s₁⟩
  · simp [hr] at h
  · rw [hr] at h
    obtain ⟨-, rfl⟩ := Prod.mk.inj h
    obtain ⟨hs₁, hext⟩ := constrainIdsWhile_saturated hkind hguard hs hitem hr
    have hclear : s₁.Extends { s₁ with boundInsertions := [] } := ⟨le_rfl, fun _ _ => rfl, fun _ _ => List.prefix_rfl⟩
    exact ⟨hs₁.of_bounds hclear (fun _ _ => rfl) hs₁.tame.level hs₁.tame.asleep, hext.trans hclear⟩

/-- **A run** whose dropped pairs are harmless, or owed. -/
theorem run_saturated (hkind : PlainKind kind) {guard : Checker → WorkItem → Bool}
    (hguard : ∀ s item, guard s item = true → kind item.left → ∀ a b, Dropped item.left item.right a b →
      a = b ∨ a.DistinctNames ∨ owed a b)
    (h : s.Run (· = N) kind (constrainWhile guard lookup)) : Saturated N kind owed s [] := by
  induction h with
  | empty => exact saturated_empty
  | fresh isEmpty _ hlevel ih => exact hlevel ▸ ih.allocateOne isEmpty
  | constrain _ hleft hright hsolve ih =>
    exact (constrainWhile_saturated hkind hguard ih ⟨⟨hleft.2, hright.2⟩, hleft.1, hright.1⟩ hsolve).1

/-- **Monotonicity**: a successful call loses no variable and no bound. -/
theorem constrain_extends {fuel : ℕ} {left right : Ty} {span : Span} {u : Unit}
    (h : s.Run (· = N) Ty.Plain (constrain lookup)) (hleft : left.Plain ∧ left.InScope s.arena.length)
    (hright : right.Plain ∧ right.InScope s.arena.length)
    (hsolve : constrain lookup fuel left right span s = (.ok u, s')) : s.Extends s' := by
  rw [← constrainWhile_true] at h hsolve
  have hguard : ∀ (s : Checker) (item : WorkItem), true = true → item.left.Plain → ∀ a b,
      Dropped item.left item.right a b → a = b ∨ a.DistinctNames ∨ True := fun _ _ _ _ _ _ _ => Or.inr (Or.inr trivial)
  have hs : Saturated N Ty.Plain (fun _ _ => True) s [] := run_saturated plainKind_plain hguard h
  exact (constrainWhile_saturated plainKind_plain hguard hs ⟨⟨hleft.2, hright.2⟩, hleft.1, hright.1⟩ hsolve).2

/-- The types that an item drops as equal are the same, or the left one repeats no name in a row. -/
def WorkItem.Alike (item : WorkItem) : Prop :=
  ∀ a b, Dropped item.left item.right a b → a = b ∨ a.DistinctNames

open Classical in
/-- The test of `WorkItem.Alike`. -/
noncomputable def alike (_ : Checker) (item : WorkItem) : Bool := decide item.Alike

/-- **Propagation closure and monotonicity**: a successful call keeps every variable and every bound, and a run that
drops no item between rows with repeated names ends in a closed state. -/
theorem run_closed (N : ℕ) (lookup : MemberLookup) :
    (∀ (s s' : Checker) (fuel : ℕ) (left right : Ty) (span : Span), s.Run (· = N) Ty.Plain (constrain lookup) →
      left.Plain ∧ left.InScope s.arena.length → right.Plain ∧ right.InScope s.arena.length →
      constrain lookup fuel left right span s = (.ok (), s') → s.Extends s') ∧
    ∀ s : Checker, s.Run (· = N) Ty.Plain (constrainWhile alike lookup) →
      s.Run (· = N) Ty.Plain (constrain lookup) ∧ s.Closed := by
  refine ⟨fun s s' fuel left right span h hleft hright hsolve => constrain_extends h hleft hright hsolve,
    fun s h => ⟨run_of_guarded h, ?_⟩⟩
  have hguard : ∀ (s : Checker) (item : WorkItem), alike s item = true → item.left.Plain → ∀ a b,
      Dropped item.left item.right a b → a = b ∨ a.DistinctNames ∨ False := by
    intro s item hitem _ a b hab
    have halike : item.Alike := by simpa [alike] using hitem
    exact (halike a b hab).imp (fun h => h) Or.inl
  exact (run_saturated plainKind_plain hguard h).closed

end Closed

/-! ### Rows with repeated names -/

/-- One variable. -/
def oneVariable : Checker := Checker.empty.allocateOne 0 false

theorem run_oneVariable {types : Ty → Prop} {solve : ℕ → Ty → Ty → Span → Solve Unit} :
    oneVariable.Run (· = 0) types solve := .fresh false .empty rfl

theorem plain_var (v : ℕ) : (Ty.var v).Plain := .intro trivial fun _ hc => absurd hc List.not_mem_nil

theorem plain_int : intType.Plain := .intro trivial fun _ hc => absurd hc List.not_mem_nil

/-- Three variables. -/
def unlinked : Checker := (oneVariable.allocateOne 0 false).allocateOne 0 false

/-- A variable, a range or an array of a variable. -/
def Ty.shallow : Ty → Bool
  | .var _ | .range _ _ _ | .array (.var _) => true
  | _ => false

def shallowly (_ : Checker) (item : WorkItem) : Bool := item.left.shallow

theorem alike_of_shallowly (s : Checker) (item : WorkItem) (h : shallowly s item = true) : alike s item = true := by
  suffices halike : item.Alike by simpa [alike] using halike
  rintro a b ⟨-, hab⟩
  obtain ⟨left, right, span⟩ := item
  have hleaf : ∀ {t : Ty}, t.children = [] → t.NamesOnce → t.DistinctNames := fun hnone h =>
    .intro h fun c hc => absurd (hnone ▸ hc) List.not_mem_nil
  rcases hab with ⟨rfl, rfl⟩ | ⟨l, m, rfl, -, -⟩
  · cases a with
    | var v => exact Or.inr (hleaf rfl trivial)
    | range domain low high => exact Or.inr (hleaf rfl trivial)
    | array element =>
      cases element with
      | var v =>
        refine Or.inr (.intro trivial fun c hc => ?_)
        obtain rfl := List.mem_singleton.1 hc
        exact hleaf rfl trivial
      | _ => cases h
    | _ => cases h
  · cases h

/-- `x0` flows to `x1`; an array of `x2` comes in below, and an array of integers is asked for above. -/
def linked : Checker := (constrainWhile shallowly .none 9 (.var 0) (.var 1) ⟨0, 0⟩ unlinked).2
def linkedBelow : Checker := (constrainWhile shallowly .none 9 (.array (.var 2)) (.var 0) ⟨0, 0⟩ linked).2
def linkedAbove : Checker := (constrainWhile shallowly .none 9 (.var 1) (.array intType) ⟨0, 0⟩ linkedBelow).2

theorem plain_array {t : Ty} (h : t.Plain) : (Ty.array t).Plain := .intro trivial fun _ hc => by
  obtain rfl := List.mem_singleton.1 hc
  exact h

/-- The array reaches the other variable, its elements are integers, and nothing that was recorded before is lost. -/
theorem run_closed_linked :
    linkedBelow.Extends linkedAbove ∧ linkedAbove.Closed ∧ .array (.var 2) ∈ linkedAbove.bounds 1 .lower ∧
      .array intType ∈ linkedAbove.bounds 1 .upper ∧ intType ∈ linkedAbove.bounds 2 .upper := by
  have harray : (Ty.array (.var 2)).Plain ∧ (Ty.array intType).Plain := ⟨plain_array (plain_var 2), plain_array plain_int⟩
  have hsolves : ∀ {s s' : Checker} {left right : Ty},
      constrainWhile shallowly .none 9 left right ⟨0, 0⟩ s = (.ok (), s') →
      constrainWhile alike .none 9 left right ⟨0, 0⟩ s = (.ok (), s') :=
    fun h => constrainWhile_mono alike_of_shallowly _ _ _ _ _ _ _ h
  have hstart : unlinked.Run (· = 0) Ty.Plain (constrainWhile alike .none) :=
    .fresh false (.fresh false run_oneVariable rfl) rfl
  have hlinked : linked.Run (· = 0) Ty.Plain (constrainWhile alike .none) :=
    .constrain hstart ⟨plain_var 0, by decide⟩ ⟨plain_var 1, by decide⟩ (hsolves (Prod.ext (by decide) rfl))
  have hbelow : linkedBelow.Run (· = 0) Ty.Plain (constrainWhile alike .none) :=
    .constrain hlinked ⟨harray.1, by decide⟩ ⟨plain_var 0, by decide⟩ (hsolves (Prod.ext (by decide) rfl))
  have habove := hsolves (Prod.ext (by decide) rfl : constrainWhile shallowly .none 9 (.var 1) (.array intType) ⟨0, 0⟩
    linkedBelow = (.ok (), linkedAbove))
  obtain ⟨hextends, hclosed⟩ := run_closed 0 .none
  exact ⟨hextends _ _ _ _ _ _ (run_of_guarded hbelow) ⟨plain_var 1, by decide⟩ ⟨harray.2, by decide⟩
      (constrainWhile_refines _ _ _ _ _ _ _ habove),
    (hclosed _ (.constrain hbelow ⟨plain_var 1, by decide⟩ ⟨harray.2, by decide⟩ habove)).2, by decide, by decide,
    by decide⟩

/-- A record that repeats a field, and a record with another field in its place. -/
def repeated : Ty := .record [("a", intType), ("a", intType)]
def replaced : Ty := .record [("a", intType), ("b", intType)]

def repeatedBelow : Checker := (constrain .none 5 repeated (.var 0) ⟨0, 0⟩ oneVariable).2

/-- **The closure fails**: the pair of the two bounds of the variable is dropped, for every field of the left row is
found on the right and the rows are equally long, but the left record lacks the field `b`. -/
theorem closure_fails :
    ¬ ∀ s : Checker, s.Run (· = 0) Ty.Plain (constrain .none) → s.Closed := by
  intro h
  have hplain : repeated.Plain ∧ replaced.Plain := by
    constructor <;> refine .intro trivial fun c hc => ?_ <;> obtain rfl : c = intType := by
      simpa [repeated, replaced, Ty.children] using hc
    all_goals exact plain_int
  have hbelow : (constrain .none 5 repeated (.var 0) ⟨0, 0⟩ oneVariable).1 = .ok () := by decide
  have habove : (constrain .none 5 (.var 0) replaced ⟨0, 0⟩ repeatedBelow).1 = .ok () := by decide
  have hrun₁ : repeatedBelow.Run (· = 0) Ty.Plain (constrain .none) :=
    .constrain run_oneVariable ⟨hplain.1, by decide⟩ ⟨plain_var 0, by decide⟩ (Prod.ext hbelow rfl)
  have hrun₂ : (constrain .none 5 (.var 0) replaced ⟨0, 0⟩ repeatedBelow).2.Run (· = 0) Ty.Plain (constrain .none) :=
    .constrain hrun₁ ⟨plain_var 0, by decide⟩ ⟨hplain.2, by decide⟩ (Prod.ext habove rfl)
  have hdeclared := (h _ hrun₂).paired 0 repeated (by decide) replaced (by decide) rfl rfl
  generalize hl : repeated = l, hr : replaced = r at hdeclared
  cases hdeclared with
  | refl => exact absurd (hl.trans hr.symm) (by decide)
  | leaf himplied => cases himplied <;> simp_all [repeated, replaced]
  | record hfields _ =>
    injection hl with hl
    injection hr with hr
    subst hl hr
    exact absurd (hfields ("b", intType) (by simp) rfl) (by decide)
  | _ => simp_all [repeated, replaced]

end Blot.Typecheck
