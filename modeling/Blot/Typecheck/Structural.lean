import Blot.Typecheck.Constrain

/-!
# The obligations of two structural types

`decompose` breaks `left ≤ right` into obligations between parts of the two sides.  `Part left right t` says what such
a part is; whatever the parts of two types inherit, their obligations inherit.
-/

namespace Blot.Typecheck

open Blot.Support Checker

/-- A part of an obligation of `left ≤ right`: a side, a child of a side, a closed row of effect labels, or the record
of one field of the right side. -/
inductive Part (left right : Ty) : Ty → Prop where
  | left : Part left right left
  | right : Part left right right
  | leftChild {c : Ty} (h : c ∈ left.children) : Part left right c
  | rightChild {c : Ty} (h : c ∈ right.children) : Part left right c
  | labels (labels : Finset String) : Part left right (.effects labels)
  | field (name : String) {c : Ty} (h : c ∈ right.children) : Part left right (.record [(name, c)])

theorem mem_of_rowGet {fields : List (String × Ty)} {name : String} {t : Ty} (h : rowGet fields name = some t) :
    (name, t) ∈ fields := by
  obtain ⟨l₁, l₂, rfl, -⟩ := List.lookup_eq_some_iff.1 h
  simp

theorem mem_snd_of_rowGet {fields : List (String × Ty)} {name : String} {t : Ty} (h : rowGet fields name = some t) :
    t ∈ fields.map Prod.snd := List.mem_map.2 ⟨(name, t), mem_of_rowGet h, rfl⟩

/-- **The obligations of two records**: one for each name of both; the names that the left side lacks may be omitted. -/
theorem of_decomposeRecord {left : Ty} {fs gs : List (String × Ty)} {items : List (Ty × Ty)}
    (h : decomposeRecord left fs gs = .ok items) :
    (∀ p ∈ gs, rowGet fs p.1 = none → admitsOmission p.2 = true) ∧
      items = gs.filterMap fun p => (rowGet fs p.1).map fun t => (t, p.2) := by
  induction gs generalizing items with
  | nil => exact ⟨nofun, (Except.ok.inj h).symm⟩
  | cons q rest ih =>
    obtain ⟨name, rightField⟩ := q
    rw [List.forall_mem_cons, List.filterMap_cons]
    unfold decomposeRecord at h
    cases hget : rowGet fs name with
    | none =>
      rw [hget] at h
      simp only at h
      split at h
      · rename_i homit
        exact ⟨⟨fun _ => homit, (ih h).1⟩, (ih h).2⟩
      · simp at h
    | some leftField =>
      rw [hget] at h
      simp only at h
      cases hrest : decomposeRecord left fs rest with
      | error e => simp [hrest] at h
      | ok items' =>
        rw [hrest] at h
        obtain rfl := Except.ok.inj h
        exact ⟨⟨nofun, (ih hrest).1⟩, congrArg _ (ih hrest).2⟩

/-- **The obligations of two updates**: one for each name, which both have. -/
theorem of_decomposeUpdates {gs fs : List (String × Ty)} {items : List (Ty × Ty)}
    (h : decomposeUpdates gs fs = some items) :
    (∀ p ∈ fs, rowGet gs p.1 ≠ none) ∧ items = fs.filterMap fun p => (rowGet gs p.1).map fun t => (p.2, t) := by
  induction fs generalizing items with
  | nil => exact ⟨nofun, (Option.some.inj h).symm⟩
  | cons q rest ih =>
    obtain ⟨name, leftField⟩ := q
    rw [List.forall_mem_cons, List.filterMap_cons]
    unfold decomposeUpdates at h
    cases hget : rowGet gs name with
    | none => simp [hget] at h
    | some rightField =>
      cases hrest : decomposeUpdates gs rest with
      | none => simp [hget, hrest] at h
      | some items' =>
        rw [hget, hrest] at h
        obtain rfl := Option.some.inj h
        exact ⟨⟨nofun, (ih hrest).1⟩, congrArg _ (ih hrest).2⟩

theorem decomposeRecord_parts {left : Ty} {fs gs : List (String × Ty)} {items : List (Ty × Ty)}
    (h : decomposeRecord left fs gs = .ok items) :
    ∀ p ∈ items, p.1 ∈ fs.map Prod.snd ∧ p.2 ∈ gs.map Prod.snd := by
  obtain ⟨-, rfl⟩ := of_decomposeRecord h
  intro p hp
  obtain ⟨q, hq, hp⟩ := List.mem_filterMap.1 hp
  obtain ⟨t, hget, rfl⟩ := Option.map_eq_some_iff.1 hp
  exact ⟨mem_snd_of_rowGet hget, List.mem_map_of_mem hq⟩

theorem decomposeUpdate_parts {base : Ty} {fs gs : List (String × Ty)} :
    ∀ p ∈ decomposeUpdate base fs gs, (p.1 ∈ fs.map Prod.snd ∧ p.2 ∈ gs.map Prod.snd) ∨
      (p.1 = base ∧ ∃ name, ∃ c ∈ gs.map Prod.snd, p.2 = .record [(name, c)]) := by
  intro p hp
  obtain ⟨⟨name, rightField⟩, hg, rfl⟩ := List.mem_map.1 hp
  have hc : rightField ∈ gs.map Prod.snd := List.mem_map.2 ⟨_, hg, rfl⟩
  simp only
  cases hget : rowGet fs name with
  | some updated => exact Or.inl ⟨mem_snd_of_rowGet hget, hc⟩
  | none => exact Or.inr ⟨rfl, name, rightField, hc, rfl⟩

theorem decomposeUpdates_parts {gs fs : List (String × Ty)} {items : List (Ty × Ty)}
    (h : decomposeUpdates gs fs = some items) :
    ∀ p ∈ items, p.1 ∈ fs.map Prod.snd ∧ p.2 ∈ gs.map Prod.snd := by
  obtain ⟨-, rfl⟩ := of_decomposeUpdates h
  intro p hp
  obtain ⟨q, hq, hp⟩ := List.mem_filterMap.1 hp
  obtain ⟨t, hget, rfl⟩ := Option.map_eq_some_iff.1 hp
  exact ⟨List.mem_map_of_mem hq, mem_snd_of_rowGet hget⟩

theorem decomposeCases_parts {fs gs : List (String × Ty)} :
    ∀ p ∈ decomposeCases fs gs, p.1 ∈ fs.map Prod.snd ∧ p.2 ∈ gs.map Prod.snd := by
  intro p hp
  obtain ⟨⟨name, leftCase⟩, hf, hp⟩ := List.mem_filterMap.1 hp
  obtain ⟨rightCase, hget, rfl⟩ := Option.map_eq_some_iff.1 hp
  exact ⟨List.mem_map.2 ⟨_, hf, rfl⟩, mem_snd_of_rowGet hget⟩

/-- **Every obligation is between parts.** -/
theorem decompose_parts {isEmpty : ℕ → Bool} {left right : Ty} {items : List (Ty × Ty)}
    (h : decompose isEmpty left right = .ok items) :
    ∀ p ∈ items, Part left right p.1 ∧ Part left right p.2 := by
  have hchildren : ∀ {l r : Ty} {items : List (Ty × Ty)},
      (∀ p ∈ items, p.1 ∈ l.children ∧ p.2 ∈ r.children) → ∀ p ∈ items, Part l r p.1 ∧ Part l r p.2 :=
    fun h p hp => ⟨.leftChild (h p hp).1, .rightChild (h p hp).2⟩
  have hboth : ∀ {l r a b : Ty}, a ∈ l.children → b ∈ r.children →
      ∀ p ∈ [(a, b), (b, a)], Part l r p.1 ∧ Part l r p.2 := by
    intro l r a b ha hb p hp
    simp only [List.mem_cons, List.not_mem_nil, or_false] at hp
    rcases hp with rfl | rfl
    · exact ⟨.leftChild ha, .rightChild hb⟩
    · exact ⟨.rightChild hb, .leftChild ha⟩
  unfold decompose at h
  split at h
  case h_3 d p e r d' p' e' r' =>
    split at h
    · simp at h
    · obtain rfl := Except.ok.inj h
      intro q hq
      simp only [List.mem_cons, List.not_mem_nil, or_false] at hq
      rcases hq with rfl | rfl | rfl
      · exact ⟨.rightChild (by simp [Ty.children]), .leftChild (by simp [Ty.children])⟩
      · exact ⟨.leftChild (by simp [Ty.children]), .rightChild (by simp [Ty.children])⟩
      · exact ⟨.leftChild (by simp [Ty.children]), .rightChild (by simp [Ty.children])⟩
  case h_4 fs gs => exact hchildren (decomposeRecord_parts h)
  case h_5 base fs gs =>
    obtain rfl := Except.ok.inj h
    intro p hp
    rcases decomposeUpdate_parts p hp with ⟨h₁, h₂⟩ | ⟨h₁, name, c, hc, h₂⟩
    · exact ⟨.leftChild (List.mem_cons_of_mem _ h₁), .rightChild h₂⟩
    · exact ⟨.leftChild (h₁ ▸ List.mem_cons_self), h₂ ▸ .field name hc⟩
  case h_6 base fs base' gs =>
    split at h
    · simp at h
    · split at h
      · rename_i items' hitems
        obtain rfl := Except.ok.inj h
        intro p hp
        rcases List.mem_cons.1 hp with rfl | hp
        · exact ⟨.leftChild List.mem_cons_self, .rightChild List.mem_cons_self⟩
        · have hparts := decomposeUpdates_parts hitems p hp
          exact ⟨.leftChild (List.mem_cons_of_mem _ hparts.1), .rightChild (List.mem_cons_of_mem _ hparts.2)⟩
      · simp at h
  case h_7 a b =>
    have hab := @hboth (.array a) (.array b) a b List.mem_cons_self List.mem_cons_self
    have hone : ∀ p ∈ [(a, b)], Part (.array a) (.array b) p.1 ∧ Part (.array a) (.array b) p.2 := by
      intro p hp
      exact hab p (List.mem_cons.2 (Or.inl (List.mem_singleton.1 hp)))
    split at h
    · split at h <;> obtain rfl := Except.ok.inj h
      · exact hab
      · exact hone
    · obtain rfl := Except.ok.inj h
      exact hone
  case h_8 a b | h_9 a b =>
    obtain rfl := Except.ok.inj h
    exact hboth List.mem_cons_self List.mem_cons_self
  case h_10 f a g b =>
    split at h
    · obtain rfl := Except.ok.inj h
      exact hboth List.mem_cons_self List.mem_cons_self
    · simp at h
  case h_11 fs o gs o' =>
    split at h
    · simp at h
    · obtain rfl := Except.ok.inj h
      exact hchildren decomposeCases_parts
  case h_14 a m tail =>
    obtain rfl := Except.ok.inj h
    intro p hp
    obtain rfl := List.mem_singleton.1 hp
    exact ⟨.left, .rightChild List.mem_cons_self⟩
  case h_15 l m tail =>
    obtain rfl := Except.ok.inj h
    intro p hp
    obtain rfl := List.mem_singleton.1 hp
    exact ⟨.labels _, .rightChild List.mem_cons_self⟩
  case h_16 l tail m =>
    split at h
    · obtain rfl := Except.ok.inj h
      intro p hp
      obtain rfl := List.mem_singleton.1 hp
      exact ⟨.leftChild List.mem_cons_self, .labels _⟩
    · simp at h
  case h_17 l tail m tail' =>
    obtain rfl := Except.ok.inj h
    intro p hp
    rcases List.mem_append.1 hp with hp | hp
    · split at hp
      · exact absurd hp List.not_mem_nil
      · obtain rfl := List.mem_singleton.1 hp
        exact ⟨.labels _, .rightChild List.mem_cons_self⟩
    · split at hp
      · exact absurd hp List.not_mem_nil
      · obtain rfl := List.mem_singleton.1 hp
        exact ⟨.leftChild List.mem_cons_self, .right⟩
  case h_1 =>
    obtain rfl := Except.ok.inj h
    simp
  all_goals first
    | (split at h
       · obtain rfl := Except.ok.inj h
         simp
       · simp at h)
    | simp at h

theorem Part.forall_vars {left right t : Ty} (h : Part left right t) {p : ℕ → Prop} (hl : ∀ v ∈ left.vars, p v)
    (hr : ∀ v ∈ right.vars, p v) : ∀ v ∈ t.vars, p v := by
  intro v hv
  cases h with
  | left => exact hl v hv
  | right => exact hr v hv
  | leftChild hc => exact hl v (Ty.mem_vars_of_child hc hv)
  | rightChild hc => exact hr v (Ty.mem_vars_of_child hc hv)
  | labels labels => exact absurd hv List.not_mem_nil
  | field name hc => exact hr v (Ty.mem_vars_of_child hc (by simpa [Ty.vars, Ty.rowVars] using hv))

/-! ### What a work item can do -/

/-- The types that an item instantiates or activates before it looks at variables. -/
def Ty.quantified : Ty → Bool
  | .qualified _ _ | .forallType _ _ => true
  | _ => false

inductive ItemStep (fuel : ℕ) (can : Ty → Ty → Span → Solve Bool) (span : Span) (seen : Finset (ℕ × ℕ))
    (work : List WorkItem) (s : Checker) : Ty → Ty → Queue → Checker → Prop where
  | same {left right : Ty} (h : Ty.same left right = true) :
      ItemStep fuel can span seen work s left right (seen, work) s
  | qualifiedLeft {rs : List (MemberRequirement Ty)} {body right : Ty} {u : Unit} {s' : Checker}
      (h : registerAll fuel rs s = (.ok u, s')) :
      ItemStep fuel can span seen work s (.qualified rs body) right (seen, work ++ [⟨body, right, span⟩]) s'
  | qualifiedRight {rs : List (MemberRequirement Ty)} {left body : Ty} {u : Unit} {s' : Checker}
      (h : registerAll fuel rs s = (.ok u, s')) :
      ItemStep fuel can span seen work s left (.qualified rs body) (seen, work ++ [⟨left, body, span⟩]) s'
  | top {left : Ty} : ItemStep fuel can span seen work s left .top (seen, work) s
  | bottom {right : Ty} : ItemStep fuel can span seen work s .bottom right (seen, work) s
  | forallLeft {vs : List ℕ} {body instantiated right : Ty} {s' : Checker}
      (h : instantiateForall fuel vs body s = (.ok instantiated, s')) :
      ItemStep fuel can span seen work s (.forallType vs body) right (seen, work ++ [⟨instantiated, right, span⟩]) s'
  | forallRight {vs : List ℕ} {left body rigid : Ty} {s' : Checker} (h : skolemize vs body s = (.ok rigid, s')) :
      ItemStep fuel can span seen work s left (.forallType vs body) (seen, work ++ [⟨left, rigid, span⟩]) s'
  | edge {l r : ℕ} {q : Queue} {s' : Checker} (h : constrainVariables fuel l r span seen work s = (.ok q, s')) :
      ItemStep fuel can span seen work s (.var l) (.var r) q s'
  | above {id : ℕ} {right : Ty} {work' : List WorkItem} {s' : Checker} (hvar : right.asVar = none)
      (hq : right.quantified = false) (h : constrainAbove fuel id right span work s = (.ok work', s')) :
      ItemStep fuel can span seen work s (.var id) right (seen, work') s'
  | below {id : ℕ} {left : Ty} {work' : List WorkItem} {s' : Checker} (hvar : left.asVar = none)
      (hq : left.quantified = false) (h : constrainBelow fuel left id span work s = (.ok work', s')) :
      ItemStep fuel can span seen work s left (.var id) (seen, work') s'
  | unionLeft {members : List Ty} {right : Ty} {s' : Checker}
      (h : members.allM (fun member => can member right span) s = (.ok true, s')) :
      ItemStep fuel can span seen work s (.union members) right (seen, work) s'
  | unionRight {members : List Ty} {left : Ty} {s' : Checker}
      (h : members.anyM (fun member => can left member span) s = (.ok true, s')) :
      ItemStep fuel can span seen work s left (.union members) (seen, work) s'
  | structural {left right : Ty} {items : List (Ty × Ty)} (hleft : left.asVar = none) (hright : right.asVar = none)
      (h : decompose (fun v => v ∈ s.emptyArrayElements) left right = .ok items) :
      ItemStep fuel can span seen work s left right (seen, work ++ items.map fun p => ⟨p.1, p.2, span⟩) s

section ItemStep

variable {fuel : ℕ} {can : Ty → Ty → Span → Solve Bool} {span : Span} {seen : Finset (ℕ × ℕ)} {work : List WorkItem}
  {s s' : Checker} {q : Queue} {left right : Ty}

theorem choice_eq_ok {m : Solve Bool} {about : List Ty}
    (h : (do
      if ← m then return (seen, work)
      typeError about span : Solve Queue) s = (.ok q, s')) : m s = (.ok true, s') ∧ q = (seen, work) := by
  obtain ⟨b, s₁, h₁, h⟩ := Attempt.bind_eq_ok.1 h
  cases b with
  | false => exact absurd h Attempt.stop_ne_ok
  | true =>
    obtain ⟨rfl, rfl⟩ := Attempt.pure_eq_ok.1 h
    exact ⟨h₁, rfl⟩

theorem queue_eq_ok {α : Type} {m : Solve α} {f : α → List WorkItem}
    (h : (do
      let a ← m
      return (seen, f a) : Solve Queue) s = (.ok q, s')) : ∃ a, m s = (.ok a, s') ∧ q = (seen, f a) := by
  obtain ⟨a, s₁, h₁, h⟩ := Attempt.bind_eq_ok.1 h
  obtain ⟨rfl, rfl⟩ := Attempt.pure_eq_ok.1 h
  exact ⟨a, h₁, rfl⟩

theorem constrainStructural_step (hleft : left.asVar = none) (hright : right.asVar = none)
    (h : (do
      let work ← constrainStructural left right span work
      return (seen, work) : Solve Queue) s = (.ok q, s')) : ItemStep fuel can span seen work s left right q s' := by
  obtain ⟨work', hrun, rfl⟩ := queue_eq_ok h
  replace hrun := Attempt.get_bind_eq_ok.1 hrun
  cases hitems : decompose (fun v => v ∈ s.emptyArrayElements) left right with
  | ok items =>
    rw [hitems] at hrun
    obtain ⟨rfl, rfl⟩ := Attempt.pure_eq_ok.1 hrun
    exact .structural hleft hright hitems
  | error about =>
    rw [hitems] at hrun
    exact absurd hrun Attempt.stop_ne_ok

theorem constrainUnquantified_step (hl : left.quantified = false) (hr : right.quantified = false)
    (h : constrainUnquantified fuel can left right span seen work s = (.ok q, s')) :
    ItemStep fuel can span seen work s left right q s' := by
  unfold constrainUnquantified at h
  cases left with
  | var l =>
    cases right with
    | var r => exact .edge h
    | _ =>
      obtain ⟨work', hrun, rfl⟩ := queue_eq_ok h
      exact .above rfl hr hrun
  | union members =>
    cases right with
    | var r =>
      obtain ⟨work', hrun, rfl⟩ := queue_eq_ok h
      exact .below rfl hl hrun
    | _ =>
      obtain ⟨hrun, rfl⟩ := choice_eq_ok h
      exact .unionLeft hrun
  | _ =>
    cases right with
    | var r =>
      obtain ⟨work', hrun, rfl⟩ := queue_eq_ok h
      exact .below rfl hl hrun
    | union members =>
      obtain ⟨hrun, rfl⟩ := choice_eq_ok h
      exact .unionRight hrun
    | _ => exact constrainStructural_step rfl rfl h

/-- **Inversion of a work item.** -/
theorem constrainWorkItem_step (h : constrainWorkItem fuel can ⟨left, right, span⟩ seen work s = (.ok q, s')) :
    ItemStep fuel can span seen work s left right q s' := by
  unfold constrainWorkItem at h
  simp only at h
  split at h
  · rename_i hsame
    obtain ⟨rfl, rfl⟩ := Attempt.pure_eq_ok.1 h
    exact .same hsame
  · have hqualified : ∀ l rs body, (do
        registerAll fuel rs
        return (seen, work ++ [(⟨l, body, span⟩ : WorkItem)])) s = (.ok q, s') →
        ItemStep fuel can span seen work s l (.qualified rs body) q s' := by
      intro l rs body h
      obtain ⟨u, hrun, rfl⟩ := queue_eq_ok h
      exact .qualifiedRight hrun
    cases left with
    | qualified rs body =>
      obtain ⟨u, hrun, rfl⟩ := queue_eq_ok h
      exact .qualifiedLeft hrun
    | bottom =>
      cases right with
      | qualified rs body => exact hqualified _ _ _ h
      | _ =>
        obtain ⟨rfl, rfl⟩ := Attempt.pure_eq_ok.1 h
        exact .bottom
    | forallType vs body =>
      cases right with
      | qualified rs body => exact hqualified _ _ _ h
      | top =>
        obtain ⟨rfl, rfl⟩ := Attempt.pure_eq_ok.1 h
        exact .top
      | _ =>
        obtain ⟨u, hrun, rfl⟩ := queue_eq_ok h
        exact .forallLeft hrun
    | _ =>
      cases right with
      | qualified rs body => exact hqualified _ _ _ h
      | top =>
        obtain ⟨rfl, rfl⟩ := Attempt.pure_eq_ok.1 h
        exact .top
      | forallType vs body =>
        obtain ⟨u, hrun, rfl⟩ := queue_eq_ok h
        exact .forallRight hrun
      | _ => exact constrainUnquantified_step rfl rfl h

end ItemStep

end Blot.Typecheck
