import Blot.Support.Table
import Blot.Typecheck.Traversal

/-!
# Extrusion (`spec/TYPECHECKING.md`, Lemma 4)

Extrusion always returns a type of the level and keeps every bound.  It keeps the requested relation as well where no
deeper variable is met at both polarities: the memo of copies is keyed by the variable alone, while the link between
a variable and its copy holds in the direction of the polarity it was copied at.
-/

namespace Blot.Typecheck

open Blot.Support Checker Relation

/-! ### A copy, and levels of variables -/

theorem level_back (e : BoundInsertion) (v : Variable) : (e.back v).level = v.level := by
  obtain ⟨id, d⟩ := e
  cases d <;> rfl

theorem level_unwind (js : List BoundInsertion) (arena : List Variable) (v : ℕ) :
    ((Journal.unwind BoundInsertion.variableId BoundInsertion.back js arena).getD v default).level =
      (arena.getD v default).level := by
  induction js generalizing arena with
  | nil => rfl
  | cons e js ih =>
    rw [Journal.unwind_cons, ih, List.getD_eq_getElem?_getD, List.getD_eq_getElem?_getD, List.getElem?_modify]
    cases arena[v]? with
    | none => simp
    | some x =>
      by_cases h : e.variableId = v
      · simp [h, level_back]
      · simp [h]

theorem Checker.Since.levelOfVar {s s' : Checker} (h : Since s s') {v : ℕ} (hv : v < s.arena.length) : s'.levelOfVar v = s.levelOfVar v := by
  obtain ⟨-, js, -, hold⟩ := h.journal
  simp only at hold
  have hget : s.arena.getD v default =
      (Journal.unwind BoundInsertion.variableId BoundInsertion.back js s'.arena).getD v default := by
    conv_lhs => rw [← hold]
    rw [List.getD_eq_getElem?_getD, List.getD_eq_getElem?_getD, List.getElem?_take_of_lt hv]
  unfold Checker.levelOfVar variableOf
  rw [← level_unwind js s'.arena v, hget]

/-- The state in which a copy of `source` has just been allocated at `level`. -/
def Checker.copied (s : Checker) (level source : ℕ) : Checker :=
  (copyEmptyMark source s.arena.length (s.allocate level)).2

section Copied

variable (s : Checker) (level source : ℕ)

theorem copy_run {α : Type} (f : ℕ → Solve α) :
    (freshAt level >>= fun copy => copyEmptyMark source copy >>= fun _ => f copy) s =
      f s.arena.length (s.copied level source) := rfl

theorem arena_copied : (s.copied level source).arena = (s.allocate level).arena := by
  rw [Checker.copied, copyEmptyMark, Attempt.modify_run]
  simp only
  split <;> rfl

theorem bounds_copied (v : ℕ) (d : BoundDirection) : (s.copied level source).bounds v d = s.bounds v d :=
  (bounds_eq_of_arena (arena_copied s level source) v d).trans (bounds_allocate s level v d)

theorem length_copied : (s.copied level source).arena.length = s.arena.length + 1 := by
  rw [arena_copied, length_allocate]

theorem levelOfVar_copied : (s.copied level source).levelOfVar s.arena.length = level := by
  rw [levelOfVar_eq_of_arena (arena_copied s level source), levelOfVar, variableOf_allocate_self]

theorem since_copied : Since s (s.copied level source) := since_copy s level source

end Copied

/-! ### The occurrences that an extrusion meets -/

/-- One step from an occurrence at a polarity: into a child, into a child that is compared both ways also at the other
polarity, and from a deeper variable to the bounds that its copy takes. -/
inductive Checker.Occurs (s : Checker) (level : ℕ) : Ty × Bool → Ty × Bool → Prop where
  | child {t c : Ty} {q b : Bool} (h : (b, c) ∈ t.parts) : Occurs s level (t, q) (c, q != b)
  | both {t c : Ty} {q : Bool} (h : c ∈ t.invariants) : Occurs s level (t, q) (c, !q)
  | lower {x : ℕ} {t : Ty} (deep : level < s.levelOfVar x) (h : t ∈ s.bounds x .lower) :
    Occurs s level (.var x, true) (t, true)
  | upper {x : ℕ} {t : Ty} (deep : level < s.levelOfVar x) (h : t ∈ s.bounds x .upper) :
    Occurs s level (.var x, false) (t, false)

/-- The occurrences from a type at a polarity on. -/
def Checker.Meets (s : Checker) (level : ℕ) : Ty × Bool → Ty × Bool → Prop := ReflTransGen (s.Occurs level)

/-- **No variable above the level is met at both polarities.** -/
def Checker.OnePolarity (s : Checker) (level : ℕ) (t : Ty) (polarity : Bool) : Prop :=
  ∀ x, level < s.levelOfVar x →
    ¬ (s.Meets level (t, polarity) (.var x, true) ∧ s.Meets level (t, polarity) (.var x, false))

def linkDirection (polarity : Bool) : BoundDirection := if polarity then .upper else .lower

/-- A variable that occurs in a type is met, at one of the polarities. -/
theorem Checker.meets_var {s : Checker} {level x : ℕ} {t : Ty} (q : Bool) (hx : x ∈ t.vars) :
    ∃ q', s.Meets level (t, q) (.var x, q') ∧ (s.Meets level (t, !q) (.var x, !q')) := by
  induction t using Ty.ind generalizing q with
  | h t ih =>
    by_cases hv : ∃ id, t = .var id
    · obtain ⟨id, rfl⟩ := hv
      obtain rfl := List.mem_singleton.1 hx
      exact ⟨q, .refl, .refl⟩
    · have hv : ∀ id, t ≠ .var id := fun id e => hv ⟨id, e⟩
      rw [Ty.vars_eq_children hv] at hx
      obtain ⟨c, hc, hx⟩ := List.mem_flatMap.1 hx
      have hpart : ∃ b, (b, c) ∈ t.parts := by
        cases t
        case function d p e r =>
          simp only [Ty.children, List.mem_cons, List.not_mem_nil, or_false] at hc
          rcases hc with rfl | rfl | rfl
          · exact ⟨true, by simp [Ty.parts]⟩
          · exact ⟨false, by simp [Ty.parts]⟩
          · exact ⟨false, by simp [Ty.parts]⟩
        all_goals exact ⟨false, List.mem_map.2 ⟨c, hc, rfl⟩⟩
      obtain ⟨b, hb⟩ := hpart
      obtain ⟨q', h, h'⟩ := ih c hc (q != b) hx
      have hflip : (!(q != b)) = ((!q) != b) := by cases q <;> cases b <;> rfl
      rw [hflip] at h'
      exact ⟨q', .head (.child hb) h, .head (.child hb) h'⟩

/-! ### States during an extrusion -/

/-- What an extrusion does to the state: nothing is lost, and no variable of the level gets deeper. -/
structure Checker.Deepens (level : ℕ) (s s' : Checker) : Prop extends s.Extends s' where
  shallow : ∀ v, s.levelOfVar v ≤ level → s'.levelOfVar v ≤ level

section Deepens

variable {level : ℕ} {s s' s'' : Checker}

theorem Checker.Deepens.refl (level : ℕ) (s : Checker) : s.Deepens level s := ⟨Extends.refl s, fun _ h => h⟩

theorem Checker.Deepens.trans (h : s.Deepens level s') (h' : s'.Deepens level s'') : s.Deepens level s'' :=
  ⟨h.toExtends.trans h'.toExtends, fun v hv => h'.shallow v (h.shallow v hv)⟩

/-- A deeper variable is in the arena, and keeps its level. -/
theorem Checker.Deepens.deep (h : s.Deepens level s') {v : ℕ} (hv : level < s.levelOfVar v) :
    s'.levelOfVar v = s.levelOfVar v := by
  refine h.levelOfVar v ?_
  by_contra hout
  rw [levelOfVar, variableOf_of_le s (Nat.not_lt.1 hout)] at hv
  exact absurd hv (Nat.not_lt_zero _)

theorem Checker.Deepens.deep_iff (h : s.Deepens level s') {v : ℕ} :
    level < s'.levelOfVar v ↔ level < s.levelOfVar v := by
  constructor
  · intro hv
    by_contra hle
    exact absurd (h.shallow v (Nat.not_lt.1 hle)) (Nat.not_le.2 hv)
  · intro hv
    rw [h.deep hv]
    exact hv

theorem Checker.Deepens.levelOf_le (h : s.Deepens level s') {t : Ty} : s'.levelOf t ≤ level ↔ s.levelOf t ≤ level := by
  unfold Checker.levelOf
  rw [Ty.levelOf_le, Ty.levelOf_le]
  refine forall₂_congr fun v _ => ?_
  rw [← Nat.not_lt, ← Nat.not_lt, h.deep_iff]

theorem deepens_insertBound (level : ℕ) (s : Checker) (id : ℕ) (d : BoundDirection) (t : Ty) :
    s.Deepens level (s.insertBound id d t) :=
  ⟨extends_insertBound s id d t, fun v hv => by rwa [levelOfVar_insertBound]⟩

theorem deepens_copied (level : ℕ) (s : Checker) (source : ℕ) : s.Deepens level (s.copied level source) where
  length_le := by
    rw [length_copied]
    omega
  levelOfVar v hv := (since_copied s level source).levelOfVar hv
  bounds v d := by rw [bounds_copied]
  shallow v hv := by
    rcases Nat.lt_trichotomy v s.arena.length with hlt | rfl | hlt
    · rwa [(since_copied s level source).levelOfVar hlt]
    · rw [levelOfVar_copied]
    · rw [Checker.levelOfVar, variableOf_of_le _ (by rw [length_copied]; omega)]
      exact Nat.zero_le _

end Deepens

/-! ### How an extrusion develops -/

/-- The memo and the state of a traversal. -/
abbrev Progress := Copies × Checker

/-- From one point of an extrusion to a later one. -/
structure Advances (level : ℕ) (p p' : Progress) : Prop where
  state : p.2.Deepens level p'.2
  copies : p.1 ⊆ p'.1

theorem Advances.refl {level : ℕ} (p : Progress) : Advances level p p := ⟨.refl level _, List.Subset.refl _⟩

theorem Advances.trans {level : ℕ} {p p' p'' : Progress} (h : Advances level p p') (h' : Advances level p' p'') :
    Advances level p p'' :=
  ⟨h.state.trans h'.state, List.Subset.trans h.copies h'.copies⟩

theorem progressing_advances (level : ℕ) : Progressing (Advances level) := ⟨.refl, .trans⟩

/-! ### Extrusion finishes -/

def Checker.uncopied (s : Checker) (level : ℕ) (copies : Copies) : Finset ℕ :=
  (Finset.range s.arena.length).filter fun x => level < s.levelOfVar x ∧ copies.lookup x = none

theorem lookup_none_of_subset {copies copies' : Copies} (h : copies ⊆ copies') {x : ℕ} (hx : copies'.lookup x = none) :
    copies.lookup x = none := by
  rw [List.lookup_eq_none_iff] at hx ⊢
  exact fun p hp => hx p (h hp)

/-- **The invariant**: a deeper variable of the memo is linked to its copy in the direction of a polarity that it is
met at; one outside the memo has the bounds that it had; at most `n` are left to copy. -/
structure Copying (s₀ : Checker) (level : ℕ) (root : Ty × Bool) (n : ℕ) (p : Progress) : Prop where
  state : s₀.Deepens level p.2
  copied : ∀ x c, (x, c) ∈ p.1 → p.2.levelOfVar c ≤ level ∧
    ∃ q, s₀.Meets level root (.var x, q) ∧ Ty.var c ∈ p.2.bounds x (linkDirection q)
  untouched : ∀ x, level < s₀.levelOfVar x → p.1.lookup x = none → ∀ d, p.2.bounds x d = s₀.bounds x d
  left : (s₀.uncopied level p.1).card ≤ n

/-- What extrusion makes of a type: its part above the level is replaced, and where no variable is met at both
polarities the copy stands in the requested relation. -/
structure Extruded (s₀ : Checker) (level : ℕ) (root : Ty × Bool) (q : Bool) (t : Ty) (p : Progress) (t' : Ty) :
    Prop where
  level_le : p.2.levelOf t' ≤ level
  same : s₀.levelOf t ≤ level → t' = t
  derives : s₀.OnePolarity level root.1 root.2 → p.2.DerivesAt q t t'

section Copying

variable {s₀ : Checker} {level n : ℕ} {root : Ty × Bool} {p p' : Progress} {t t' : Ty} {q : Bool}

theorem Checker.DerivesAt.mono {s s' : Checker} (h : s.DerivesAt q t t') (hext : s.Extends s') :
    s'.DerivesAt q t t' := by
  cases q with
  | true => exact Derives.mono h fun _ _ _ => hext.mem
  | false => exact Derives.mono h fun _ _ _ => hext.mem

theorem Extruded.advance (hadv : Advances level p p') (h : Extruded s₀ level root q t p t') :
    Extruded s₀ level root q t p' t' where
  level_le := hadv.state.levelOf_le.2 h.level_le
  same := h.same
  derives hone := (h.derives hone).mono hadv.state.toExtends

theorem Copying.weaken {m : ℕ} (h : Copying s₀ level root m p) (hmn : m ≤ n) : Copying s₀ level root n p :=
  ⟨h.state, h.copied, h.untouched, h.left.trans hmn⟩

/-- A type without deeper variables stays. -/
theorem Extruded.shallow (h : p.2.levelOf t ≤ level) :
    Extruded s₀ level root q t p t where
  level_le := h
  same _ := rfl
  derives _ := by
    cases q with
    | true => exact Derives.refl
    | false => exact Derives.refl

/-- **A variable of the memo**: at one polarity only, its copy is linked in the right direction. -/
theorem Copying.extruded_copy {x c : ℕ} (hI : Copying s₀ level root n p) (hdeep : level < s₀.levelOfVar x)
    (hx : (x, c) ∈ p.1) (hmet : s₀.Meets level root (.var x, q)) : Extruded s₀ level root q (.var x) p (.var c) where
  level_le := (hI.copied x c hx).1
  same h := absurd h (Nat.not_le.2 hdeep)
  derives hone := by
    obtain ⟨q', hmet', hlink⟩ := (hI.copied x c hx).2
    have hq : q' = q := by
      by_contra hne
      refine hone x hdeep ?_
      cases q <;> cases q'
      · exact absurd rfl hne
      · exact ⟨hmet', hmet⟩
      · exact ⟨hmet, hmet'⟩
      · exact absurd rfl hne
    subst hq
    cases q' with
    | true => exact Derives.upper hlink
    | false => exact Derives.lower hlink

/-- **A structural type**: rebuilt along the variance of its positions; what is met both ways has no deeper variable
and was returned as it is. -/
theorem Extruded.children (hvar : ∀ id, t ≠ .var id)
    (hdeep : ¬ s₀.levelOf t ≤ level) (hmet : s₀.Meets level root (t, q))
    (h : Mapped (fun b c c' => Extruded s₀ level root (q != b) c p c') t t') : Extruded s₀ level root q t p t' where
  level_le := by
    unfold Checker.levelOf
    rw [Ty.levelOf_le]
    refine Ty.forall_vars_of_children (h.ne_var hvar) fun c' hc' => ?_
    obtain ⟨b, c, hc⟩ := h.source_of_child c' hc'
    exact Ty.levelOf_le.1 hc.level_le
  same hle := absurd hle hdeep
  derives hone := by
    have both : ∀ a b, a ∈ t.invariants → Extruded s₀ level root (q != false) a p b → b = a := by
      intro a b ha hab
      refine hab.same ?_
      unfold Checker.levelOf
      rw [Ty.levelOf_le]
      intro x hx
      by_contra hlt
      have hpart : (false, a) ∈ t.parts := by
        cases t
        case region | scratch | resource => simpa [Ty.invariants, Ty.parts, Ty.children] using ha
        all_goals exact absurd ha List.not_mem_nil
      have hmet₁ : s₀.Meets level root (a, q) := by
        have := hmet.tail (Occurs.child hpart)
        rwa [Bool.bne_false] at this
      have hmet₂ : s₀.Meets level root (a, !q) := hmet.tail (Occurs.both ha)
      obtain ⟨q', h₁, h₂⟩ := @meets_var s₀ level _ _ q hx
      have hx₁ : s₀.Meets level root (.var x, q') := hmet₁.trans h₁
      have hx₂ : s₀.Meets level root (.var x, !q') := hmet₂.trans h₂
      refine hone x (Nat.not_le.1 hlt) ?_
      cases q' with
      | true => exact ⟨hx₁, hx₂⟩
      | false => exact ⟨hx₂, hx₁⟩
    cases q with
    | true =>
      refine Mapped.derives h (fun a b hab => hab.derives hone) (fun a b hab => hab.derives hone) fun a b ha _ hab => ?_
      rw [both a b ha hab]
      exact .refl
    | false =>
      refine Mapped.derives h.flip (fun a b hab => hab.derives hone) (fun a b hab => hab.derives hone) ?_
      intro a b _ hb hab
      rw [both b a hb hab]
      exact .refl

end Copying

theorem extrudeBounds_finishes {level : ℕ} {I : Progress → Prop} {f : Ty → Copies → Solve (Ty × Copies)}
    {R : Progress → Ty → Ty → Prop} {copy : ℕ} {d : BoundDirection} {bounds : List Ty} {p : Progress}
    (hf : ∀ b ∈ bounds, ∀ p, I p → Finishes (Advances level) I (f b) p fun p' => R p' b)
    (insert : ∀ p t, I p → I (p.1, p.2.insertBound copy d t)) (hI : I p) :
    ∃ p', extrudeBounds f copy d bounds p.1 p.2 = (.ok p'.1, p'.2) ∧ I p' ∧ Advances level p p' := by
  induction bounds generalizing p with
  | nil => exact ⟨p, rfl, hI, .refl p⟩
  | cons b bounds ih =>
    obtain ⟨b', p₁, hrun, hI₁, hadv, -⟩ := hf b List.mem_cons_self p hI
    obtain ⟨p', hruns, hI', hadv'⟩ := ih (fun b hb => hf b (List.mem_cons_of_mem _ hb)) (insert p₁ b' hI₁)
    have hstep : Advances level p₁ (p₁.1, p₁.2.insertBound copy d b') :=
      ⟨deepens_insertBound level p₁.2 copy d b', List.Subset.refl _⟩
    refine ⟨p', ?_, hI', hadv.trans (hstep.trans hadv')⟩
    rw [extrudeBounds]
    refine (Attempt.bind_run_ok hrun).trans ?_
    exact (Attempt.bind_run_ok (Attempt.modify_run _ _)).trans hruns

section Copying

variable {s₀ : Checker} {level n : ℕ} {root : Ty × Bool} {p : Progress} {x : ℕ} {q : Bool}

theorem Checker.lt_of_deep {s : Checker} {v : ℕ} (hv : level < s.levelOfVar v) : v < s.arena.length := by
  by_contra hout
  rw [levelOfVar, variableOf_of_le s (Nat.not_lt.1 hout)] at hv
  exact absurd hv (Nat.not_lt_zero _)

theorem Copying.insertBound (hI : Copying s₀ level root n p) {copy : ℕ} (hcopy : s₀.arena.length ≤ copy)
    (d : BoundDirection) (t : Ty) : Copying s₀ level root n (p.1, p.2.insertBound copy d t) where
  state := hI.state.trans (deepens_insertBound level p.2 copy d t)
  copied y c hy := by
    obtain ⟨hle, q', hmet, hlink⟩ := hI.copied y c hy
    exact ⟨by rwa [levelOfVar_insertBound], q', hmet, subset_bounds_insertBound hlink⟩
  untouched y hdeep hy e := by
    have hne : y ≠ copy := by
      have := Checker.lt_of_deep hdeep
      omega
    rw [bounds_insertBound, if_neg fun h => hne h.1.1]
    exact hI.untouched y hdeep hy e
  left := hI.left

/-- **A new copy** is linked to its variable and joins the memo; one variable fewer is left. -/
theorem Copying.copy (hI : Copying s₀ level root n p) (hdeep : level < s₀.levelOfVar x) (hx : p.1.lookup x = none)
    (hmet : s₀.Meets level root (.var x, q)) :
    ∃ m, n = m + 1 ∧ Copying s₀ level root m ((x, p.2.arena.length) :: p.1,
      (p.2.copied level x).insertBound x (linkDirection q) (.var p.2.arena.length)) := by
  have hlt : x < s₀.arena.length := Checker.lt_of_deep hdeep
  have hmem : x ∈ s₀.uncopied level p.1 := Finset.mem_filter.2 ⟨Finset.mem_range.2 hlt, hdeep, hx⟩
  have hpos : 0 < (s₀.uncopied level p.1).card := Finset.card_pos.2 ⟨x, hmem⟩
  obtain ⟨m, rfl⟩ : ∃ m, n = m + 1 := ⟨n - 1, by have := hI.left; omega⟩
  have hstep : p.2.Deepens level ((p.2.copied level x).insertBound x (linkDirection q) (.var p.2.arena.length)) :=
    (deepens_copied level p.2 x).trans (deepens_insertBound level _ _ _ _)
  refine ⟨m, rfl, hI.state.trans hstep, ?_, ?_, ?_⟩
  · intro y c hy
    rcases List.mem_cons.1 hy with heq | hy
    · obtain ⟨rfl, rfl⟩ := Prod.mk.inj heq
      refine ⟨by rw [levelOfVar_insertBound, levelOfVar_copied], q, hmet, mem_bounds_insertBound_self ?_ _ _⟩
      rw [length_copied]
      have := hI.state.length_le
      omega
    · obtain ⟨hle, q', hmet', hlink⟩ := hI.copied y c hy
      exact ⟨hstep.shallow c hle, q', hmet', hstep.toExtends.mem hlink⟩
  · intro y hdeep' hy e
    rw [Table.lookup_cons] at hy
    by_cases hyx : y = x
    · rw [if_pos hyx] at hy
      cases hy
    · rw [if_neg hyx] at hy
      rw [bounds_insertBound, if_neg fun h => hyx h.1.1, bounds_copied]
      exact hI.untouched y hdeep' hy e
  · have hss : s₀.uncopied level ((x, p.2.arena.length) :: p.1) ⊂ s₀.uncopied level p.1 := by
      refine (Finset.ssubset_iff_of_subset fun y hy => ?_).2 ⟨x, hmem, fun hmem' => ?_⟩
      · obtain ⟨hrange, hdeep', hnone⟩ := Finset.mem_filter.1 hy
        exact Finset.mem_filter.2 ⟨hrange, hdeep', lookup_none_of_subset (List.subset_cons_self _ _) hnone⟩
      · have hnone := (Finset.mem_filter.1 hmem').2.2
        rw [Table.lookup_cons, if_pos rfl] at hnone
        cases hnone
    have hcard := Finset.card_lt_card hss
    have hleft := hI.left
    show (s₀.uncopied level ((x, p.2.arena.length) :: p.1)).card ≤ m
    omega

/-- **Extrusion finishes**: a type gets smaller from call to call, and a variable is copied once. -/
theorem extrude_finishes {size : ℕ} (hsize : ∀ x d, ∀ b ∈ s₀.bounds x d, sizeOf b ≤ size) (fuel : ℕ) {t : Ty}
    (hI : Copying s₀ level root n p) (hmet : s₀.Meets level root (t, q)) (hfuel : n * (size + 1) + sizeOf t < fuel) :
    Finishes (Advances level) (Copying s₀ level root n) (extrude fuel q level t) p
      fun p' => Extruded s₀ level root q t p' := by
  induction fuel generalizing n p q t with
  | zero => omega
  | succ fuel ih =>
    by_cases hle : p.2.levelOf t ≤ level
    · refine ⟨t, p, ?_, hI, .refl p, .shallow hle⟩
      unfold extrude
      refine (Attempt.bind_run_ok (Attempt.get_run _)).trans ?_
      rw [if_pos hle, Attempt.pure_run]
    have hdeep : ¬ s₀.levelOf t ≤ level := fun h => hle (hI.state.levelOf_le.2 h)
    by_cases hvar : ∃ x, t = .var x
    · obtain ⟨x, rfl⟩ := hvar
      have hx : level < s₀.levelOfVar x := Nat.not_le.1 hdeep
      cases hl : p.1.lookup x with
      | some c =>
        have hmem : (x, c) ∈ p.1 := by
          obtain ⟨l₁, l₂, heq, -⟩ := List.lookup_eq_some_iff.1 hl
          rw [heq]
          exact List.mem_append_right _ List.mem_cons_self
        refine ⟨.var c, p, ?_, hI, .refl p, hI.extruded_copy hx hmem hmet⟩
        unfold extrude
        refine (Attempt.bind_run_ok (Attempt.get_run _)).trans ?_
        rw [if_neg hle]
        simp only [hl]
        rw [Attempt.pure_run]
      | none =>
        obtain ⟨m, rfl, hI₁⟩ := hI.copy (q := q) hx hl hmet
        have hbounds : ∀ d, ∀ b ∈ (p.2.copied level x).bounds x d, b ∈ s₀.bounds x d := by
          intro d b hb
          rwa [bounds_copied, hI.untouched x hx hl] at hb
        have hcopy : s₀.arena.length ≤ p.2.arena.length := hI.state.length_le
        have hadv : Advances level p ((x, p.2.arena.length) :: p.1,
            (p.2.copied level x).insertBound x (linkDirection q) (.var p.2.arena.length)) :=
          ⟨(deepens_copied level p.2 x).trans (deepens_insertBound level _ _ _ _), List.subset_cons_self _ _⟩
        -- the copied bounds are met at the polarity of the variable, and they are smaller than what the copy leaves
        have each : ∀ d, (∀ b ∈ s₀.bounds x d, s₀.Meets level root (b, q)) →
            ∀ b ∈ (p.2.copied level x).bounds x d, ∀ p, Copying s₀ level root m p →
              Finishes (Advances level) (Copying s₀ level root m) (extrude fuel q level b) p
                fun p' => Extruded s₀ level root q b p' := by
          intro d hmets b hb p hI
          refine ih hI (hmets b (hbounds d b hb)) ?_
          have hb := hsize x d b (hbounds d b hb)
          rw [Nat.add_mul, Nat.one_mul] at hfuel
          omega
        have finish : ∀ p', Copying s₀ level root m p' →
            Advances level ((x, p.2.arena.length) :: p.1,
              (p.2.copied level x).insertBound x (linkDirection q) (.var p.2.arena.length)) p' →
            Copying s₀ level root (m + 1) p' ∧ Advances level p p' ∧
              Extruded s₀ level root q (.var x) p' (.var p.2.arena.length) := fun p' hI' hadv' =>
          ⟨hI'.weaken (Nat.le_succ m), hadv.trans hadv',
            hI'.extruded_copy hx (hadv'.copies List.mem_cons_self) hmet⟩
        have insert : ∀ d p' t, Copying s₀ level root m p' →
            Copying s₀ level root m (p'.1, p'.2.insertBound p.2.arena.length d t) :=
          fun d p' t hI' => hI'.insertBound hcopy d t
        cases q with
        | true =>
          obtain ⟨p', hrun, hI', hadv'⟩ := extrudeBounds_finishes
            (each .lower fun b hb => hmet.tail (.lower hx hb)) (insert .lower) hI₁
          refine ⟨.var p.2.arena.length, p', ?_, finish p' hI' hadv'⟩
          unfold extrude
          refine (Attempt.bind_run_ok (Attempt.get_run _)).trans ?_
          rw [if_neg hle]
          simp only [hl]
          rw [copy_run]
          refine (Attempt.bind_run_ok (Attempt.get_run _)).trans ?_
          rw [if_pos trivial]
          refine (Attempt.bind_run_ok (Attempt.modify_run _ _)).trans ?_
          exact (Attempt.bind_run_ok hrun).trans rfl
        | false =>
          obtain ⟨p', hrun, hI', hadv'⟩ := extrudeBounds_finishes
            (each .upper fun b hb => hmet.tail (.upper hx hb)) (insert .upper) hI₁
          refine ⟨.var p.2.arena.length, p', ?_, finish p' hI' hadv'⟩
          unfold extrude
          refine (Attempt.bind_run_ok (Attempt.get_run _)).trans ?_
          rw [if_neg hle]
          simp only [hl]
          rw [copy_run]
          refine (Attempt.bind_run_ok (Attempt.get_run _)).trans ?_
          rw [if_neg Bool.false_ne_true]
          refine (Attempt.bind_run_ok (Attempt.modify_run _ _)).trans ?_
          exact (Attempt.bind_run_ok hrun).trans rfl
    · have hvar : ∀ id, t ≠ .var id := fun id heq => hvar ⟨id, heq⟩
      obtain ⟨t', p', hrun, hI', hadv, hmapped⟩ := mapChildren_finishes (progressing_advances level)
        (g := fun b => extrude fuel (q != b) level) (R := fun p' b c => Extruded s₀ level root (q != b) c p')
        (fun hadv h => h.advance hadv)
        (fun b c hc p hI => ih hI (hmet.tail (.child hc)) (by
          have := Ty.sizeOf_child_lt (Ty.child_of_part hc)
          omega)) hI
      refine ⟨t', p', ?_, hI', hadv, Extruded.children hvar hdeep hmet hmapped⟩
      unfold extrude
      refine (Attempt.bind_run_ok (Attempt.get_run _)).trans ?_
      rw [if_neg hle]
      cases t with
      | var id => exact absurd rfl (hvar id)
      | _ => exact hrun

end Copying

/-! ### The requested relation -/

/-- **Extrusion**, from any state: it ends with a type of the level and keeps every variable and bound; where no
variable above the level is met at both polarities, the requested relation is derivable from the recorded bounds. -/
theorem extrude_derives (s : Checker) (t : Ty) (polarity : Bool) (level : ℕ) :
    ∃ enough, ∀ fuel ≥ enough, ∃ t' copies s', extrude fuel polarity level t [] s = (.ok (t', copies), s') ∧
      s'.levelOf t' ≤ level ∧ s.Extends s' ∧ (s.OnePolarity level t polarity → s'.DerivesAt polarity t t') := by
  obtain ⟨size, hsize⟩ := s.exists_size
  have hstart : Copying s level (t, polarity) (s.uncopied level []).card ([], s) :=
    ⟨.refl level s, fun x c h => absurd h List.not_mem_nil, fun x _ _ d => rfl, le_rfl⟩
  refine ⟨(s.uncopied level []).card * (size + 1) + sizeOf t + 1, fun fuel hfuel => ?_⟩
  obtain ⟨t', p', hrun, -, hadv, hextruded⟩ := extrude_finishes hsize fuel hstart .refl (by omega)
  exact ⟨t', p'.1, p'.2, hrun, hextruded.level_le, hadv.state.toExtends, hextruded.derives⟩

/-- A variable one level above the base. -/
def oneDeeper : Checker := Checker.empty.allocate 1

/-- The array of that variable: its copy is linked in the one direction that the array asks for. -/
theorem extrude_array_derives : ∃ enough, ∀ fuel ≥ enough, ∃ t' copies s',
    extrude fuel true 0 (.array (.var 0)) [] oneDeeper = (.ok (t', copies), s') ∧ s'.levelOf t' ≤ 0 ∧
      oneDeeper.Extends s' ∧ s'.Derives (.array (.var 0)) t' := by
  have hone : oneDeeper.OnePolarity 0 (.array (.var 0)) true := by
    have positive : ∀ o, oneDeeper.Meets 0 (.array (.var 0), true) o →
        o = (.array (.var 0), true) ∨ o = (.var 0, true) := by
      intro o h
      induction h with
      | refl => exact .inl rfl
      | tail _ hstep ih =>
        rcases ih with rfl | rfl
        · cases hstep with
          | child hc =>
            obtain ⟨rfl, rfl⟩ := Prod.mk.inj (List.mem_singleton.1 hc)
            exact .inr rfl
          | both hc => exact absurd hc List.not_mem_nil
        · cases hstep with
          | child hc | both hc => exact absurd hc List.not_mem_nil
          | lower _ hb => exact absurd hb List.not_mem_nil
    intro x _ h
    rcases positive _ h.2 with h | h <;> cases h
  obtain ⟨enough, h⟩ := extrude_derives oneDeeper (.array (.var 0)) true 0
  refine ⟨enough, fun fuel hfuel => ?_⟩
  obtain ⟨t', copies, s', hrun, hlevel, hext, hderives⟩ := h fuel hfuel
  exact ⟨t', copies, s', hrun, hlevel, hext, hderives hone⟩

/-- The function from that variable to itself. -/
def sameInOut : Ty := .function false (.var 0) (.effects ∅) (.var 0)

/-- **The second polarity is lost**: the copy made for the parameter is the result as well, and nothing derives that
the result lies below it. -/
theorem extrude_loses_the_result : ¬ ∃ enough, ∀ fuel ≥ enough, ∃ t' copies s',
    extrude fuel true 0 sameInOut [] oneDeeper = (.ok (t', copies), s') ∧ s'.DerivesAt true sameInOut t' := by
  rintro ⟨enough, h⟩
  obtain ⟨t', copies, s', hrun, hderives⟩ := h (enough + 2) (Nat.le_add_right _ _)
  have hends : extrude (enough + 2) true 0 sameInOut [] oneDeeper =
      (.ok (.function false (.var 1) (.effects ∅) (.var 1), [(0, 1)]),
        (oneDeeper.copied 0 0).insertBound 0 .lower (.var 1)) := rfl
  obtain ⟨hok, rfl⟩ := Prod.mk.inj (hends.symm.trans hrun)
  obtain ⟨rfl, rfl⟩ := Prod.mk.inj (Except.ok.inj hok)
  have hempty : ∀ x d t, t ∉ (oneDeeper.copied 0 0).bounds x d := by
    intro x d t ht
    rw [bounds_copied, oneDeeper, bounds_allocate, bounds_of_le _ (Nat.zero_le x)] at ht
    exact absurd ht List.not_mem_nil
  -- the variable reads as true and its copy as false: the bounds allow it
  have hholds := Derives.holds (V := fun x => x = 0) hderives ?_ ?_ (.function (.var rfl))
  · cases hholds with
    | function hr =>
      cases hr with
      | var hx => cases hx
  · intro x t ht hheld
    rcases mem_bounds_insertBound ht with ht | ⟨-, -, rfl⟩
    · exact absurd ht (hempty x .lower t)
    · cases hheld with
      | var hx => cases hx
  · intro x t ht _
    rcases mem_bounds_insertBound ht with ht | ⟨-, hd, -⟩
    · exact absurd ht (hempty x .upper t)
    · cases hd

end Blot.Typecheck
