import Blot.Typecheck.Structural

/-!
# Declarative subtyping (`spec/TYPECHECKING.md`, section 2)

`Declared leaf` is closed under the declarative rules and takes its obligations over variables from `leaf`.

* `declared_of_decompose` — obligations that hold make the two structural types hold;
* `declared_of_same` — types the solver takes for equal hold in both directions when no row repeats a name.
-/

namespace Blot.Typecheck

open Blot.Support Checker

/-- The declarative rules over types without quantifiers, qualified types and unions; `leaf` answers for the
obligations that have a variable on one side. -/
inductive Declared (leaf : Ty → Ty → Prop) : Ty → Ty → Prop where
  | refl {a : Ty} : Declared leaf a a
  | leaf {a b : Ty} (h : leaf a b) : Declared leaf a b
  | bottom {b : Ty} : Declared leaf .bottom b
  | top {a : Ty} : Declared leaf a .top
  | range {d : Domain} {l h l' h' : Option Scalar} (hl : lowerWithin l l' = true) (hh : upperWithin h h' = true) :
    Declared leaf (.range d l h) (.range d l' h')
  | function {d : Bool} {p e r p' e' r' : Ty} (hp : Declared leaf p' p) (he : Declared leaf e e')
    (hr : Declared leaf r r') : Declared leaf (.function d p e r) (.function d p' e' r')
  | record {fs gs : List (String × Ty)} (hfields : ∀ p ∈ gs, rowGet fs p.1 = none → admitsOmission p.2 = true)
    (h : ∀ p ∈ gs, ∀ t, rowGet fs p.1 = some t → Declared leaf t p.2) : Declared leaf (.record fs) (.record gs)
  | updateRecord {base : Ty} {fs gs : List (String × Ty)}
    (hupdated : ∀ p ∈ gs, ∀ t, rowGet fs p.1 = some t → Declared leaf t p.2)
    (hbase : ∀ p ∈ gs, rowGet fs p.1 = none → Declared leaf base (.record [p])) :
    Declared leaf (.recordUpdate base fs) (.record gs)
  | updates {base base' : Ty} {fs gs : List (String × Ty)} (hlen : fs.length = gs.length)
    (hbase : Declared leaf base base') (hfields : ∀ p ∈ fs, rowGet gs p.1 ≠ none)
    (h : ∀ p ∈ fs, ∀ t, rowGet gs p.1 = some t → Declared leaf p.2 t) :
    Declared leaf (.recordUpdate base fs) (.recordUpdate base' gs)
  | array {a b : Ty} (h : Declared leaf a b) : Declared leaf (.array a) (.array b)
  | region {a b : Ty} (h : Declared leaf a b) (h' : Declared leaf b a) : Declared leaf (.region a) (.region b)
  | scratch {a b : Ty} (h : Declared leaf a b) (h' : Declared leaf b a) : Declared leaf (.scratch a) (.scratch b)
  | resource {family : String} {a b : Ty} (h : Declared leaf a b) (h' : Declared leaf b a) :
    Declared leaf (.resource family a) (.resource family b)
  | variant {fs gs : List (String × Ty)} {isOpen isOpen' : Bool}
    (hcases : isOpen' = false → isOpen = false ∧ ∀ p ∈ fs, rowGet gs p.1 ≠ none)
    (h : ∀ p ∈ fs, ∀ t, rowGet gs p.1 = some t → Declared leaf p.2 t) :
    Declared leaf (.variant fs isOpen) (.variant gs isOpen')
  | effects {l m : Finset String} (h : l ⊆ m) : Declared leaf (.effects l) (.effects m)
  | emptyRigid {r : ℕ} : Declared leaf (.effects ∅) (.rigid r)
  | rigidRow {r : ℕ} {m : Finset String} {tail : Ty} (h : Declared leaf (.rigid r) tail) :
    Declared leaf (.rigid r) (.openEffects m tail)
  | closedRow {l m : Finset String} {tail : Ty} (h : Declared leaf (.effects (l \ m)) tail) :
    Declared leaf (.effects l) (.openEffects m tail)
  | rowClosed {l m : Finset String} {tail : Ty} (hl : l ⊆ m) (h : Declared leaf tail (.effects m)) :
    Declared leaf (.openEffects l tail) (.effects m)
  | rows {l m : Finset String} {tail tail' : Ty} (hl : l \ m ≠ ∅ → Declared leaf (.effects (l \ m)) tail')
    (h : Declared leaf tail tail') : Declared leaf (.openEffects l tail) (.openEffects m tail')
  | rowsRow {l m : Finset String} {tail tail' : Ty} (hl : l \ m ≠ ∅ → Declared leaf (.effects (l \ m)) tail')
    (h : Declared leaf tail (.openEffects m tail')) : Declared leaf (.openEffects l tail) (.openEffects m tail')

section Declared

variable {leaf leaf' : Ty → Ty → Prop}

/-- Obligations that another set of obligations answers. -/
theorem Declared.bind {a b : Ty} (h : Declared leaf a b) (hleaf : ∀ a b, leaf a b → Declared leaf' a b) :
    Declared leaf' a b := by
  induction h with
  | refl => exact .refl
  | leaf h => exact hleaf _ _ h
  | bottom => exact .bottom
  | top => exact .top
  | range hl hh => exact .range hl hh
  | function _ _ _ ihp ihe ihr => exact .function ihp ihe ihr
  | record hfields _ ih => exact .record hfields ih
  | updateRecord _ _ ihu ihb => exact .updateRecord ihu ihb
  | updates hlen _ hfields _ ihb ih => exact .updates hlen ihb hfields ih
  | array _ ih => exact .array ih
  | region _ _ ih ih' => exact .region ih ih'
  | scratch _ _ ih ih' => exact .scratch ih ih'
  | resource _ _ ih ih' => exact .resource ih ih'
  | variant hcases _ ih => exact .variant hcases ih
  | effects h => exact .effects h
  | emptyRigid => exact .emptyRigid
  | rigidRow _ ih => exact .rigidRow ih
  | closedRow _ ih => exact .closedRow ih
  | rowClosed hl _ ih => exact .rowClosed hl ih
  | rows _ _ ihl ih => exact .rows ihl ih
  | rowsRow _ _ ihl ih => exact .rowsRow ihl ih

theorem Declared.mono {a b : Ty} (h : Declared leaf a b) (hleaf : ∀ a b, leaf a b → leaf' a b) : Declared leaf' a b :=
  h.bind fun a b hab => .leaf (hleaf a b hab)

/-! ### The obligations of the solver -/

/-- The tails of two rows that the solver takes for equal. -/
def SameTails (left right a b : Ty) : Prop :=
  ∃ l m, left = .openEffects l a ∧ right = .openEffects m b ∧ Ty.same a b = true

/-- **Decomposing follows the declarative rules.** -/
theorem declared_of_decompose {isEmpty : ℕ → Bool} {left right : Ty} {items : List (Ty × Ty)}
    (h : decompose isEmpty left right = .ok items) (hitems : ∀ p ∈ items, Declared leaf p.1 p.2)
    (htails : ∀ a b, SameTails left right a b → Declared leaf a b) : Declared leaf left right := by
  unfold decompose at h
  split at h
  case h_1 => exact .refl
  case h_2 d l hi d' l' hi' =>
    split at h
    · rename_i hr
      obtain ⟨rfl, hl, hh⟩ := hr
      exact .range hl hh
    · simp at h
  case h_3 d p e r d' p' e' r' =>
    split at h
    · simp at h
    · rename_i hd
      obtain rfl := Except.ok.inj h
      obtain rfl := not_not.1 hd
      exact .function (hitems (p', p) (by simp)) (hitems (e, e') (by simp)) (hitems (r, r') (by simp))
  case h_4 fs gs =>
    obtain ⟨homit, rfl⟩ := of_decomposeRecord h
    exact .record homit fun p hp t ht => hitems (t, p.2) (List.mem_filterMap.2 ⟨p, hp, by rw [ht]; rfl⟩)
  case h_5 base fs gs =>
    obtain rfl := Except.ok.inj h
    refine .updateRecord (fun p hp t ht => ?_) fun p hp hnone => ?_
    · exact hitems (t, p.2) (List.mem_map.2 ⟨p, hp, by simp only [ht]⟩)
    · exact hitems (base, .record [(p.1, p.2)]) (List.mem_map.2 ⟨p, hp, by simp only [hnone]⟩)
  case h_6 base fs base' gs =>
    split at h
    · simp at h
    · rename_i hlen
      split at h
      · rename_i items' hupdates
        obtain rfl := Except.ok.inj h
        obtain ⟨hboth, rfl⟩ := of_decomposeUpdates hupdates
        exact .updates (not_not.1 hlen) (hitems (base, base') List.mem_cons_self) hboth fun p hp t ht =>
          hitems (p.2, t) (List.mem_cons_of_mem _ (List.mem_filterMap.2 ⟨p, hp, by rw [ht]; rfl⟩))
      · simp at h
  case h_7 a b =>
    refine .array (hitems (a, b) ?_)
    split at h
    · split at h <;> obtain rfl := Except.ok.inj h <;> simp
    · obtain rfl := Except.ok.inj h
      simp
  case h_8 a b =>
    obtain rfl := Except.ok.inj h
    exact .region (hitems (a, b) (by simp)) (hitems (b, a) (by simp))
  case h_9 a b =>
    obtain rfl := Except.ok.inj h
    exact .scratch (hitems (a, b) (by simp)) (hitems (b, a) (by simp))
  case h_10 f a g b =>
    split at h
    · rename_i hfamily
      subst hfamily
      obtain rfl := Except.ok.inj h
      exact .resource (hitems (a, b) (by simp)) (hitems (b, a) (by simp))
    · simp at h
  case h_11 fs o gs o' =>
    split at h
    · simp at h
    · rename_i hclosed
      obtain rfl := Except.ok.inj h
      refine .variant (fun ho => ?_) fun p hp t ht => hitems (p.2, t) (List.mem_filterMap.2 ⟨p, hp, by simp [ht]⟩)
      subst ho
      simp only [Bool.not_false, Bool.true_and, Bool.or_eq_true, not_or, Bool.not_eq_true, List.any_eq_false,
        Option.isNone_eq_false_iff] at hclosed
      exact ⟨hclosed.1, fun p hp hnone => by simpa [hnone] using hclosed.2 p hp⟩
  case h_12 l m =>
    split at h
    · rename_i hsub
      exact .effects hsub
    · simp at h
  case h_13 l r =>
    split at h
    · rename_i hempty
      subst hempty
      exact .emptyRigid
    · simp at h
  case h_14 r m tail =>
    obtain rfl := Except.ok.inj h
    exact .rigidRow (hitems (.rigid r, tail) (by simp))
  case h_15 l m tail =>
    obtain rfl := Except.ok.inj h
    exact .closedRow (hitems (.effects (l \ m), tail) (by simp))
  case h_16 l tail m =>
    split at h
    · rename_i hsub
      obtain rfl := Except.ok.inj h
      exact .rowClosed hsub (hitems (tail, .effects m) (by simp))
    · simp at h
  case h_17 l tail m tail' =>
    obtain rfl := Except.ok.inj h
    have hl : l \ m ≠ ∅ → Declared leaf (.effects (l \ m)) tail' := fun hne =>
      hitems (.effects (l \ m), tail') (by simp [hne])
    by_cases hsame : Ty.same tail tail' = true
    · exact .rows hl (htails tail tail' ⟨l, m, rfl, rfl, hsame⟩)
    · exact .rowsRow hl (hitems (tail, .openEffects m tail') (by simp [hsame]))
  case h_18 a b | h_19 a b =>
    split at h
    · rename_i heq
      subst heq
      exact .refl
    · simp at h
  case h_20 => simp at h

end Declared

/-! ### Types that the solver takes for equal -/

/-- A row of the node names no field twice. -/
def Ty.NamesOnce : Ty → Prop
  | .record fs => (fs.map Prod.fst).Nodup
  | .recordUpdate _ fs => (fs.map Prod.fst).Nodup
  | .variant fs _ => (fs.map Prod.fst).Nodup
  | _ => True

def Ty.DistinctNames (t : Ty) : Prop := t.Hereditarily Ty.NamesOnce

def Ty.PlainNode : Ty → Prop
  | .forallType _ _ | .qualified _ _ | .union _ => False
  | _ => True

/-- A type without quantifiers, qualified types and unions. -/
def Ty.Plain (t : Ty) : Prop := t.Hereditarily Ty.PlainNode

theorem sameFields_iff {rigids : List (ℕ × ℕ)} {fs gs : List (String × Ty)} :
    Ty.sameFields rigids fs gs = true ↔
      ∀ p ∈ fs, ∃ c, rowGet gs p.1 = some c ∧ Ty.sameWithRigids rigids p.2 c = true := by
  induction fs with
  | nil => simp [Ty.sameFields]
  | cons p rest ih =>
    obtain ⟨name, t⟩ := p
    rw [Ty.sameFields, Bool.and_eq_true, ih, List.forall_mem_cons]
    refine and_congr_left fun _ => ?_
    cases rowGet gs name <;> simp

theorem rowGet_isSome_iff {fs : List (String × Ty)} {name : String} :
    rowGet fs name ≠ none ↔ name ∈ fs.map Prod.fst := by
  induction fs with
  | nil => simp [rowGet]
  | cons q rest ih =>
    obtain ⟨n, t⟩ := q
    unfold rowGet at ih ⊢
    rw [List.lookup_cons, List.map_cons, List.mem_cons]
    by_cases h : name = n
    · subst h
      simp
    · rw [beq_false_of_ne h]
      simp [h, ih]

theorem rowGet_of_mem {fs : List (String × Ty)} (h : (fs.map Prod.fst).Nodup) {p : String × Ty} (hp : p ∈ fs) :
    rowGet fs p.1 = some p.2 := by
  induction fs with
  | nil => exact absurd hp List.not_mem_nil
  | cons q rest ih =>
    obtain ⟨name, t⟩ := q
    rw [List.map_cons, List.nodup_cons] at h
    unfold rowGet
    rcases List.mem_cons.1 hp with rfl | hrest
    · simp
    · have hne : p.1 ≠ name := fun he => h.1 (List.mem_map.2 ⟨p, hrest, he⟩)
      rw [List.lookup_cons, beq_false_of_ne hne]
      exact ih h.2 hrest

/-- A row without repeated names whose fields all occur in a row of the same length has the same names. -/
theorem names_of_sameFields {rigids : List (ℕ × ℕ)} {fs gs : List (String × Ty)} (hlen : fs.length = gs.length)
    (hsame : Ty.sameFields rigids fs gs = true) (hnodup : (fs.map Prod.fst).Nodup) :
    (gs.map Prod.fst).Nodup ∧ ∀ p ∈ gs, rowGet fs p.1 ≠ none := by
  have hsub : fs.map Prod.fst ⊆ gs.map Prod.fst := by
    intro name hname
    obtain ⟨p, hp, rfl⟩ := List.mem_map.1 hname
    obtain ⟨c, hc, -⟩ := sameFields_iff.1 hsame p hp
    exact rowGet_isSome_iff.1 (by rw [hc]; nofun)
  have hperm : (fs.map Prod.fst).Perm (gs.map Prod.fst) :=
    (List.subperm_of_subset hnodup hsub).perm_of_length_le (by simp [hlen])
  refine ⟨hperm.nodup_iff.1 hnodup, fun p hp => rowGet_isSome_iff.2 ?_⟩
  exact hperm.mem_iff.2 (List.mem_map.2 ⟨p, hp, rfl⟩)

section Same

variable {leaf : Ty → Ty → Prop}

/-- Both directions of an obligation. -/
def DeclaredBoth (leaf : Ty → Ty → Prop) (a b : Ty) : Prop := Declared leaf a b ∧ Declared leaf b a

/-- The fields of two rows that agree, both ways. -/
theorem both_of_sameFields {fs gs : List (String × Ty)} (hlen : fs.length = gs.length)
    (hsame : Ty.sameFields [] fs gs = true) (hnodup : (fs.map Prod.fst).Nodup)
    (ih : ∀ c ∈ fs.map Prod.snd, ∀ u, Ty.sameWithRigids [] c u = true → DeclaredBoth leaf c u) :
    (∀ p ∈ fs, rowGet gs p.1 ≠ none) ∧ (∀ p ∈ gs, rowGet fs p.1 ≠ none) ∧
      (∀ p ∈ fs, ∀ t, rowGet gs p.1 = some t → DeclaredBoth leaf p.2 t) ∧
      ∀ p ∈ gs, ∀ t, rowGet fs p.1 = some t → DeclaredBoth leaf t p.2 := by
  obtain ⟨hnodup', hnames⟩ := names_of_sameFields hlen hsame hnodup
  have hfields := sameFields_iff.1 hsame
  have hleft : ∀ p ∈ fs, ∀ t, rowGet gs p.1 = some t → DeclaredBoth leaf p.2 t := by
    intro p hp t ht
    obtain ⟨c, hc, hsc⟩ := hfields p hp
    rw [ht] at hc
    obtain rfl := Option.some.inj hc
    exact ih p.2 (List.mem_map.2 ⟨p, hp, rfl⟩) t hsc
  refine ⟨fun p hp => ?_, hnames, hleft, fun p hp t ht => ?_⟩
  · obtain ⟨c, hc, -⟩ := hfields p hp
    rw [hc]
    nofun
  · exact hleft (p.1, t) (mem_of_rowGet ht) p.2 (rowGet_of_mem hnodup' hp)

/-- **Types that the solver takes for equal** hold in both directions when the left one repeats no name. -/
theorem declared_of_same {a b : Ty} (hplain : a.Plain) (hnames : a.DistinctNames)
    (h : Ty.sameWithRigids [] a b = true) : DeclaredBoth leaf a b := by
  induction a using Ty.ind generalizing b with
  | h a ih =>
    by_cases heq : a = b
    · subst heq
      exact ⟨.refl, .refl⟩
    have hchild : ∀ c ∈ a.children, ∀ u, Ty.sameWithRigids [] c u = true → DeclaredBoth leaf c u :=
      fun c hc u hu => ih c hc (hplain.child hc) (hnames.child hc) hu
    unfold Ty.sameWithRigids at h
    rw [if_neg heq] at h
    cases a with
    | forallType vs body | qualified rs body | union members => exact absurd hplain.here id
    | record fs =>
      cases b with
      | record gs =>
        simp only [Bool.and_eq_true, decide_eq_true_eq] at h
        obtain ⟨hfs, hgs, hl, hr⟩ := both_of_sameFields h.1 h.2 hnames.here hchild
        exact ⟨.record (fun p hp hnone => absurd hnone (hgs p hp)) fun p hp t ht => (hr p hp t ht).1,
          .record (fun p hp hnone => absurd hnone (hfs p hp)) fun p hp t ht => (hl p hp t ht).2⟩
      | _ => exact absurd h Bool.false_ne_true
    | recordUpdate base fs =>
      cases b with
      | recordUpdate base' gs =>
        simp only [Bool.and_eq_true, decide_eq_true_eq] at h
        obtain ⟨⟨hbase, hlen⟩, hsame⟩ := h
        obtain ⟨hfs, hgs, hl, hr⟩ := both_of_sameFields hlen hsame hnames.here
          fun c hc => hchild c (List.mem_cons_of_mem _ hc)
        have hb := hchild base List.mem_cons_self base' hbase
        exact ⟨.updates hlen hb.1 hfs fun p hp t ht => (hl p hp t ht).1,
          .updates hlen.symm hb.2 hgs fun p hp t ht => (hr p hp t ht).2⟩
      | _ => exact absurd h Bool.false_ne_true
    | variant fs isOpen =>
      cases b with
      | variant gs isOpen' =>
        simp only [Bool.and_eq_true, decide_eq_true_eq] at h
        obtain ⟨⟨ho, hlen⟩, hsame⟩ := h
        obtain ⟨hfs, hgs, hl, hr⟩ := both_of_sameFields hlen hsame hnames.here hchild
        exact ⟨.variant (fun h => ⟨ho.trans h, hfs⟩) fun p hp t ht => (hl p hp t ht).1,
          .variant (fun h => ⟨ho.symm.trans h, hgs⟩) fun p hp t ht => (hr p hp t ht).2⟩
      | _ => exact absurd h Bool.false_ne_true
    | function d p e r =>
      cases b with
      | function d' p' e' r' =>
        simp only [Bool.and_eq_true, decide_eq_true_eq] at h
        obtain ⟨⟨⟨rfl, hp⟩, he⟩, hr⟩ := h
        have hp := hchild p (by simp [Ty.children]) p' hp
        have he := hchild e (by simp [Ty.children]) e' he
        have hr := hchild r (by simp [Ty.children]) r' hr
        exact ⟨.function hp.2 he.1 hr.1, .function hp.1 he.2 hr.2⟩
      | _ => exact absurd h Bool.false_ne_true
    | array c =>
      cases b with
      | array u =>
        have hc := hchild c List.mem_cons_self u h
        exact ⟨.array hc.1, .array hc.2⟩
      | _ => exact absurd h Bool.false_ne_true
    | region c =>
      cases b with
      | region u =>
        have hc := hchild c List.mem_cons_self u h
        exact ⟨.region hc.1 hc.2, .region hc.2 hc.1⟩
      | _ => exact absurd h Bool.false_ne_true
    | scratch c =>
      cases b with
      | scratch u =>
        have hc := hchild c List.mem_cons_self u h
        exact ⟨.scratch hc.1 hc.2, .scratch hc.2 hc.1⟩
      | _ => exact absurd h Bool.false_ne_true
    | resource f c =>
      cases b with
      | resource g u =>
        simp only [Bool.and_eq_true, decide_eq_true_eq] at h
        obtain ⟨rfl, h⟩ := h
        have hc := hchild c List.mem_cons_self u h
        exact ⟨.resource hc.1 hc.2, .resource hc.2 hc.1⟩
      | _ => exact absurd h Bool.false_ne_true
    | openEffects l c =>
      cases b with
      | openEffects m u =>
        simp only [Bool.and_eq_true, decide_eq_true_eq] at h
        obtain ⟨rfl, h⟩ := h
        have hc := hchild c List.mem_cons_self u h
        have hl : ∀ t, l \ l ≠ ∅ → Declared leaf (.effects (l \ l)) t := fun t hne =>
          absurd (Finset.sdiff_self l) hne
        exact ⟨.rows (hl _) hc.1, .rows (hl _) hc.2⟩
      | _ => exact absurd h Bool.false_ne_true
    | rigid r =>
      cases b with
      | rigid q =>
        obtain rfl : r = q := by simpa [Ty.sameRigid, Ty.boundLeft] using h
        exact absurd rfl heq
      | _ => exact absurd h Bool.false_ne_true
    | _ =>
      cases b
      all_goals first
        | exact absurd h Bool.false_ne_true
        | simp_all

end Same

end Blot.Typecheck
