import Blot.Support.Matching
import Blot.Support.Scopes
import Blot.Typecheck.Ty

/-!
# Equality of types up to renaming (`spec/TYPECHECKING.md`)

`Alpha` is what equality of types means: equal up to a scoped bijection of bound rigids, the order of record fields and
variant cases, and the order and repetition of union members.  `Layer` is one constructor's worth of a comparison, with
what is done at the children as a parameter, so that `Alpha` and the comparisons of the source have the same layers.
-/

namespace Blot.Typecheck

open Blot.Support

structure Comparison where
  rigid : ℕ → ℕ → Prop
  bind : List ℕ → List ℕ → Ty → Ty → Prop
  child : Ty → Ty → Prop
  row : List (String × Ty) → List (String × Ty) → Prop
  members : List Ty → List Ty → Prop

def SameRequirement (R : Ty → Ty → Prop) (r q : MemberRequirement Ty) : Prop :=
  r.name = q.name ∧ R r.subject q.subject ∧ R r.member q.member

def Layer (c : Comparison) : Ty → Ty → Prop
  | .var x, .var y => x = y
  | .rigid l, .rigid r => c.rigid l r
  | .forallType vs a, .forallType ws b => vs.length = ws.length ∧ c.bind vs ws a b
  | .qualified rs a, .qualified qs b => List.Forall₂ (SameRequirement c.child) rs qs ∧ c.child a b
  | .range d l h, .range d' l' h' => d = d' ∧ l = l' ∧ h = h'
  | .unit, .unit => True
  | .function d p e r, .function d' p' e' r' => d = d' ∧ c.child p p' ∧ c.child e e' ∧ c.child r r'
  | .record fs, .record gs => c.row fs gs
  | .recordUpdate a fs, .recordUpdate b gs => c.child a b ∧ c.row fs gs
  | .array a, .array b => c.child a b
  | .region a, .region b => c.child a b
  | .scratch a, .scratch b => c.child a b
  | .resource f a, .resource g b => f = g ∧ c.child a b
  | .variant fs o, .variant gs o' => o = o' ∧ c.row fs gs
  | .effects a, .effects b => a = b
  | .openEffects l a, .openEffects m b => l = m ∧ c.child a b
  | .union ms, .union ns => c.members ms ns
  | .opaqueType a, .opaqueType b => a = b
  | .top, .top => True
  | .bottom, .bottom => True
  | _, _ => False

def Ty.row : Ty → List (String × Ty)
  | .record fs => fs
  | .recordUpdate _ fs => fs
  | .variant fs _ => fs
  | _ => []

def Ty.members : Ty → List Ty
  | .union ms => ms
  | _ => []

/-- The types `x` and `y` stand beside each other under `a` and `b`: a comparison of these comes to those. -/
inductive Beside : Ty → Ty → Ty → Ty → Prop
  | body {rs qs : List (MemberRequirement Ty)} {a b : Ty} : Beside (.qualified rs a) (.qualified qs b) a b
  | subject {rs qs : List (MemberRequirement Ty)} {a b : Ty} {i : ℕ} {r q : MemberRequirement Ty}
      (hr : rs[i]? = some r) (hq : qs[i]? = some q) : Beside (.qualified rs a) (.qualified qs b) r.subject q.subject
  | member {rs qs : List (MemberRequirement Ty)} {a b : Ty} {i : ℕ} {r q : MemberRequirement Ty}
      (hr : rs[i]? = some r) (hq : qs[i]? = some q) : Beside (.qualified rs a) (.qualified qs b) r.member q.member
  | parameter {d d' : Bool} {p e r p' e' r' : Ty} : Beside (.function d p e r) (.function d' p' e' r') p p'
  | performed {d d' : Bool} {p e r p' e' r' : Ty} : Beside (.function d p e r) (.function d' p' e' r') e e'
  | result {d d' : Bool} {p e r p' e' r' : Ty} : Beside (.function d p e r) (.function d' p' e' r') r r'
  | field {fs gs : List (String × Ty)} {f g : String × Ty} (hf : f ∈ fs) (hg : g ∈ gs) (hname : f.1 = g.1) :
      Beside (.record fs) (.record gs) f.2 g.2
  | base {fs gs : List (String × Ty)} {a b : Ty} : Beside (.recordUpdate a fs) (.recordUpdate b gs) a b
  | updated {fs gs : List (String × Ty)} {a b : Ty} {f g : String × Ty} (hf : f ∈ fs) (hg : g ∈ gs)
      (hname : f.1 = g.1) : Beside (.recordUpdate a fs) (.recordUpdate b gs) f.2 g.2
  | element {a b : Ty} : Beside (.array a) (.array b) a b
  | region {a b : Ty} : Beside (.region a) (.region b) a b
  | scratch {a b : Ty} : Beside (.scratch a) (.scratch b) a b
  | payload {f g : String} {a b : Ty} : Beside (.resource f a) (.resource g b) a b
  | variantCase {fs gs : List (String × Ty)} {o o' : Bool} {f g : String × Ty} (hf : f ∈ fs) (hg : g ∈ gs)
      (hname : f.1 = g.1) : Beside (.variant fs o) (.variant gs o') f.2 g.2
  | tail {l m : Finset String} {a b : Ty} : Beside (.openEffects l a) (.openEffects m b) a b
  | unionMember {ms ns : List Ty} {m n : Ty} (hm : m ∈ ms) (hn : n ∈ ns) : Beside (.union ms) (.union ns) m n

theorem Ty.mem_children_of_row {t : Ty} {f : String × Ty} (h : f ∈ t.row) : f.2 ∈ t.children := by
  cases t with
  | record fs => exact List.mem_map_of_mem h
  | recordUpdate base fs => exact List.mem_cons_of_mem _ (List.mem_map_of_mem h)
  | variant fs isOpen => exact List.mem_map_of_mem h
  | _ => exact absurd h List.not_mem_nil

theorem Ty.mem_children_of_member {t c : Ty} (h : c ∈ t.members) : c ∈ t.children := by
  cases t with
  | union ms => exact h
  | _ => exact absurd h List.not_mem_nil

theorem Beside.mem_left {a b x y : Ty} (h : Beside a b x y) : x ∈ a.children := by
  cases h with
  | body => simp [Ty.children]
  | subject hr _ | member hr _ =>
    have hmem := List.mem_of_getElem? hr
    refine List.mem_append_left _ (List.mem_flatMap.2 ⟨_, hmem, ?_⟩)
    simp
  | field hf _ _ => exact Ty.mem_children_of_row (t := .record _) hf
  | updated hf _ _ => exact Ty.mem_children_of_row (t := .recordUpdate _ _) hf
  | variantCase hf _ _ => exact Ty.mem_children_of_row (t := .variant _ _) hf
  | unionMember hm _ => exact hm
  | _ => simp [Ty.children]

theorem Beside.mem_right {a b x y : Ty} (h : Beside a b x y) : y ∈ b.children := by
  cases h with
  | body => simp [Ty.children]
  | subject _ hq | member _ hq =>
    have hmem := List.mem_of_getElem? hq
    refine List.mem_append_left _ (List.mem_flatMap.2 ⟨_, hmem, ?_⟩)
    simp
  | field _ hg _ => exact Ty.mem_children_of_row (t := .record _) hg
  | updated _ hg _ => exact Ty.mem_children_of_row (t := .recordUpdate _ _) hg
  | variantCase _ hg _ => exact Ty.mem_children_of_row (t := .variant _ _) hg
  | unionMember _ hn => exact hn
  | _ => simp [Ty.children]

/-- Requirements compared one by one. -/
theorem forall₂_requirements_mono {R R' : Ty → Ty → Prop} {rs qs : List (MemberRequirement Ty)} {a b : Ty}
    (h : List.Forall₂ (SameRequirement R) rs qs)
    (himp : ∀ x y, Beside (.qualified rs a) (.qualified qs b) x y → R x y → R' x y) :
    List.Forall₂ (SameRequirement R') rs qs := by
  rw [List.forall₂_iff_get] at h ⊢
  refine ⟨h.1, fun i hi hi' => ?_⟩
  obtain ⟨hname, hsubject, hmember⟩ := h.2 i hi hi'
  have hr := List.getElem?_eq_getElem hi
  have hq := List.getElem?_eq_getElem hi'
  exact ⟨hname, himp _ _ (.subject hr hq) hsubject, himp _ _ (.member hr hq) hmember⟩

section Layers

variable {c c' : Comparison} {a b : Ty}

theorem Layer.mono (h : Layer c a b) (hrigid : ∀ l r, c.rigid l r → c'.rigid l r)
    (hbind : ∀ vs ws x y, a = .forallType vs x → b = .forallType ws y → vs.length = ws.length →
      c.bind vs ws x y → c'.bind vs ws x y)
    (hchild : ∀ x y, Beside a b x y → c.child x y → c'.child x y)
    (hrow : c.row a.row b.row → c'.row a.row b.row)
    (hmembers : c.members a.members b.members → c'.members a.members b.members) : Layer c' a b := by
  unfold Layer at h
  split at h
  case h_1 => exact h
  case h_2 => exact hrigid _ _ h
  case h_3 => exact ⟨h.1, hbind _ _ _ _ rfl rfl h.1 h.2⟩
  case h_4 => exact ⟨forall₂_requirements_mono h.1 hchild, hchild _ _ .body h.2⟩
  case h_5 => exact h
  case h_6 => exact h
  case h_7 =>
    obtain ⟨hd, hp, he, hr⟩ := h
    exact ⟨hd, hchild _ _ .parameter hp, hchild _ _ .performed he, hchild _ _ .result hr⟩
  case h_8 => exact hrow h
  case h_9 => exact ⟨hchild _ _ .base h.1, hrow h.2⟩
  case h_10 => exact hchild _ _ .element h
  case h_11 => exact hchild _ _ .region h
  case h_12 => exact hchild _ _ .scratch h
  case h_13 => exact ⟨h.1, hchild _ _ .payload h.2⟩
  case h_14 => exact ⟨h.1, hrow h.2⟩
  case h_15 => exact h
  case h_16 => exact ⟨h.1, hchild _ _ .tail h.2⟩
  case h_17 => exact hmembers h
  case h_18 => exact h
  case h_19 => exact h
  case h_20 => exact h
  case h_21 => exact h.elim

theorem Layer.symm (h : Layer c a b) (hrigid : ∀ l r, c.rigid l r → c'.rigid r l)
    (hbind : ∀ vs ws x y, vs.length = ws.length → x ∈ a.children → c.bind vs ws x y → c'.bind ws vs y x)
    (hchild : ∀ x y, x ∈ a.children → c.child x y → c'.child y x)
    (hrow : c.row a.row b.row → c'.row b.row a.row)
    (hmembers : c.members a.members b.members → c'.members b.members a.members) : Layer c' b a := by
  unfold Layer at h
  split at h
  case h_1 => exact Eq.symm h
  case h_2 => exact hrigid _ _ h
  case h_3 => exact ⟨h.1.symm, hbind _ _ _ _ h.1 (by simp [Ty.children]) h.2⟩
  case h_4 rs body qs body' =>
    refine ⟨?_, hchild _ _ (by simp [Ty.children]) h.2⟩
    have hrequirements : List.Forall₂ (SameRequirement fun x y => x ∈ (Ty.qualified rs body).children ∧ c.child x y)
        rs qs := forall₂_requirements_mono (a := body) (b := body') h.1 fun x y hxy hR => ⟨hxy.mem_left, hR⟩
    refine (hrequirements.flip.imp ?_)
    exact fun q r hrq => ⟨hrq.1.symm, hchild _ _ hrq.2.1.1 hrq.2.1.2, hchild _ _ hrq.2.2.1 hrq.2.2.2⟩
  case h_5 =>
    obtain ⟨rfl, rfl, rfl⟩ := h
    exact ⟨rfl, rfl, rfl⟩
  case h_6 => exact h
  case h_7 =>
    obtain ⟨rfl, hp, he, hr⟩ := h
    exact ⟨rfl, hchild _ _ (by simp [Ty.children]) hp, hchild _ _ (by simp [Ty.children]) he,
      hchild _ _ (by simp [Ty.children]) hr⟩
  case h_8 => exact hrow h
  case h_9 => exact ⟨hchild _ _ (by simp [Ty.children]) h.1, hrow h.2⟩
  case h_10 => exact hchild _ _ (by simp [Ty.children]) h
  case h_11 => exact hchild _ _ (by simp [Ty.children]) h
  case h_12 => exact hchild _ _ (by simp [Ty.children]) h
  case h_13 => exact ⟨h.1.symm, hchild _ _ (by simp [Ty.children]) h.2⟩
  case h_14 => exact ⟨h.1.symm, hrow h.2⟩
  case h_15 => exact Eq.symm h
  case h_16 => exact ⟨h.1.symm, hchild _ _ (by simp [Ty.children]) h.2⟩
  case h_17 => exact hmembers h
  case h_18 => exact Eq.symm h
  case h_19 => exact h
  case h_20 => exact h
  case h_21 => exact h.elim

theorem Layer.trans {c'' : Comparison} {t : Ty} (h : Layer c a b) (h' : Layer c' b t)
    (hrigid : ∀ l m r, c.rigid l m → c'.rigid m r → c''.rigid l r)
    (hbind : ∀ vs ws us x y z, vs.length = ws.length → ws.length = us.length → x ∈ a.children →
      c.bind vs ws x y → c'.bind ws us y z → c''.bind vs us x z)
    (hchild : ∀ x y z, x ∈ a.children → c.child x y → c'.child y z → c''.child x z)
    (hrow : c.row a.row b.row → c'.row b.row t.row → c''.row a.row t.row)
    (hmembers : c.members a.members b.members → c'.members b.members t.members → c''.members a.members t.members) :
    Layer c'' a t := by
  unfold Layer at h
  split at h
  case h_1 =>
    cases t with
    | var z => exact Eq.trans h h'
    | _ => exact False.elim h'
  case h_2 =>
    cases t with
    | rigid r => exact hrigid _ _ _ h h'
    | _ => exact False.elim h'
  case h_3 =>
    cases t with
    | forallType us z => exact ⟨h.1.trans h'.1, hbind _ _ _ _ _ _ h.1 h'.1 (by simp [Ty.children]) h.2 h'.2⟩
    | _ => exact False.elim h'
  case h_4 rs body qs body' =>
    cases t with
    | qualified ps body'' =>
      refine ⟨?_, hchild _ _ _ (by simp [Ty.children]) h.2 h'.2⟩
      have hrequirements : List.Forall₂ (SameRequirement fun x y => x ∈ (Ty.qualified rs body).children ∧ c.child x y)
          rs qs := forall₂_requirements_mono (a := body) (b := body') h.1 fun x y hxy hR => ⟨hxy.mem_left, hR⟩
      refine forall₂_trans hrequirements h'.1 fun r q p hrq hqp => ?_
      exact ⟨hrq.1.trans hqp.1, hchild _ _ _ hrq.2.1.1 hrq.2.1.2 hqp.2.1, hchild _ _ _ hrq.2.2.1 hrq.2.2.2 hqp.2.2⟩
    | _ => exact False.elim h'
  case h_5 =>
    cases t with
    | range d l r => exact ⟨h.1.trans h'.1, h.2.1.trans h'.2.1, h.2.2.trans h'.2.2⟩
    | _ => exact False.elim h'
  case h_6 =>
    cases t with
    | unit => trivial
    | _ => exact False.elim h'
  case h_7 =>
    cases t with
    | function d p e r =>
      obtain ⟨hd, hp, he, hr⟩ := h
      obtain ⟨hd', hp', he', hr'⟩ := h'
      exact ⟨hd.trans hd', hchild _ _ _ (by simp [Ty.children]) hp hp', hchild _ _ _ (by simp [Ty.children]) he he',
        hchild _ _ _ (by simp [Ty.children]) hr hr'⟩
    | _ => exact False.elim h'
  case h_8 =>
    cases t with
    | record hs => exact hrow h h'
    | _ => exact False.elim h'
  case h_9 =>
    cases t with
    | recordUpdate base hs => exact ⟨hchild _ _ _ (by simp [Ty.children]) h.1 h'.1, hrow h.2 h'.2⟩
    | _ => exact False.elim h'
  case h_10 =>
    cases t with
    | array z => exact hchild _ _ _ (by simp [Ty.children]) h h'
    | _ => exact False.elim h'
  case h_11 =>
    cases t with
    | region z => exact hchild _ _ _ (by simp [Ty.children]) h h'
    | _ => exact False.elim h'
  case h_12 =>
    cases t with
    | scratch z => exact hchild _ _ _ (by simp [Ty.children]) h h'
    | _ => exact False.elim h'
  case h_13 =>
    cases t with
    | resource family z => exact ⟨h.1.trans h'.1, hchild _ _ _ (by simp [Ty.children]) h.2 h'.2⟩
    | _ => exact False.elim h'
  case h_14 =>
    cases t with
    | variant hs isOpen => exact ⟨h.1.trans h'.1, hrow h.2 h'.2⟩
    | _ => exact False.elim h'
  case h_15 =>
    cases t with
    | effects labels => exact Eq.trans h h'
    | _ => exact False.elim h'
  case h_16 =>
    cases t with
    | openEffects labels z => exact ⟨h.1.trans h'.1, hchild _ _ _ (by simp [Ty.children]) h.2 h'.2⟩
    | _ => exact False.elim h'
  case h_17 =>
    cases t with
    | union os => exact hmembers h h'
    | _ => exact False.elim h'
  case h_18 =>
    cases t with
    | opaqueType name => exact Eq.trans h h'
    | _ => exact False.elim h'
  case h_19 =>
    cases t with
    | top => trivial
    | _ => exact False.elim h'
  case h_20 =>
    cases t with
    | bottom => trivial
    | _ => exact False.elim h'
  case h_21 => exact h.elim

theorem Layer.refl (hrigid : ∀ r, a = .rigid r → c.rigid r r)
    (hbind : ∀ vs x, a = .forallType vs x → c.bind vs vs x x) (hchild : ∀ x ∈ a.children, c.child x x)
    (hrow : c.row a.row a.row) (hmembers : c.members a.members a.members) : Layer c a a := by
  cases a with
  | rigid r => exact hrigid r rfl
  | forallType vs x => exact ⟨rfl, hbind vs x rfl⟩
  | qualified rs body =>
    refine ⟨?_, hchild body (by simp [Ty.children])⟩
    rw [List.forall₂_same]
    intro r hr
    refine ⟨rfl, hchild _ ?_, hchild _ ?_⟩
    · exact List.mem_append_left _ (List.mem_flatMap.2 ⟨r, hr, List.mem_cons_self⟩)
    · exact List.mem_append_left _ (List.mem_flatMap.2 ⟨r, hr, List.mem_cons_of_mem _ List.mem_cons_self⟩)
  | range d l h => exact ⟨rfl, rfl, rfl⟩
  | function d p e r =>
    exact ⟨rfl, hchild p (by simp [Ty.children]), hchild e (by simp [Ty.children]), hchild r (by simp [Ty.children])⟩
  | record fs => exact hrow
  | recordUpdate base fs => exact ⟨hchild base (by simp [Ty.children]), hrow⟩
  | variant fs isOpen => exact ⟨rfl, hrow⟩
  | resource family payload => exact ⟨rfl, hchild payload (by simp [Ty.children])⟩
  | openEffects labels tail => exact ⟨rfl, hchild tail (by simp [Ty.children])⟩
  | union ms => exact hmembers
  | array element | region element | scratch element => exact hchild element (by simp [Ty.children])
  | var x | opaqueType name | effects labels => exact Eq.refl _
  | unit | top | bottom => trivial

end Layers

/-! ### Equality up to renaming -/

/-- **Equality of types** under the pairs of binders around them, innermost first. -/
def Alpha (pairs : List (ℕ × ℕ)) (a b : Ty) : Prop :=
  Layer
    { rigid := Corresponds pairs
      bind := fun vs ws x y => ∃ _ : x ∈ a.children, Alpha (bindPairs vs ws pairs) x y
      child := fun x y => ∃ _ : x ∈ a.children, Alpha pairs x y
      row := SameRow fun x y => ∃ _ : x ∈ a.children, Alpha pairs x y
      members := SameMembers fun x y => ∃ _ : x ∈ a.children, Alpha pairs x y } a b
termination_by sizeOf a
decreasing_by all_goals exact Ty.sizeOf_child_lt (by assumption)

def alphaBelow (pairs : List (ℕ × ℕ)) : Comparison where
  rigid := Corresponds pairs
  bind vs ws := Alpha (bindPairs vs ws pairs)
  child := Alpha pairs
  row := SameRow (Alpha pairs)
  members := SameMembers (Alpha pairs)

/-- Types are equal when they have the same constructor and data, and equal children. -/
theorem alpha_iff {pairs : List (ℕ × ℕ)} {a b : Ty} : Alpha pairs a b ↔ Layer (alphaBelow pairs) a b := by
  rw [Alpha]
  constructor
  · intro h
    refine h.mono (fun _ _ h => h) (fun _ _ _ _ _ _ _ h => h.2) (fun _ _ _ h => h.2) (fun h => ?_) (fun h => ?_)
    · have h : SameRow (fun x y => ∃ _ : x ∈ a.children, Alpha pairs x y) a.row b.row := h
      exact h.mono fun _ _ _ _ _ h => h.2
    · have h : SameMembers (fun x y => ∃ _ : x ∈ a.children, Alpha pairs x y) a.members b.members := h
      exact h.mono fun _ _ _ _ h => h.2
  · intro h
    refine h.mono (fun _ _ h => h) ?_ (fun x y hxy h => ⟨hxy.mem_left, h⟩) (fun h => ?_) (fun h => ?_)
    · rintro vs ws x y rfl - - h
      exact ⟨List.mem_singleton_self x, h⟩
    · have h : SameRow (Alpha pairs) a.row b.row := h
      have h' : SameRow (fun x y => ∃ _ : x ∈ a.children, Alpha pairs x y) a.row b.row :=
        h.mono fun f hf _ _ _ h => ⟨Ty.mem_children_of_row hf, h⟩
      exact h'
    · have h : SameMembers (Alpha pairs) a.members b.members := h
      have h' : SameMembers (fun x y => ∃ _ : x ∈ a.children, Alpha pairs x y) a.members b.members :=
        h.mono fun m hm _ _ h => ⟨Ty.mem_children_of_member hm, h⟩
      exact h'

theorem sameRow_children {R : Ty → Ty → Prop} {a b : Ty} (h : SameRow R a.row b.row) :
    SameRow (fun x y => x ∈ a.children ∧ R x y) a.row b.row :=
  h.mono fun _ hf _ _ _ hR => ⟨Ty.mem_children_of_row hf, hR⟩

theorem sameMembers_children {R : Ty → Ty → Prop} {a b : Ty} (h : SameMembers R a.members b.members) :
    SameMembers (fun x y => x ∈ a.children ∧ R x y) a.members b.members :=
  h.mono fun _ hm _ _ hR => ⟨Ty.mem_children_of_member hm, hR⟩

theorem Alpha.symm {pairs : List (ℕ × ℕ)} {a b : Ty} (h : Alpha pairs a b) : Alpha (pairs.map Prod.swap) b a := by
  induction a using Ty.ind generalizing pairs b with
  | h a ih =>
    rw [alpha_iff] at h ⊢
    refine h.symm (fun l r hlr => hlr.swap) ?_ (fun x y hx hxy => ih x hx hxy) (fun h => ?_) (fun h => ?_)
    · intro vs ws x y hlen hx hxy
      show Alpha (bindPairs ws vs (pairs.map Prod.swap)) y x
      rw [← bindPairs_swap]
      exact ih x hx hxy
    · exact (sameRow_children h).symm fun x y hxy => ih x hxy.1 hxy.2
    · exact (sameMembers_children h).symm fun x y hxy => ih x hxy.1 hxy.2

theorem Alpha.trans {ps qs rs : List (ℕ × ℕ)} (hchain : Chain ps qs rs) {a b t : Ty} (h : Alpha ps a b)
    (h' : Alpha qs b t) : Alpha rs a t := by
  induction a using Ty.ind generalizing ps qs rs b t with
  | h a ih =>
    rw [alpha_iff] at h h' ⊢
    refine h.trans h' hchain ?_ (fun x y z hx hxy hyz => ih x hx hchain hxy hyz) (fun h h' => ?_) (fun h h' => ?_)
    · intro vs ws us x y z hvw hwu hx hxy hyz
      exact ih x hx (hchain.bind hvw hwu) hxy hyz
    · refine (sameRow_children h).trans h' fun f hf y z hxy hyz => ?_
      exact ih f.2 hxy.1 hchain hxy.2 hyz
    · refine (sameMembers_children h).trans h' fun x hx y z hxy hyz => ?_
      exact ih x hxy.1 hchain hxy.2 hyz

/-- A rigid occurs in a type where no binder of the type binds it. -/
inductive Ty.Free (r : ℕ) : Ty → Prop
  | rigid : Free r (.rigid r)
  | child {t c : Ty} (hc : c ∈ t.children) (h : Free r c) (hbinder : ∀ vs body, t = .forallType vs body → r ∉ vs) :
      Free r t

/-- A type equals itself where each of its free rigids means itself. -/
theorem alpha_self {pairs : List (ℕ × ℕ)} {t : Ty} (h : ∀ r, t.Free r → Corresponds pairs r r) : Alpha pairs t t := by
  induction t using Ty.ind generalizing pairs with
  | h t ih =>
    rw [alpha_iff]
    have hplain : (∀ vs body, t ≠ .forallType vs body) → ∀ c ∈ t.children, Alpha pairs c c := by
      intro hne c hc
      exact ih c hc fun r hr => h r (.child hc hr fun vs body heq => absurd heq (hne vs body))
    by_cases hforall : ∃ vs body, t = .forallType vs body
    · obtain ⟨vs, body, rfl⟩ := hforall
      refine ⟨rfl, ih body (List.mem_singleton_self body) fun r hr => corresponds_bind_self fun hout => ?_⟩
      refine h r (.child (List.mem_singleton_self body) hr fun us body' heq => ?_)
      obtain ⟨rfl, rfl⟩ := Ty.forallType.inj heq
      exact hout
    · have hchildren := hplain fun vs body heq => hforall ⟨vs, body, heq⟩
      refine Layer.refl ?_ (fun vs body heq => absurd ⟨vs, body, heq⟩ hforall) hchildren ?_ ?_
      · rintro r rfl
        exact h r .rigid
      · exact SameRow.refl fun f hf => hchildren f.2 (Ty.mem_children_of_row hf)
      · exact SameMembers.refl fun m hm => hchildren m (Ty.mem_children_of_member hm)

/-- **Equality of types is an equivalence.** -/
theorem alpha_equivalence : Equivalence (Alpha []) where
  refl _ := alpha_self fun _ _ => Eq.refl _
  symm h := h.symm
  trans h h' := h.trans chain_nil h'

theorem alpha_of_common {pairs : List (ℕ × ℕ)} {a a' b : Ty} (h : Alpha pairs a b) (h' : Alpha pairs a' b) :
    Alpha [] a a' :=
  h.trans (chain_swap pairs) h'.symm

end Blot.Typecheck
