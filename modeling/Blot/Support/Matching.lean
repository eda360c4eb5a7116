import Mathlib.Data.List.Perm.Basic
import Mathlib.Order.Lattice
import Mathlib.Data.List.Pairwise
import Blot.Support.Checks

/-!
# Lists that match up to order

Two lists of members match as sets when each member of one has a partner in the other (`SameMembers`), two rows of
named entries when one is the other in another order, entry by entry (`SameRow`).  A comparison often looks only from
the left: with equal lengths that is enough where no two members on the left have a partner in common
(`sameMembers_of_covers`, `sameRow_of_covers`).
-/

namespace Blot.Support

variable {A B : Type}

/-- Every member on the left has a partner on the right. -/
def Covers (R : A → B → Prop) (as : List A) (bs : List B) : Prop := ∀ a ∈ as, ∃ b ∈ bs, R a b

def SameMembers (R : A → B → Prop) (as : List A) (bs : List B) : Prop :=
  Covers R as bs ∧ ∀ b ∈ bs, ∃ a ∈ as, R a b

def Share (R : A → B → Prop) (a a' : A) : Prop := ∃ b, R a b ∧ R a' b

section Members

variable {R : A → B → Prop} {as : List A} {bs : List B}

/-- Without a shared partner, the partner of the first member is not needed for the others. -/
theorem Covers.split {a : A} (h : Covers R (a :: as) bs) (hshare : (a :: as).Pairwise fun x y => ¬ Share R x y) :
    ∃ xs b ys, bs = xs ++ b :: ys ∧ R a b ∧ Covers R as (xs ++ ys) := by
  obtain ⟨b, hb, hab⟩ := h a List.mem_cons_self
  obtain ⟨xs, ys, rfl⟩ := List.append_of_mem hb
  refine ⟨xs, b, ys, rfl, hab, fun a' ha' => ?_⟩
  obtain ⟨b', hb', hab'⟩ := h a' (List.mem_cons_of_mem _ ha')
  have hne : b' ≠ b := by
    rintro rfl
    exact (List.pairwise_cons.1 hshare).1 a' ha' ⟨b', hab, hab'⟩
  refine ⟨b', ?_, hab'⟩
  rw [List.mem_append] at hb' ⊢
  rcases hb' with hb' | hb'
  · exact Or.inl hb'
  · exact Or.inr ((List.mem_cons.1 hb').resolve_left hne)

theorem Covers.length_le (h : Covers R as bs) (hshare : as.Pairwise fun x y => ¬ Share R x y) :
    as.length ≤ bs.length := by
  induction as generalizing bs with
  | nil => exact Nat.zero_le _
  | cons a as ih =>
    obtain ⟨xs, b, ys, rfl, -, hrest⟩ := h.split hshare
    have := ih hrest (List.pairwise_cons.1 hshare).2
    simp only [List.length_append, List.length_cons] at this ⊢
    omega

theorem sameMembers_of_covers (h : Covers R as bs) (hlen : as.length = bs.length)
    (hshare : as.Pairwise fun x y => ¬ Share R x y) : SameMembers R as bs := by
  refine ⟨h, ?_⟩
  induction as generalizing bs with
  | nil =>
    obtain rfl := List.eq_nil_of_length_eq_zero hlen.symm
    exact fun b hb => absurd hb List.not_mem_nil
  | cons a as ih =>
    obtain ⟨xs, b, ys, rfl, hab, hrest⟩ := h.split hshare
    simp only [List.length_append, List.length_cons] at hlen
    have hback := ih hrest (by rw [List.length_append]; omega) (List.pairwise_cons.1 hshare).2
    intro b' hb'
    have hcases : b' = b ∨ b' ∈ xs ++ ys := by
      rw [List.mem_append] at hb' ⊢
      rcases hb' with hb' | hb'
      · exact Or.inr (Or.inl hb')
      · exact (List.mem_cons.1 hb').imp (fun h => h) Or.inr
    rcases hcases with rfl | hb'
    · exact ⟨a, List.mem_cons_self, hab⟩
    · obtain ⟨a', ha', hab'⟩ := hback b' hb'
      exact ⟨a', List.mem_cons_of_mem _ ha', hab'⟩

end Members

theorem forall₂_trans {A B C : Type} {R : A → B → Prop} {S : B → C → Prop} {T : A → C → Prop} {as : List A}
    {bs : List B}
    {cs : List C} (h : List.Forall₂ R as bs) (h' : List.Forall₂ S bs cs) (hT : ∀ a b c, R a b → S b c → T a c) :
    List.Forall₂ T as cs := by
  induction h generalizing cs with
  | nil =>
    cases h'
    exact .nil
  | cons hab _ ih =>
    cases h' with
    | cons hbc hrest => exact .cons (hT _ _ _ hab hbc) (ih hrest)

theorem forall₂_imp_of_mem₂ {R S : A → B → Prop} {as : List A} {bs : List B} (h : List.Forall₂ R as bs)
    (himp : ∀ a b, a ∈ as → b ∈ bs → R a b → S a b) : List.Forall₂ S as bs := by
  induction h with
  | nil => exact .nil
  | cons hab _ ih =>
    refine .cons (himp _ _ List.mem_cons_self List.mem_cons_self hab) (ih fun a b ha hb => ?_)
    exact himp a b (List.mem_cons_of_mem _ ha) (List.mem_cons_of_mem _ hb)

theorem forall₂_of_append {R : A → B → Prop} {as as' : List A} {bs bs' : List B} (hlen : as.length = bs.length)
    (h : List.Forall₂ R (as ++ as') (bs ++ bs')) : List.Forall₂ R as bs ∧ List.Forall₂ R as' bs' := by
  induction as generalizing bs with
  | nil =>
    obtain rfl := List.eq_nil_of_length_eq_zero hlen.symm
    exact ⟨.nil, h⟩
  | cons a as ih =>
    cases bs with
    | nil => exact absurd hlen (Nat.succ_ne_zero _)
    | cons b bs =>
      obtain ⟨hab, h⟩ := List.forall₂_cons.1 h
      obtain ⟨hleft, hright⟩ := ih (Nat.succ.inj hlen) h
      exact ⟨.cons hab hleft, hright⟩

theorem forall₂_and {R S : A → B → Prop} {as : List A} {bs : List B} (h : List.Forall₂ R as bs)
    (h' : List.Forall₂ S as bs) : List.Forall₂ (fun a b => R a b ∧ S a b) as bs := by
  induction h with
  | nil => exact .nil
  | cons hab _ ih =>
    cases h' with
    | cons hab' h' => exact .cons ⟨hab, hab'⟩ (ih h')

/-- One list is the other in another order, member by member. -/
def SameBag (R : A → B → Prop) (as : List A) (bs : List B) : Prop := ∃ bs', bs'.Perm bs ∧ List.Forall₂ R as bs'

section SameBag

variable {C : Type} {R : A → B → Prop} {as : List A} {bs : List B}

theorem SameBag.length_eq (h : SameBag R as bs) : as.length = bs.length := by
  obtain ⟨bs', hperm, hall⟩ := h
  rw [hall.length_eq, hperm.length_eq]

theorem SameBag.covers (h : SameBag R as bs) : Covers R as bs := by
  obtain ⟨bs', hperm, hall⟩ := h
  intro a ha
  obtain ⟨b, hb, hab⟩ := exists_right_of_forall₂ hall ha
  exact ⟨b, hperm.mem_iff.1 hb, hab⟩

/-- As many members on the right as on the left, and no shared partners: looking from the left is enough. -/
theorem sameBag_of_covers (h : Covers R as bs) (hlen : as.length = bs.length)
    (hshare : as.Pairwise fun x y => ¬ Share R x y) : SameBag R as bs := by
  induction as generalizing bs with
  | nil =>
    obtain rfl := List.eq_nil_of_length_eq_zero hlen.symm
    exact ⟨[], .refl _, .nil⟩
  | cons a as ih =>
    obtain ⟨xs, b, ys, rfl, hab, hrest⟩ := h.split hshare
    simp only [List.length_append, List.length_cons] at hlen
    obtain ⟨bs', hperm, hall⟩ := ih hrest (by rw [List.length_append]; omega) (List.pairwise_cons.1 hshare).2
    exact ⟨b :: bs', (hperm.cons b).trans List.perm_middle.symm, .cons hab hall⟩

theorem SameBag.mono {R' : A → B → Prop} (h : SameBag R as bs) (himp : ∀ a ∈ as, ∀ b ∈ bs, R a b → R' a b) :
    SameBag R' as bs := by
  obtain ⟨bs', hperm, hall⟩ := h
  refine ⟨bs', hperm, forall₂_imp_of_mem₂ hall fun a b ha hb => ?_⟩
  exact himp a ha b (hperm.mem_iff.1 hb)

theorem SameBag.refl {R : A → A → Prop} {as : List A} (h : ∀ a ∈ as, R a a) : SameBag R as as := by
  refine ⟨as, .refl as, ?_⟩
  rw [List.forall₂_same]
  exact h

theorem SameBag.symm (h : SameBag R as bs) {S : B → A → Prop} (hS : ∀ a b, R a b → S b a) : SameBag S bs as := by
  obtain ⟨bs', hperm, hall⟩ := h
  have hcomp : Relation.Comp (List.Forall₂ R) List.Perm as bs := ⟨bs', hall, hperm⟩
  rw [List.forall₂_comp_perm_eq_perm_comp_forall₂] at hcomp
  obtain ⟨as', hperm', hall'⟩ := hcomp
  exact ⟨as', hperm'.symm, hall'.flip.imp fun b a hab => hS a b hab⟩

theorem SameBag.trans (h : SameBag R as bs) {S : B → C → Prop} {T : A → C → Prop} {cs : List C}
    (h' : SameBag S bs cs) (hT : ∀ a ∈ as, ∀ b c, R a b → S b c → T a c) : SameBag T as cs := by
  obtain ⟨bs', hperm, hall⟩ := h
  obtain ⟨cs', hperm', hall'⟩ := h'
  have hcomp : Relation.Comp List.Perm (List.Forall₂ S) bs' cs' := ⟨bs, hperm, hall'⟩
  rw [← List.forall₂_comp_perm_eq_perm_comp_forall₂] at hcomp
  obtain ⟨cs'', hall'', hperm''⟩ := hcomp
  refine ⟨cs'', hperm''.trans hperm', ?_⟩
  clear hperm hperm' hperm'' hall'
  induction hall generalizing cs'' with
  | nil =>
    cases hall''
    exact .nil
  | @cons a b as bs hab _ ih =>
    cases hall'' with
    | cons hbc hrest =>
      refine .cons (hT a List.mem_cons_self b _ hab hbc) ?_
      exact ih (fun a' ha' => hT a' (List.mem_cons_of_mem _ ha')) _ hrest

theorem SameBag.along {A' B' : Type} {P : A → A' → Prop} {Q : B → B' → Prop} {S : A' → B' → Prop} {ps : List A'}
    {qs : List B'} (h : SameBag R as bs) (hP : List.Forall₂ P as ps) (hQ : List.Forall₂ Q bs qs)
    (hS : ∀ a ∈ as, ∀ b ∈ bs, ∀ p q, P a p → R a b → Q b q → S p q) : SameBag S ps qs := by
  obtain ⟨bs', hperm, hall⟩ := h
  obtain ⟨qs', hQ', hperm'⟩ := List.perm_comp_forall₂ hperm hQ
  refine ⟨qs', hperm', ?_⟩
  have hright : List.Forall₂ (fun a q => ∃ b ∈ bs, R a b ∧ Q b q) as qs' := by
    refine forall₂_trans hall (forall₂_imp_of_mem₂ hQ' fun b q hb _ hq => And.intro (hperm.mem_iff.1 hb) hq) ?_
    exact fun a b q hab hq => ⟨b, hq.1, hab, hq.2⟩
  refine forall₂_trans (forall₂_imp_of_mem₂ hP fun a p ha _ hp => And.intro ha hp).flip hright ?_
  rintro p a q ⟨ha, hp⟩ ⟨b, hb, hab, hq⟩
  exact hS a ha b hb p q hp hab hq

end SameBag

/-- The entries of two rows that match. -/
def SameEntry (R : A → B → Prop) (f : String × A) (g : String × B) : Prop := f.1 = g.1 ∧ R f.2 g.2

/-- One row is the other in another order, entry by entry. -/
def SameRow (R : A → B → Prop) (fs : List (String × A)) (gs : List (String × B)) : Prop := SameBag (SameEntry R) fs gs

section Rows

variable {C : Type} {R : A → B → Prop} {fs : List (String × A)} {gs : List (String × B)}

theorem SameRow.length_eq (h : SameRow R fs gs) : fs.length = gs.length := SameBag.length_eq h

theorem SameRow.covers (h : SameRow R fs gs) : Covers (SameEntry R) fs gs := SameBag.covers h

/-- The names of the one row are those of the other. -/
theorem SameRow.names_nodup (h : SameRow R fs gs) (hnodup : (fs.map Prod.fst).Nodup) : (gs.map Prod.fst).Nodup := by
  obtain ⟨gs', hperm, hall⟩ := h
  have hnames : fs.map Prod.fst = gs'.map Prod.fst := by
    clear hperm hnodup
    induction hall with
    | nil => rfl
    | cons hfg _ ih => rw [List.map_cons, List.map_cons, hfg.1, ih]
  rw [hnames] at hnodup
  exact (hperm.map Prod.fst).nodup_iff.1 hnodup

/-- As many entries on the right as on the left: with distinct names, looking from the left is enough. -/
theorem sameRow_of_covers (h : Covers (SameEntry R) fs gs) (hlen : fs.length = gs.length)
    (hnames : (fs.map Prod.fst).Nodup) : SameRow R fs gs := by
  refine sameBag_of_covers h hlen ((List.pairwise_map.1 hnames).imp fun hne hshare => ?_)
  obtain ⟨g, hxg, hyg⟩ := hshare
  exact hne (hxg.1.trans hyg.1.symm)

theorem SameRow.mono {R' : A → B → Prop} (h : SameRow R fs gs)
    (himp : ∀ f ∈ fs, ∀ g ∈ gs, f.1 = g.1 → R f.2 g.2 → R' f.2 g.2) : SameRow R' fs gs :=
  SameBag.mono h fun f hf g hg hfg => ⟨hfg.1, himp f hf g hg hfg.1 hfg.2⟩

theorem SameRow.refl {R : A → A → Prop} {fs : List (String × A)} (h : ∀ f ∈ fs, R f.2 f.2) : SameRow R fs fs :=
  SameBag.refl fun f hf => ⟨rfl, h f hf⟩

theorem SameRow.symm (h : SameRow R fs gs) {S : B → A → Prop} (hS : ∀ a b, R a b → S b a) : SameRow S gs fs :=
  SameBag.symm h fun f g hfg => ⟨hfg.1.symm, hS f.2 g.2 hfg.2⟩

theorem SameRow.trans (h : SameRow R fs gs) {S : B → C → Prop} {T : A → C → Prop} {hs : List (String × C)}
    (h' : SameRow S gs hs) (hT : ∀ f ∈ fs, ∀ b c, R f.2 b → S b c → T f.2 c) : SameRow T fs hs :=
  SameBag.trans h h' fun f hf g i hfg hgi => ⟨hfg.1.trans hgi.1, hT f hf g.2 i.2 hfg.2 hgi.2⟩

end Rows

/-! ### Sorting by a key -/

section Sorting

variable {K : Type} [LinearOrder K]

/-- `sort_by` of a key: the order is stable. -/
def sortBy (key : A → K) (as : List A) : List A := as.mergeSort fun a a' => decide (key a ≤ key a')

theorem sortBy_perm (key : A → K) (as : List A) : (sortBy key as).Perm as := List.mergeSort_perm as _

theorem sortBy_sorted (key : A → K) (as : List A) : ((sortBy key as).map key).Pairwise (· ≤ ·) := by
  rw [List.pairwise_map]
  refine (List.pairwise_mergeSort ?_ ?_ as).imp fun h => of_decide_eq_true h
  · intro a b c hab hbc
    exact decide_eq_true (le_trans (of_decide_eq_true hab) (of_decide_eq_true hbc))
  · intro a b
    rw [Bool.or_eq_true, decide_eq_true_iff, decide_eq_true_iff]
    exact le_total _ _

/-- **Lists that match are sorted alike**, where members of one key match the same. -/
theorem forall₂_sortBy {R : A → B → Prop} {key : A → K} {key' : B → K} {as : List A} {bs : List B}
    (h : SameBag R as bs) (hkey : ∀ a b, R a b → key a = key' b)
    (htie : ∀ a ∈ as, ∀ b ∈ bs, ∀ b' ∈ bs, key' b = key' b' → R a b → R a b') :
    List.Forall₂ R (sortBy key as) (sortBy key' bs) := by
  obtain ⟨bs₁, hperm₁, hall₁⟩ := h
  obtain ⟨bs₂, hall₂, hperm₂⟩ := List.perm_comp_forall₂ (sortBy_perm key as) hall₁
  have hperm : bs₂.Perm (sortBy key' bs) := (hperm₂.trans hperm₁).trans (sortBy_perm key' bs).symm
  -- Both orders of the right list have sorted keys, so they have the same keys.
  have hkeys₂ : (sortBy key as).map key = bs₂.map key' := by
    rw [← List.forall₂_eq_eq_eq, List.forall₂_map_left_iff, List.forall₂_map_right_iff]
    exact hall₂.imp fun a b hab => hkey a b hab
  have hsame : bs₂.map key' = (sortBy key' bs).map key' := by
    refine List.Perm.eq_of_pairwise (fun _ _ _ _ => le_antisymm) ?_ (sortBy_sorted key' bs) (hperm.map key')
    rw [← hkeys₂]
    exact sortBy_sorted key as
  have hmem₂ : ∀ b ∈ bs₂, b ∈ bs := fun b hb => (hperm₂.trans hperm₁).mem_iff.1 hb
  have hmem : ∀ b ∈ sortBy key' bs, b ∈ bs := fun b hb => (sortBy_perm key' bs).mem_iff.1 hb
  have hmema : ∀ a ∈ sortBy key as, a ∈ as := fun a ha => (sortBy_perm key as).mem_iff.1 ha
  generalize sortBy key' bs = cs at hsame hmem
  generalize sortBy key as = as' at hall₂ hmema
  clear hkeys₂ hperm hperm₂
  induction hall₂ generalizing cs with
  | nil =>
    obtain rfl := List.map_eq_nil_iff.1 hsame.symm
    exact .nil
  | @cons a b as' bs₂ hab _ ih =>
    cases cs with
    | nil => exact nomatch hsame
    | cons c cs =>
      obtain ⟨hhead, htail⟩ := List.cons.inj hsame
      refine .cons ?_ (ih (fun b hb => hmem₂ b (List.mem_cons_of_mem _ hb)) cs htail
        (fun c hc => hmem c (List.mem_cons_of_mem _ hc)) fun a ha => hmema a (List.mem_cons_of_mem _ ha))
      exact htie a (hmema a List.mem_cons_self) b (hmem₂ b List.mem_cons_self) c (hmem c List.mem_cons_self) hhead hab

end Sorting

section SameMembers

variable {C : Type} {R : A → B → Prop} {as : List A} {bs : List B}

theorem SameMembers.mono {R' : A → B → Prop} (h : SameMembers R as bs)
    (himp : ∀ a ∈ as, ∀ b ∈ bs, R a b → R' a b) : SameMembers R' as bs := by
  constructor
  · intro a ha
    obtain ⟨b, hb, hab⟩ := h.1 a ha
    exact ⟨b, hb, himp a ha b hb hab⟩
  · intro b hb
    obtain ⟨a, ha, hab⟩ := h.2 b hb
    exact ⟨a, ha, himp a ha b hb hab⟩

theorem SameMembers.refl {R : A → A → Prop} {as : List A} (h : ∀ a ∈ as, R a a) : SameMembers R as as :=
  ⟨fun a ha => ⟨a, ha, h a ha⟩, fun a ha => ⟨a, ha, h a ha⟩⟩

theorem SameMembers.symm (h : SameMembers R as bs) {S : B → A → Prop} (hS : ∀ a b, R a b → S b a) :
    SameMembers S bs as := by
  constructor
  · intro b hb
    obtain ⟨a, ha, hab⟩ := h.2 b hb
    exact ⟨a, ha, hS a b hab⟩
  · intro a ha
    obtain ⟨b, hb, hab⟩ := h.1 a ha
    exact ⟨b, hb, hS a b hab⟩

theorem SameMembers.trans (h : SameMembers R as bs) {S : B → C → Prop} {T : A → C → Prop} {cs : List C}
    (h' : SameMembers S bs cs) (hT : ∀ a ∈ as, ∀ b c, R a b → S b c → T a c) : SameMembers T as cs := by
  constructor
  · intro a ha
    obtain ⟨b, hb, hab⟩ := h.1 a ha
    obtain ⟨c, hc, hbc⟩ := h'.1 b hb
    exact ⟨c, hc, hT a ha b c hab hbc⟩
  · intro c hc
    obtain ⟨b, hb, hbc⟩ := h'.2 c hc
    obtain ⟨a, ha, hab⟩ := h.2 b hb
    exact ⟨a, ha, hT a ha b c hab hbc⟩

end SameMembers

end Blot.Support
