import Blot.Typecheck.Joins
import Blot.Typecheck.Keys

/-!
# When a join is an upper bound (`join_types`)

`Keeps` says of one list that the branches which `join_types` takes for it lose no member: rows stand among rows only,
variants are closed, a variant without cases stands beside one that has some, and members of one key are alike.
`JoinCall` are the lists that `join_types` is called with on the way, for the payloads under one name.
-/

namespace Blot.Typecheck

open Blot.Support

namespace Ty

/-- `bottom` or a closed row. -/
def Row (t : Ty) : Prop := t = .bottom ∨ ∃ labels, t = .effects labels

end Ty

/-- The lists with which a list of payloads is joined two at a time. -/
def callsInTurn (σ : Ty.Sharing) : Ty → List Ty → List (List Ty)
  | _, [] => []
  | previous, t :: rest => [previous, t] :: callsInTurn σ (joinTypes σ [previous, t]) rest

def mergeCalls (σ : Ty.Sharing) : List Ty → List (List Ty)
  | [] => []
  | t :: rest => callsInTurn σ t rest

/-- The join of the first list calls for the join of the second; with `top` among its members the join is `top`,
whatever the calls below it. -/
inductive JoinCall (σ : Ty.Sharing) : List Ty → List Ty → Prop where
  | here {types : List Ty} : JoinCall σ types types
  | payload {types next called : List Ty} {name : String} (htypes : .top ∉ Ty.flatAll types)
    (hpayloads : .top ∉ Ty.flatAll (payloads name (casesOf types)))
    (hnext : next ∈ mergeCalls σ (payloads name (casesOf types))) (h : JoinCall σ next called) : JoinCall σ types called

/-- What `join_types` gives to `union_types`. -/
def united (σ : Ty.Sharing) (types : List Ty) : List Ty :=
  types.filter Ty.isOther ++ types.filter Ty.isRange ++
    if casesOf types = [] then [] else [.variant (mergeFields (joinTypes σ) (casesOf types)) false]

/-- Different members of one key are equal up to the names of binders and order. -/
def KeysTell (types : List Ty) : Prop :=
  ∀ m ∈ Ty.flatAll types, ∀ m' ∈ Ty.flatAll types, m.closedTypeKey = m'.closedTypeKey → m = m' ∨ Alike [] m m'

inductive Keeps (σ : Ty.Sharing) : List Ty → Prop where
  | top {types : List Ty} (h : .top ∈ Ty.flatAll types) : Keeps σ types
  | rows {types : List Ty} (h : ∀ t ∈ types, t.Row) (hlabels : rowLabels types ≠ ∅ ∨ ∀ t ∈ types, t = .bottom) :
    Keeps σ types
  | others {types : List Ty} (hrow : ∀ labels, .effects labels ∉ types)
    (hopen : ∀ entries, .variant entries true ∉ types) (hcases : .variant [] false ∈ types → casesOf types ≠ [])
    (hkeys : KeysTell (united σ types)) : Keeps σ types

/-! ### Hereditary properties -/

namespace Ty

theorem isSome_memberKeys {B : Table ℕ ℕ} {members : List Ty} :
    (memberKeys B members).isSome ↔ ∀ m ∈ members, (keyUnder B m).isSome := by
  induction members with
  | nil => simp [memberKeys]
  | cons m members ih =>
    rw [List.forall_mem_cons, ← ih, memberKeys]
    cases keyUnder B m <;> cases memberKeys B members <;> simp

theorem isSome_fieldKeys {B : Table ℕ ℕ} {fields : List (String × Ty)} :
    (fieldKeys B fields).isSome ↔ ∀ p ∈ fields, (keyUnder B p.2).isSome := by
  induction fields with
  | nil => simp [fieldKeys]
  | cons p fields ih =>
    rw [List.forall_mem_cons, ← ih, fieldKeys]
    cases keyUnder B p.2 <;> cases fieldKeys B fields <;> simp

theorem isSome_key_union {members : List Ty} :
    (Ty.union members).closedTypeKey.isSome ↔ ∀ m ∈ members, m.closedTypeKey.isSome := by
  rw [closedTypeKey, keyUnder, Option.isSome_map]
  exact isSome_memberKeys

theorem isSome_key_variant {entries : List (String × Ty)} {isOpen : Bool} :
    (Ty.variant entries isOpen).closedTypeKey.isSome ↔ ∀ p ∈ entries, p.2.closedTypeKey.isSome := by
  rw [closedTypeKey, keyUnder, Option.isSome_map]
  exact isSome_fieldKeys

end Ty

theorem hereditary_keyed : Hereditary fun _ t => t.closedTypeKey.isSome where
  bottom := rfl
  top := rfl
  effects _ := rfl
  union := Ty.isSome_key_union
  payload := Ty.isSome_key_variant.1
  variant _ _ := Ty.isSome_key_variant.2

theorem hereditary_clean : Hereditary fun _ t => t.Clean [] where
  bottom := .other (by simp) (by simp [Ty.children])
  top := .other (by simp) (by simp [Ty.children])
  effects _ := .other (by simp) (by simp [Ty.children])
  union := ⟨fun h _ hm => h.child (by simp) hm, fun h => .other (by simp) h⟩
  payload h p hp := h.child (by simp) (List.mem_map_of_mem hp)
  variant _ _ h := .other (by simp) fun c hc => by
    obtain ⟨p, hp, rfl⟩ := List.mem_map.1 hc
    exact h p hp

theorem united_keeps {P : ℕ → Ty → Prop} (h : Hereditary P) {n : ℕ} {σ : Ty.Sharing} {types : List Ty}
    (htypes : ∀ t ∈ types, P n t) : ∀ t ∈ united σ types, P n t := by
  intro t ht
  unfold united at ht
  rcases List.mem_append.1 ht with ht | ht
  · rcases List.mem_append.1 ht with ht | ht
    · exact htypes t (List.mem_filter.1 ht).1
    · exact htypes t (List.mem_filter.1 ht).1
  · split at ht
    · cases ht
    · rename_i hne
      obtain rfl := List.mem_singleton.1 ht
      obtain ⟨p, hp⟩ := List.exists_mem_of_ne_nil _ hne
      obtain ⟨a, ha, hp⟩ := List.mem_flatMap.1 hp
      cases a
      case variant entries isOpen =>
        refine h.variant (htypes _ ha) (mergeFields_ne_nil hne) (mergeFields_keeps (fun a b ha hb => ?_)
          (h.entries htypes))
        exact h.joinTypes (forall_pair ha hb)
      all_goals cases hp

/-- Where no binder rebinds one in scope the keys tell all members apart. -/
theorem keysTell_united {σ : Ty.Sharing} {types : List Ty} (hkey : ∀ t ∈ types, t.closedTypeKey.isSome)
    (hclean : ∀ t ∈ types, t.Clean []) : KeysTell (united σ types) := by
  have hflat : ∀ m ∈ Ty.flatAll (united σ types), m.closedTypeKey.isSome ∧ m.Clean [] := by
    intro m hm
    obtain ⟨t, ht, hm⟩ := Ty.mem_flatAll.1 hm
    exact ⟨hereditary_keyed.flat (n := 0) (united_keeps hereditary_keyed (n := 0) hkey t ht) m hm,
      hereditary_clean.flat (n := 0) (united_keeps hereditary_clean (n := 0) hclean t ht) m hm⟩
  intro m hm m' hm' heq
  obtain ⟨key, hk⟩ := Option.isSome_iff_exists.1 (hflat m hm).1
  exact .inr (Ty.alike_of_key (hflat m hm).2 (hflat m' hm').2 hk (heq ▸ hk))

section Bounds

variable {s : Checker} {σ : Ty.Sharing} {types : List Ty}

/-! ### A union is an upper bound -/

theorem derives_of_flat {t b : Ty} (h : ∀ m ∈ t.flat, s.Derives m b) : s.Derives t b := by
  induction t using Ty.ind with
  | h t ih =>
  cases t
  case bottom => exact .bottom
  case union members =>
    refine .unionLeft fun a ha => ih a ha fun m hm => ?_
    exact h m (Ty.mem_flatAll.2 ⟨a, ha, hm⟩)
  all_goals exact h _ (List.mem_singleton.2 rfl)

/-- Each key was recorded for a member. -/
def UnionMembers.Keyed (u : UnionMembers) : Prop := ∀ key ∈ u.closed, ∃ m ∈ u.members, m.closedTypeKey = some key

theorem UnionMembers.addMember_covers {u u' : UnionMembers} {t : Ty} (hu : u.Keyed) (ht : t.closedTypeKey.isSome)
    (htell : ∀ m ∈ u.members, t.closedTypeKey = m.closedTypeKey → t = m ∨ Alike [] t m)
    (h : u.addMember σ t = some u') : u'.Keyed ∧ u.members ⊆ u'.members ∧ ∃ m ∈ u'.members, s.Derives t m := by
  obtain ⟨key, hkey⟩ := Option.isSome_iff_exists.1 ht
  unfold addMember at h
  rw [hkey] at h
  split at h
  · cases h
  · dsimp only at h
    split at h
    · obtain rfl := Option.some.inj h
      rename_i hmem
      obtain ⟨m, hm, hkey'⟩ := hu key hmem
      refine ⟨hu, List.Subset.refl _, m, hm, ?_⟩
      rcases htell m hm (hkey.trans hkey'.symm) with rfl | halike
      · exact .refl
      · exact .alike halike
    · obtain rfl := Option.some.inj h
      refine ⟨fun key' hmem => ?_, List.subset_append_left _ _, t, by simp, .refl⟩
      rcases List.mem_cons.1 hmem with rfl | hmem
      · exact ⟨t, by simp, hkey⟩
      · obtain ⟨m, hm, hrest⟩ := hu key' hmem
        exact ⟨m, List.mem_append_left _ hm, hrest⟩

theorem UnionMembers.foldlM_covers {u u' : UnionMembers} (hu : u.Keyed) (hkey : ∀ t ∈ types, t.closedTypeKey.isSome)
    (htell : ∀ t ∈ types, ∀ m ∈ u.members ++ types, t.closedTypeKey = m.closedTypeKey → t = m ∨ Alike [] t m)
    (h : types.foldlM (UnionMembers.addMember σ) u = some u') :
    u.members ⊆ u'.members ∧ ∀ t ∈ types, ∃ m ∈ u'.members, s.Derives t m := by
  induction types generalizing u with
  | nil =>
    obtain rfl := Option.some.inj h
    exact ⟨List.Subset.refl _, fun t ht => absurd ht List.not_mem_nil⟩
  | cons t types ih =>
    rw [List.foldlM_cons, Option.bind_eq_bind, Option.bind_eq_some_iff] at h
    obtain ⟨v, hv, h⟩ := h
    obtain ⟨hkeyed, hsub, m, hm, ht⟩ := addMember_covers (s := s) hu (hkey t List.mem_cons_self)
      (fun m hm => htell t List.mem_cons_self m (List.mem_append_left _ hm)) hv
    have hmembers : ∀ m ∈ v.members ++ types, m ∈ u.members ++ t :: types := by
      intro m hm
      rcases List.mem_append.1 hm with hm | hm
      · rcases members_of_addMember hv with heq | heq
        · exact List.mem_append_left _ (heq ▸ hm)
        · rw [heq] at hm
          rcases List.mem_append.1 hm with hm | hm
          · exact List.mem_append_left _ hm
          · exact List.mem_append_right _ (List.mem_cons.2 (.inl (List.mem_singleton.1 hm)))
      · exact List.mem_append_right _ (List.mem_cons_of_mem _ hm)
    obtain ⟨hsub', hrest⟩ := ih hkeyed (fun a ha => hkey a (List.mem_cons_of_mem _ ha))
      (fun a ha m hm => htell a (List.mem_cons_of_mem _ ha) m (hmembers m hm)) h
    refine ⟨fun m hm => hsub' (hsub hm), fun a ha => ?_⟩
    rcases List.mem_cons.1 ha with rfl | ha
    · exact ⟨m, hsub' hm, ht⟩
    · exact hrest a ha

/-- **A union is an upper bound** where keys tell its members apart. -/
theorem derives_unionTypes (hkey : ∀ t ∈ types, t.closedTypeKey.isSome) (htell : KeysTell types) :
    ∀ t ∈ types, s.Derives t (unionTypes σ types) := by
  intro t ht
  unfold unionTypes
  rw [UnionMembers.appendAll_eq]
  cases hfold : (Ty.flatAll types).foldlM (UnionMembers.addMember σ) ⟨[], []⟩ with
  | none => exact .top
  | some u =>
    have hflat : ∀ m ∈ Ty.flatAll types, m.closedTypeKey.isSome := by
      intro m hm
      obtain ⟨a, ha, hm⟩ := Ty.mem_flatAll.1 hm
      exact hereditary_keyed.flat (n := 0) (hkey a ha) m hm
    obtain ⟨-, hcovers⟩ :=
      UnionMembers.foldlM_covers (s := s) (u := ⟨[], []⟩) (fun key hkey => absurd hkey List.not_mem_nil) hflat htell hfold
    refine derives_of_flat fun m hm => ?_
    obtain ⟨a, ha, hma⟩ := hcovers m (Ty.mem_flatAll.2 ⟨t, ht, hm⟩)
    obtain ⟨members, closed⟩ := u
    match members with
    | [] => cases ha
    | [b] =>
      obtain rfl := List.mem_singleton.1 ha
      exact hma
    | _ :: _ :: _ => exact .unionRight ha hma

theorem foldlM_addMember_top {u : UnionMembers} (h : .top ∈ types) :
    types.foldlM (UnionMembers.addMember σ) u = none := by
  induction types generalizing u with
  | nil => cases h
  | cons t types ih =>
    rw [List.foldlM_cons]
    rcases List.mem_cons.1 h with rfl | h
    · rfl
    · cases u.addMember σ t with
      | none => rfl
      | some v => exact ih h

theorem unionTypes_eq_top (h : .top ∈ Ty.flatAll types) : unionTypes σ types = .top := by
  unfold unionTypes
  rw [UnionMembers.appendAll_eq, foldlM_addMember_top h]

/-! ### Merged cases are upper bounds -/

theorem derives_merged {join : List Ty → Ty} {entries fields : List (String × Ty)} (hsub : entries ⊆ fields)
    (hmerged : ∀ name t, joinInTurn join (payloads name fields) = some t →
      ∀ a ∈ payloads name fields, s.Derives a t) :
    s.Derives (.variant entries false) (.variant (mergeFields join fields) false) := by
  choose! target htarget using fun (p : String × Ty) (hp : p ∈ fields) => exists_mem_mergeFields join hp
  refine .variant target (fun _ => ⟨rfl, fun p hp => ?_⟩) (fun p hp _ => (htarget p (hsub hp)).1) fun p hp _ => ?_
  · exact List.mem_map.2 ⟨_, (htarget p (hsub hp)).1, rfl⟩
  · exact hmerged p.1 (target p) (htarget p (hsub hp)).2 p.2 (mem_payloads.2 (hsub hp))

/-- What no call loses the joins in turn do not lose. -/
theorem derives_joinInTurn {t : Ty} (h : joinInTurn (joinTypes σ) types = some t)
    (hcalls : ∀ next ∈ mergeCalls σ types, ∀ a ∈ next, s.Derives a (joinTypes σ next)) :
    ∀ a ∈ types, s.Derives a t := by
  cases types with
  | nil => cases h
  | cons a types =>
    obtain rfl := Option.some.inj h
    have hfold : ∀ (types : List Ty) (a : Ty),
        (∀ next ∈ callsInTurn σ a types, ∀ b ∈ next, s.Derives b (joinTypes σ next)) →
        ∀ b ∈ a :: types, s.Derives b (types.foldl (fun previous t => joinTypes σ [previous, t]) a) := by
      intro types
      induction types with
      | nil =>
        intro a _ b hb
        obtain rfl := List.mem_singleton.1 hb
        exact .refl
      | cons c types ih =>
        intro a hcalls b hb
        have hpair := hcalls [a, c] List.mem_cons_self
        have hrest := ih (joinTypes σ [a, c]) fun next hnext => hcalls next (List.mem_cons_of_mem _ hnext)
        have hfirst := hrest (joinTypes σ [a, c]) List.mem_cons_self
        rcases List.mem_cons.1 hb with rfl | hb
        · exact .trans (hpair b List.mem_cons_self) hfirst
        rcases List.mem_cons.1 hb with rfl | hb
        · exact .trans (hpair b (List.mem_cons_of_mem _ List.mem_cons_self)) hfirst
        · exact hrest b (List.mem_cons_of_mem _ hb)
    exact hfold types a hcalls

theorem mergeCalls_keeps {P : ℕ → Ty → Prop} (h : Hereditary P) {n : ℕ} (htypes : ∀ t ∈ types, P n t) :
    ∀ next ∈ mergeCalls σ types, ∀ t ∈ next, P n t := by
  cases types with
  | nil => exact fun next hnext => absurd hnext List.not_mem_nil
  | cons a types =>
    have hfold : ∀ (types : List Ty) (a : Ty), P n a → (∀ t ∈ types, P n t) →
        ∀ next ∈ callsInTurn σ a types, ∀ t ∈ next, P n t := by
      intro types
      induction types with
      | nil => exact fun a _ _ next hnext => absurd hnext List.not_mem_nil
      | cons c types ih =>
        intro a ha hall next hnext
        have hpair := forall_pair ha (hall c List.mem_cons_self)
        rcases List.mem_cons.1 hnext with rfl | hnext
        · exact hpair
        · exact ih _ (h.joinTypes hpair) (fun t ht => hall t (List.mem_cons_of_mem _ ht)) next hnext
    exact hfold types a (htypes a List.mem_cons_self) fun t ht => htypes t (List.mem_cons_of_mem _ ht)

/-! ### The join of rows and the join with `top` -/

theorem entries_eq_nil_of_row {t : Ty} (h : t.Row) : t.entries = [] ∧ t.isRange = false ∧ t.isOther = false := by
  rcases h with rfl | ⟨labels, rfl⟩ <;> exact ⟨rfl, rfl, rfl⟩

/-- Rows join to the row of their labels, or to `bottom` when there are none. -/
theorem joinTypes_rows (h : ∀ t ∈ types, t.Row) :
    joinTypes σ types = if rowLabels types ≠ ∅ then .effects (rowLabels types) else .bottom := by
  have hcases : casesOf types = [] := List.flatMap_eq_nil_iff.2 fun t ht => (entries_eq_nil_of_row (h t ht)).1
  have hranges : types.filter Ty.isRange = [] :=
    List.filter_eq_nil_iff.2 fun t ht => by simp [(entries_eq_nil_of_row (h t ht)).2.1]
  have hother : types.filter Ty.isOther = [] :=
    List.filter_eq_nil_iff.2 fun t ht => by simp [(entries_eq_nil_of_row (h t ht)).2.2]
  rw [joinTypes_eq]
  unfold joinOnce
  simp only [joinParts_eq, hcases, hranges, hother]
  by_cases hlabels : rowLabels types ≠ ∅
  · rw [if_pos ⟨hlabels, by simp⟩, if_pos hlabels]
  · rw [if_neg fun h => hlabels h.1, if_neg hlabels]
    rfl

theorem Ty.Row.derives {t : Ty} {m : Finset String} (h : t.Row) (hsub : t.labels ⊆ m) : s.Derives t (.effects m) := by
  rcases h with rfl | ⟨labels, rfl⟩
  · exact .bottom
  · exact .effects hsub

theorem isOther_of_top {t : Ty} (h : .top ∈ t.flat) : t.isOther = true := by
  cases t
  case union | top => rfl
  all_goals simp [Ty.flat] at h

/-- A list with `top` in it joins to `top`. -/
theorem joinTypes_top (h : .top ∈ Ty.flatAll types) : joinTypes σ types = .top := by
  obtain ⟨t, ht, htop⟩ := Ty.mem_flatAll.1 h
  have hmem : t ∈ types.filter Ty.isOther := List.mem_filter.2 ⟨ht, isOther_of_top htop⟩
  have hother : types.filter Ty.isOther ≠ [] := List.ne_nil_of_mem hmem
  rw [joinTypes_eq]
  unfold joinOnce
  simp only [joinParts_eq]
  rw [if_neg fun h => hother h.2.2.2, if_neg fun h => hother h.2.2]
  split
  · exact unionTypes_eq_top (Ty.mem_flatAll.2 ⟨t, by simp only [List.mem_append, hmem, true_or], htop⟩)
  · exact unionTypes_eq_top (Ty.mem_flatAll.2 ⟨t, List.mem_append_left _ hmem, htop⟩)

/-- A list of several types with `top` in it joins in turn to `top`. -/
theorem foldl_joinTypes_top {a b : Ty} (h : .top ∈ Ty.flatAll (a :: b :: types)) :
    (b :: types).foldl (fun previous t => joinTypes σ [previous, t]) a = .top := by
  induction types generalizing a b with
  | nil => exact joinTypes_top h
  | cons c types ih =>
    rw [List.foldl_cons]
    refine ih ?_
    rw [Ty.mem_flatAll] at h ⊢
    obtain ⟨t, ht, htop⟩ := h
    by_cases hfirst : .top ∈ Ty.flatAll [a, b]
    · exact ⟨joinTypes σ [a, b], List.mem_cons_self, by rw [joinTypes_top hfirst]; exact List.mem_cons_self⟩
    · refine ⟨t, ?_, htop⟩
      rcases List.mem_cons.1 ht with rfl | ht
      · exact absurd (Ty.mem_flatAll.2 ⟨t, List.mem_cons_self, htop⟩) hfirst
      rcases List.mem_cons.1 ht with rfl | ht
      · exact absurd (Ty.mem_flatAll.2 ⟨t, List.mem_cons_of_mem _ List.mem_cons_self, htop⟩) hfirst
      · exact List.mem_cons_of_mem _ ht

/-! ### The upper bound -/

theorem part_of_mem {t : Ty} (ht : t ∈ types) :
    t = .bottom ∨ t ∈ types.filter Ty.isOther ++ types.filter Ty.isRange ∨ (∃ labels, t = .effects labels) ∨
      ∃ entries isOpen, t = .variant entries isOpen := by
  by_cases hother : t.isOther = true
  · exact .inr (.inl (List.mem_append_left _ (List.mem_filter.2 ⟨ht, hother⟩)))
  by_cases hrange : t.isRange = true
  · exact .inr (.inl (List.mem_append_right _ (List.mem_filter.2 ⟨ht, hrange⟩)))
  cases t
  case bottom => exact .inl rfl
  case effects labels => exact .inr (.inr (.inl ⟨labels, rfl⟩))
  case variant entries isOpen => exact .inr (.inr (.inr ⟨entries, isOpen, rfl⟩))
  case range => exact absurd rfl hrange
  all_goals exact absurd rfl hother

theorem derives_others (hkey : ∀ t ∈ types, t.closedTypeKey.isSome) (hrow : ∀ labels, .effects labels ∉ types)
    (hopen : ∀ entries, .variant entries true ∉ types) (hcases : .variant [] false ∈ types → casesOf types ≠ [])
    (htell : KeysTell (united σ types))
    (hpayloads : ∀ name t, joinInTurn (joinTypes σ) (payloads name (casesOf types)) = some t →
      ∀ a ∈ payloads name (casesOf types), s.Derives a t) :
    ∀ t ∈ types, s.Derives t (joinTypes σ types) := by
  have hlabels : rowLabels types = ∅ := by
    refine Finset.eq_empty_of_forall_notMem fun l hl => ?_
    obtain ⟨t, ht, hl⟩ := mem_rowLabels.1 hl
    cases t
    case effects labels => exact hrow labels ht
    all_goals exact absurd hl (Finset.notMem_empty l)
  -- where each member goes, rows and open variants apart
  have hparts : ∀ t ∈ types, t = .bottom ∨ t ∈ types.filter Ty.isOther ++ types.filter Ty.isRange ∨
      casesOf types ≠ [] ∧ s.Derives t (.variant (mergeFields (joinTypes σ) (casesOf types)) false) := by
    intro t ht
    rcases part_of_mem ht with hbottom | hpart | ⟨labels, rfl⟩ | ⟨entries, isOpen, rfl⟩
    · exact .inl hbottom
    · exact .inr (.inl hpart)
    · exact absurd ht (hrow labels)
    · have hsub : entries ⊆ casesOf types := fun p hp => List.mem_flatMap.2 ⟨_, ht, hp⟩
      obtain rfl : isOpen = false := by
        cases isOpen
        · rfl
        · exact absurd ht (hopen entries)
      refine .inr (.inr ⟨?_, derives_merged hsub hpayloads⟩)
      cases entries with
      | nil => exact hcases ht
      | cons p rest => exact List.ne_nil_of_mem (hsub List.mem_cons_self)
  have hunion : ∀ t ∈ united σ types, s.Derives t (unionTypes σ (united σ types)) :=
    derives_unionTypes (united_keeps hereditary_keyed (n := 0) hkey) htell
  intro t ht
  rw [joinTypes_eq]
  unfold joinOnce
  simp only [joinParts_eq, hlabels]
  rw [if_neg fun h => h.1 rfl]
  split
  · rename_i honly
    rcases hparts t ht with rfl | hpart | ⟨-, hvariant⟩
    · exact .bottom
    · rw [honly.2.1, honly.2.2] at hpart
      cases hpart
    · exact hvariant
  · unfold united at hunion
    split
    · rename_i hne
      rw [if_neg hne] at hunion
      rcases hparts t ht with rfl | hpart | ⟨-, hvariant⟩
      · exact .bottom
      · exact hunion t (List.mem_append_left _ hpart)
      · exact .trans hvariant (hunion _ (List.mem_append_right _ List.mem_cons_self))
    · rename_i hnone
      rw [if_pos (not_not.1 hnone), List.append_nil] at hunion
      rcases hparts t ht with rfl | hpart | ⟨hne, -⟩
      · exact .bottom
      · exact hunion t hpart
      · exact absurd hne hnone

theorem derives_rows (h : ∀ t ∈ types, t.Row) (hlabels : rowLabels types ≠ ∅ ∨ ∀ t ∈ types, t = .bottom) :
    ∀ t ∈ types, s.Derives t (joinTypes σ types) := by
  intro t ht
  rcases hlabels with hlabels | hbottom
  · rw [joinTypes_rows h, if_pos hlabels]
    exact (h t ht).derives fun l hl => mem_rowLabels.2 ⟨t, ht, hl⟩
  · rw [hbottom t ht]
    exact .bottom

/-- Payloads joined in turn are below the outcome where the calls on the way keep theirs. -/
theorem derives_payloads {t : Ty} (ht : joinInTurn (joinTypes σ) types = some t)
    (hcalls : .top ∉ Ty.flatAll types → ∀ next ∈ mergeCalls σ types, ∀ a ∈ next, s.Derives a (joinTypes σ next)) :
    ∀ a ∈ types, s.Derives a t := by
  by_cases htop : .top ∈ Ty.flatAll types
  · match types with
    | [] => cases ht
    | [b] =>
      obtain rfl := Option.some.inj ht
      intro a ha
      obtain rfl := List.mem_singleton.1 ha
      exact .refl
    | a :: b :: rest =>
      obtain rfl := Option.some.inj ht
      rw [foldl_joinTypes_top htop]
      exact fun _ _ => .top
  · exact derives_joinInTurn ht (hcalls htop)

theorem Keeps.derives (h : Keeps σ types) (hkey : ∀ t ∈ types, t.closedTypeKey.isSome)
    (hpayloads : .top ∉ Ty.flatAll types → ∀ name t, joinInTurn (joinTypes σ) (payloads name (casesOf types)) = some t →
      ∀ a ∈ payloads name (casesOf types), s.Derives a t) :
    ∀ t ∈ types, s.Derives t (joinTypes σ types) := by
  by_cases htop : .top ∈ Ty.flatAll types
  · exact fun t _ => joinTypes_top htop ▸ .top
  cases h with
  | top h => exact absurd h htop
  | rows h hlabels => exact derives_rows h hlabels
  | others hrow hopen hcases htell => exact derives_others hkey hrow hopen hcases htell (hpayloads htop)

theorem derives_joinTypes_depth {n : ℕ} (hdepth : ∀ t ∈ types, t.caseDepth ≤ n)
    (hkey : ∀ t ∈ types, t.closedTypeKey.isSome) (h : ∀ called, JoinCall σ types called → Keeps σ called) :
    ∀ t ∈ types, s.Derives t (joinTypes σ types) := by
  induction n generalizing types with
  | zero =>
    refine (h types .here).derives hkey fun _ name t ht => ?_
    rw [casesOf_eq_nil hdepth] at ht
    cases ht
  | succ n ih =>
    refine (h types .here).derives hkey fun htop name t ht => derives_payloads ht fun htop' next hnext => ?_
    have hpayload : ∀ {P : ℕ → Ty → Prop} {m : ℕ}, Hereditary P → (∀ t ∈ types, P m t) →
        ∀ t ∈ next, P (m - 1) t := by
      intro P m hP htypes
      exact mergeCalls_keeps hP (fun t ht => hP.entries htypes _ (mem_payloads.1 ht)) next hnext
    exact ih (hpayload hereditary_caseDepth hdepth) (hpayload hereditary_keyed (m := 0) hkey)
      fun called hcall => h called (.payload htop htop' hnext hcall)

/-- **A join is an upper bound**: each closed type lies below the join of a list where no call of `join_types` on the
way loses a member. -/
theorem derives_joinTypes (σ : Ty.Sharing) (s : Checker) (types : List Ty) (hkey : ∀ t ∈ types, t.closedTypeKey.isSome)
    (h : ∀ called, JoinCall σ types called → Keeps σ called) : ∀ t ∈ types, s.Derives t (joinTypes σ types) :=
  derives_joinTypes_depth (Ty.membersCaseDepth_le.1 (le_refl (Ty.membersCaseDepth types))) hkey h

theorem JoinCall.eq_of_no_cases {called : List Ty} (hcases : casesOf types = []) (h : JoinCall σ types called) :
    called = types := by
  cases h with
  | here => rfl
  | payload _ _ hnext _ =>
    rw [hcases] at hnext
    exact absurd hnext List.not_mem_nil

/-- Three variants of one case, the second with a row in its payload beside another type. -/
def nestedRow : List Ty :=
  [.variant [("A", .unit)] false, .variant [("A", .union [.effects {"E"}, .unit])] false, .variant [("A", .unit)] false]

theorem derives_joinTypes_nestedRow :
    (∀ called, JoinCall .nowhere nestedRow called → Keeps .nowhere called) ∧
      ∀ t ∈ nestedRow, Checker.empty.Derives t (joinTypes .nowhere nestedRow) := by
  have hkey : ∀ t ∈ nestedRow, t.closedTypeKey.isSome := by decide
  have hunit : Ty.unit.Clean [] := .other (by simp) (by simp [Ty.children])
  have hrow : (Ty.effects {"E"}).Clean [] := .other (by simp) (by simp [Ty.children])
  have hunion : (Ty.union [.effects {"E"}, .unit]).Clean [] := .other (by simp) (forall_pair hrow hunit)
  have hjoined : (Ty.union [.unit, .effects {"E"}]).Clean [] := .other (by simp) (forall_pair hunit hrow)
  have hcase : ∀ {t : Ty}, t.Clean [] → (Ty.variant [("A", t)] false).Clean [] := fun h =>
    .other (by simp) (by simpa [Ty.children] using h)
  have hclean : ∀ t ∈ nestedRow, t.Clean [] := by
    simpa only [nestedRow, List.forall_mem_cons, List.not_mem_nil, false_imp_iff, implies_true, and_true] using
      ⟨hcase hunit, hcase hunion, hcase hunit⟩
  -- Lists without rows and variants keep their members.
  have hkeeps : ∀ {a b : Ty}, a.Clean [] → b.Clean [] → (∀ t ∈ [a, b], t.closedTypeKey.isSome) →
      (∀ labels, .effects labels ∉ [a, b]) → (∀ entries isOpen, .variant entries isOpen ∉ [a, b]) →
      casesOf [a, b] = [] → ∀ called, JoinCall .nowhere [a, b] called → Keeps .nowhere called := by
    intro a b ha hb hkey hrow hvariant hcases called hcall
    obtain rfl := hcall.eq_of_no_cases hcases
    exact .others hrow (fun entries => hvariant entries true) (fun h => absurd h (hvariant [] false))
      (keysTell_united hkey (forall_pair ha hb))
  have hcalls : ∀ called, JoinCall .nowhere nestedRow called → Keeps .nowhere called := by
    intro called hcall
    cases hcall with
    | here => exact .others (by simp [nestedRow]) (by simp [nestedRow]) (by simp [nestedRow]) (keysTell_united hkey hclean)
    | @payload _ next _ name _ _ hnext hcall =>
      by_cases hname : name = "A"
      · subst hname
        have hnext : next ∈ [[.unit, .union [.effects {"E"}, .unit]], [.union [.unit, .effects {"E"}], .unit]] := hnext
        rcases List.mem_cons.1 hnext with rfl | hnext
        · exact hkeeps hunit hunion (by decide) (by simp) (by simp) rfl called hcall
        · obtain rfl := List.mem_singleton.1 hnext
          exact hkeeps hjoined hunit (by decide) (by simp) (by simp) rfl called hcall
      · have hnone : payloads name (casesOf nestedRow) = [] := by
          simp [payloads, casesOf, nestedRow, Ty.entries, Ne.symm hname]
        rw [hnone] at hnext
        exact absurd hnext List.not_mem_nil
  exact ⟨hcalls, derives_joinTypes .nowhere Checker.empty nestedRow hkey hcalls⟩

end Bounds

/-! ### A case that a join loses -/

/-- A type admits cases beyond those it lists. -/
inductive AdmitsMore : Ty → Prop where
  | variant {entries : List (String × Ty)} : AdmitsMore (.variant entries true)
  | union {members : List Ty} {a : Ty} (ha : a ∈ members) (h : AdmitsMore a) : AdmitsMore (.union members)
  | forallType {vs : List ℕ} {body : Ty} (h : AdmitsMore body) : AdmitsMore (.forallType vs body)
  | qualified {rs : List (MemberRequirement Ty)} {body : Ty} (h : AdmitsMore body) : AdmitsMore (.qualified rs body)
  | top : AdmitsMore .top

theorem Alike.admitsMore {pairs : List (ℕ × ℕ)} {a b : Ty} (h : Alike pairs a b) (ha : AdmitsMore a) :
    AdmitsMore b := by
  induction ha generalizing pairs b with
  | forallType hbody ih =>
    cases h with
    | leaf => exact .forallType hbody
    | forallType _ _ _ h => exact .forallType (ih h)
  | qualified hbody ih =>
    cases h with
    | leaf => exact .qualified hbody
    | qualified _ h => exact .qualified (ih h)
  | union hmem hm ih =>
    cases h with
    | leaf => exact .union hmem hm
    | union h =>
      obtain ⟨c, hc, halike⟩ := h.exists_mem hmem
      exact .union hc (ih halike)
  | _ => cases h <;> constructor

/-- Openness is kept by what lies above. -/
theorem Checker.Derives.admitsMore {s : Checker} (hs : ∀ x d, s.bounds x d = []) {a b : Ty} (h : s.Derives a b)
    (ha : AdmitsMore a) : AdmitsMore b := by
  induction h with
  | refl => exact ha
  | trans _ _ ih ih' => exact ih' (ih ha)
  | lower h =>
    rw [hs] at h
    cases h
  | top => exact .top
  | @variant _ _ isOpen isOpen' _ hcases =>
    cases ha
    cases isOpen' with
    | true => exact .variant
    | false => exact absurd (hcases rfl).1 (by simp)
  | unionLeft _ ih =>
    cases ha with
    | union hmem hm => exact ih _ hmem hm
  | unionRight hb _ ih => exact .union hb (ih ha)
  | qualifiedLeft _ ih =>
    cases ha with
    | qualified hbody => exact ih hbody
  | qualifiedRight _ ih => exact .qualified (ih ha)
  | forallBody _ ih =>
    cases ha with
    | forallType hbody => exact .forallType (ih hbody)
  | alike h => exact h.admitsMore ha
  | _ => cases ha

/-- The join of an open and a closed variant is closed. -/
theorem not_derives_joinTypes_open :
    ¬ ∀ (σ : Ty.Sharing) (s : Checker) (types : List Ty), (∀ t ∈ types, t.closedTypeKey.isSome) →
      ∀ t ∈ types, s.Derives t (joinTypes σ types) := by
  intro hupper
  have hjoin : joinTypes .nowhere [.variant [("Some", .unit)] true, .variant [("None", .unit)] false] =
      .variant [("Some", .unit), ("None", .unit)] false := rfl
  have h := hupper .nowhere Checker.empty [.variant [("Some", .unit)] true, .variant [("None", .unit)] false]
    (by decide) _ List.mem_cons_self
  rw [hjoin] at h
  have hbounds : ∀ x d, Checker.empty.bounds x d = [] := by
    intro x d
    cases d <;> rfl
  cases h.admitsMore hbounds .variant

end Blot.Typecheck
