import Blot.Support.Prefix
import Blot.Typecheck.Unions
import Blot.Typecheck.Derivations

/-!
# What the key of a closed type tells (`closed_type_key`)

A union keeps one member of each key.  Where no binder rebinds one in scope, the key is read unambiguously, and types
of one key are equal up to the names of binders and the order of their parts.
-/

namespace Blot.Typecheck

open Blot.Support

namespace Ty

/-- No binder of the type rebinds one in scope. -/
inductive Clean : List ℕ → Ty → Prop where
  | forallType {scope vs : List ℕ} {body : Ty} (hnodup : (scope ++ vs).Nodup) (h : Clean (scope ++ vs) body) :
    Clean scope (.forallType vs body)
  | other {scope : List ℕ} {t : Ty} (hforall : ∀ vs body, t ≠ .forallType vs body)
    (hchildren : ∀ c ∈ t.children, Clean scope c) : Clean scope t

theorem Clean.child {scope : List ℕ} {t c : Ty} (h : Clean scope t) (hforall : ∀ vs body, t ≠ .forallType vs body)
    (hc : c ∈ t.children) : Clean scope c := by
  cases h with
  | forallType => exact absurd rfl (hforall _ _)
  | other _ hchildren => exact hchildren c hc

def EndsKey (c : Char) : Prop := c ∈ [')', ',', ';', '\x7d']

def EndsKeys (c : Char) : Prop := EndsKey c ∧ c ≠ ','

theorem EndsKey.not_digit {c : Char} (h : EndsKey c) : ¬ c.isDigit := by
  simp only [EndsKey, List.mem_cons, List.not_mem_nil, or_false] at h
  rcases h with rfl | rfl | rfl | rfl <;> decide

/-! ### Which shape a key belongs to -/

def kind : Ty → ℕ
  | .var _ => 0
  | .qualified _ _ => 1
  | .rigid _ => 2
  | .forallType _ _ => 3
  | .range _ _ _ => 4
  | .unit => 5
  | .function _ _ _ _ => 6
  | .record _ => 7
  | .recordUpdate _ _ => 8
  | .array _ => 9
  | .region _ => 10
  | .scratch _ => 11
  | .resource _ _ => 12
  | .variant _ _ => 13
  | .effects _ => 14
  | .openEffects _ _ => 15
  | .union _ => 16
  | .opaqueType _ => 17
  | .top => 18
  | .bottom => 19

def heads : List (List Char) :=
  ["", "qualified(", "^", "all", "range(", "unit", "fun(", "record\x7b", "record-update(", "array(", "region(",
    "scratch(", "resource(", "variant(", "effects\x7b", "open-effects\x7b", "union\x7b", "opaque(", "top",
    "bottom"].map String.toList

theorem kind_lt (t : Ty) : t.kind < 20 := by
  cases t <;> simp [kind]

theorem kind_pos {B : Table ℕ ℕ} {t : Ty} {k : String} (h : keyUnder B t = some k) : 0 < t.kind := by
  cases t
  case var => cases h
  all_goals simp [kind]

/-- A key starts with the head of its shape. -/
theorem keyUnder_head {B : Table ℕ ℕ} {t : Ty} {k : String} (h : keyUnder B t = some k) :
    ∃ head rest, heads[t.kind]? = some head ∧ k.toList = head ++ rest := by
  cases t
  case var => cases h
  all_goals
    simp only [keyUnder, Option.bind_eq_bind, Option.bind_eq_some_iff, Option.pure_def, Option.map_eq_some_iff,
      Option.some.injEq] at h
  case qualified | recordUpdate =>
    obtain ⟨_, _, _, _, rfl⟩ := h
    exact ⟨_, _, rfl, by simp only [String.toList_append, List.append_assoc]; rfl⟩
  case rigid =>
    obtain ⟨_, _, rfl⟩ := h
    exact ⟨_, _, rfl, String.toList_append⟩
  case range | effects | opaqueType =>
    obtain rfl := h
    exact ⟨_, _, rfl, by simp only [String.toList_append, List.append_assoc]; rfl⟩
  case unit | top | bottom =>
    obtain rfl := h
    exact ⟨_, [], rfl, by rw [List.append_nil]⟩
  case function =>
    obtain ⟨_, _, _, _, _, _, rfl⟩ := h
    exact ⟨_, _, rfl, by simp only [String.toList_append, List.append_assoc]; rfl⟩
  all_goals
    obtain ⟨_, _, rfl⟩ := h
    exact ⟨_, _, rfl, by simp only [String.toList_append, List.append_assoc]; rfl⟩

theorem heads_apart : ∀ i ∈ List.range 20, ∀ j ∈ List.range 20, 0 < i → 0 < j →
    ∀ a ∈ heads[i]?, ∀ b ∈ heads[j]?, a <+: b → i = j := by
  decide

/-- **Keys tell the shapes of their types.** -/
theorem kind_eq {B B' : Table ℕ ℕ} {t t' : Ty} {k k' : String} {r r' : List Char} (hk : keyUnder B t = some k)
    (hk' : keyUnder B' t' = some k') (h : k.toList ++ r = k'.toList ++ r') : t.kind = t'.kind := by
  obtain ⟨head, rest, hhead, hrest⟩ := keyUnder_head hk
  obtain ⟨head', rest', hhead', hrest'⟩ := keyUnder_head hk'
  rw [hrest, hrest', List.append_assoc, List.append_assoc] at h
  rcases List.append_eq_append_iff.1 h with ⟨z, hz, -⟩ | ⟨z, hz, -⟩
  · exact heads_apart _ (List.mem_range.2 t.kind_lt) _ (List.mem_range.2 t'.kind_lt) (kind_pos hk) (kind_pos hk')
      head hhead head' hhead' ⟨z, hz.symm⟩
  · exact (heads_apart _ (List.mem_range.2 t'.kind_lt) _ (List.mem_range.2 t.kind_lt) (kind_pos hk') (kind_pos hk)
      head' hhead' head hhead ⟨z, hz.symm⟩).symm

/-! ### Reading the parts of a key -/

section Parts

variable {r r' : List Char}

theorem textKey_unique {s s' : String} (h : (textKey s).toList ++ r = (textKey s').toList ++ r') : s = s' ∧ r = r' := by
  simp only [textKey, String.toList_append, List.append_assoc] at h
  obtain ⟨hsize, hrest⟩ := nat_unique h (closes_append (by decide)) (closes_append (by decide))
  exact text_unique hsize (List.append_cancel_left hrest)

theorem textKey_head (s : String) : ∃ c rest, (textKey s).toList = c :: rest ∧ ¬ EndsKey c := by
  have hdigits := nat_digits s.utf8ByteSize
  have hne : (toString s.utf8ByteSize).toList ≠ [] := by
    have hrepr : (toString s.utf8ByteSize).toList = Nat.toDigits 10 s.utf8ByteSize := Nat.toList_repr
    rw [hrepr]
    exact Nat.toDigits_ne_nil
  obtain ⟨c, rest, hc⟩ := List.exists_cons_of_ne_nil hne
  refine ⟨c, rest ++ (":".toList ++ s.toList), ?_, fun hends => ?_⟩
  · simp only [textKey, String.toList_append, List.append_assoc, hc, List.cons_append]
  · exact hends.not_digit (hdigits c (by rw [hc]; exact List.mem_cons_self))

theorem scalarKey_unique {a b : Option Scalar}
    (h : (scalarKey a).toList ++ r = (scalarKey b).toList ++ r') (hr : Closes EndsKey r)
    (hr' : Closes EndsKey r') : a = b ∧ r = r' := by
  have hclose : ∀ {u : List Char}, Closes EndsKey u → Closes (fun c => ¬ (c.isDigit ∨ c = '-')) u := by
    intro u hu
    refine hu.imp fun c hc => ?_
    simp only [EndsKey, List.mem_cons, List.not_mem_nil, or_false] at hc
    rcases hc with rfl | rfl | rfl | rfl <;> decide
  match a, b with
  | none, none => exact ⟨rfl, List.append_cancel_left h⟩
  | none, some (.int _) | none, some (.text _) | some (.int _), none | some (.text _), none
  | some (.int _), some (.text _) | some (.text _), some (.int _) => simp [scalarKey] at h
  | some (.int m), some (.int n) =>
    simp only [scalarKey, String.toList_append, List.append_assoc] at h
    obtain ⟨rfl, hrest⟩ := int_unique (List.append_cancel_left h) (hclose hr) (hclose hr')
    exact ⟨rfl, hrest⟩
  | some (.text s), some (.text s') =>
    simp only [scalarKey, String.toList_append, List.append_assoc] at h
    obtain ⟨rfl, hrest⟩ := textKey_unique (List.append_cancel_left h)
    exact ⟨rfl, hrest⟩

/-- Words without a closing character. -/
theorem word_unique_of_ends {X : Type} {f : X → String} (hf : f.Injective)
    (hword : ∀ x, (f x).toList.Forall (¬ EndsKey ·)) {x y : X} (h : (f x).toList ++ r = (f y).toList ++ r')
    (hr : Closes EndsKey r) (hr' : Closes EndsKey r') : x = y ∧ r = r' := by
  have hclose : ∀ {u : List Char}, Closes EndsKey u → Closes (fun c => ¬ ¬ EndsKey c) u :=
    fun hu => hu.imp fun _ hc => not_not.2 hc
  obtain ⟨hsame, hrest⟩ := word_unique h (List.forall_iff_forall_mem.1 (hword x)) (List.forall_iff_forall_mem.1 (hword y))
    (hclose hr) (hclose hr')
  exact ⟨hf (String.toList_inj.1 hsame), hrest⟩

instance : DecidablePred EndsKey := fun c => inferInstanceAs (Decidable (c ∈ _))

instance : DecidablePred EndsKeys := fun _ => inferInstanceAs (Decidable (_ ∧ _))

theorem domainKey_unique {a b : Domain} (h : (domainKey a).toList ++ r = (domainKey b).toList ++ r')
    (hr : Closes EndsKey r) (hr' : Closes EndsKey r') : a = b ∧ r = r' :=
  word_unique_of_ends (fun a b hsame => by cases a <;> cases b <;> first | rfl | exact absurd hsame (by decide))
    (fun d => by cases d <;> decide) h hr hr'

theorem boolKey_unique {a b : Bool} (h : (toString a).toList ++ r = (toString b).toList ++ r')
    (hr : Closes EndsKey r) (hr' : Closes EndsKey r') : a = b ∧ r = r' :=
  word_unique_of_ends (fun a b hsame => by cases a <;> cases b <;> first | rfl | exact absurd hsame (by decide))
    (fun d => by cases d <;> decide) h hr hr'

theorem labelsKey_unique {l m : Finset String}
    (h : (labelsKey l).toList ++ r = (labelsKey m).toList ++ r') (hr : Closes EndsKeys r)
    (hr' : Closes EndsKeys r') : l = m ∧ r = r' := by
  simp only [labelsKey, String.toList_intercalate] at h
  have hwords : ∀ (n : Finset String), ∀ x ∈ ((n.sort (· ≤ ·)).map textKey).map String.toList,
      ∃ s, x = (textKey s).toList := by
    intro n x hx
    obtain ⟨k, hk, rfl⟩ := List.mem_map.1 hx
    obtain ⟨s, -, rfl⟩ := List.mem_map.1 hk
    exact ⟨s, rfl⟩
  have hstarts : ∀ n : Finset String, ∀ x ∈ ((n.sort (· ≤ ·)).map textKey).map String.toList,
      ∃ c rest, x = c :: rest ∧ ¬ EndsKey c := by
    intro n x hx
    obtain ⟨s, rfl⟩ := hwords n x hx
    exact textKey_head s
  have hreads : ∀ x ∈ ((l.sort (· ≤ ·)).map textKey).map String.toList,
      Reads EndsKey (fun y => ∃ s, y = (textKey s).toList) x := by
    intro x hx
    obtain ⟨s, rfl⟩ := hwords l x hx
    rintro y u u' ⟨s', rfl⟩ - - heq
    rw [(textKey_unique heq).1]
  obtain ⟨hlists, hrest⟩ := intercalate_unique (by decide) (fun x hx => ⟨hstarts l x hx, hreads x hx⟩)
    (fun y hy => ⟨hstarts m y hy, hwords m y hy⟩) hr hr' h
  refine ⟨?_, hrest⟩
  have hkeys := List.map_injective_iff.2 (fun _ _ => String.toList_inj.1) hlists
  have hsorted : l.sort (· ≤ ·) = m.sort (· ≤ ·) := by
    refine List.map_injective_iff.2 (fun s s' hs => ?_) hkeys
    have hsame : (textKey s).toList ++ [] = (textKey s').toList ++ [] := by rw [hs]
    exact (textKey_unique hsame).1
  ext x
  rw [← Finset.mem_sort (· ≤ ·), hsorted, Finset.mem_sort]

end Parts

/-! ### Reading keys in order -/

/-- **Sorted keys**: two lists with the same sorted keys have the same elements, up to their order. -/
theorem sortedKey_unique {X : Type} {f g : X → Option String} {R : X → X → Prop} {xs ys : List X}
    {ks ks' : List String} {r r' : List Char} (hxs : List.Forall₂ (fun x k => f x = some k) xs ks)
    (hys : List.Forall₂ (fun y k => g y = some k) ys ks')
    (hf : ∀ x k, f x = some k → ∃ c rest, k.toList = c :: rest ∧ ¬ EndsKey c)
    (hg : ∀ y k, g y = some k → ∃ c rest, k.toList = c :: rest ∧ ¬ EndsKey c)
    (hread : ∀ x ∈ xs, ∀ y ∈ ys, ∀ k k' u u', f x = some k → g y = some k' → Closes EndsKey u → Closes EndsKey u' →
      k.toList ++ u = k'.toList ++ u' → k = k' ∧ R x y)
    (h : (sortedKey ks).toList ++ r = (sortedKey ks').toList ++ r') (hr : Closes EndsKeys r)
    (hr' : Closes EndsKeys r') :
    r = r' ∧ sortedKey ks = sortedKey ks' ∧ ∃ zs, zs.Perm ys ∧ List.Forall₂ R xs zs := by
  have hsorted : ∀ l : List String, (l.mergeSort fun a b => decide (a ≤ b)).Perm l := fun l => List.mergeSort_perm l _
  have hkey : ∀ {f : X → Option String} {xs : List X} {ks : List String},
      List.Forall₂ (fun x k => f x = some k) xs ks →
      ∀ w ∈ (ks.mergeSort fun a b => decide (a ≤ b)).map String.toList, ∃ x ∈ xs, ∃ k, f x = some k ∧ w = k.toList := by
    intro f xs ks hxs w hw
    obtain ⟨k, hk, rfl⟩ := List.mem_map.1 hw
    obtain ⟨x, hx, hfx⟩ := exists_right_of_forall₂ hxs.flip ((hsorted ks).mem_iff.1 hk)
    exact ⟨x, hx, k, hfx, rfl⟩
  simp only [sortedKey, String.toList_intercalate] at h
  obtain ⟨hlists, hrest⟩ := intercalate_unique (K := fun w => ∃ y ∈ ys, ∃ k, g y = some k ∧ w = k.toList) (by decide)
    (fun w hw => by
      obtain ⟨x, hx, k, hk, rfl⟩ := hkey hxs w hw
      refine ⟨hf x k hk, ?_⟩
      rintro w' u u' ⟨y, hy, k', hk', rfl⟩ hu hu' heq
      rw [(hread x hx y hy k k' u u' hk hk' hu hu' heq).1])
    (fun w hw => by
      obtain ⟨y, hy, k, hk, rfl⟩ := hkey hys w hw
      exact ⟨hg y k hk, y, hy, k, hk, rfl⟩) hr hr' h
  have hsame := List.map_injective_iff.2 (fun _ _ => String.toList_inj.1) hlists
  refine ⟨hrest, by unfold sortedKey; rw [hsame], ?_⟩
  have hperm : ks.Perm ks' := ((hsorted ks).symm.trans (hsame ▸ List.Perm.refl _)).trans (hsorted ks')
  obtain ⟨zs, hzs, hzperm⟩ := List.perm_comp_forall₂ hperm hys.flip
  have hboth : ∀ {xs zs : List X} {ks : List String}, List.Forall₂ (fun x k => f x = some k) xs ks →
      List.Forall₂ (fun k z => g z = some k) ks zs → (∀ x ∈ xs, ∀ z ∈ zs, ∀ k, f x = some k → g z = some k → R x z) →
      List.Forall₂ R xs zs := by
    intro xs zs ks hxs hzs hR
    induction hxs generalizing zs with
    | nil =>
      cases hzs
      exact .nil
    | cons hx _ ih =>
      cases hzs with
      | cons hz hzs =>
        refine .cons (hR _ List.mem_cons_self _ List.mem_cons_self _ hx hz) (ih hzs fun x hx z hz => ?_)
        exact hR x (List.mem_cons_of_mem _ hx) z (List.mem_cons_of_mem _ hz)
  refine ⟨zs, hzperm, hboth hxs hzs fun x hx z hz k hk hk' => ?_⟩
  exact (hread x hx z (hzperm.mem_iff.1 hz) k k [] [] hk hk' closes_nil closes_nil rfl).2

/-! ### Types of one key -/

/-- The numbers of the binders in scope. -/
def binderTable (scope : List ℕ) : Table ℕ ℕ := scope.zipIdx

theorem binderTable_extend {scope vs : List ℕ} (h : (scope ++ vs).Nodup) :
    (binderTable scope).extend (vs.zipIdx (binderTable scope).length) = binderTable (scope ++ vs) := by
  unfold binderTable
  rw [List.length_zipIdx, Table.extend_of_nodup, List.zipIdx_append, Nat.zero_add]
  rwa [← Nat.zero_add scope.length, ← List.zipIdx_append, List.zipIdx_map_fst]

theorem of_lookup_binderTable {scope : List ℕ} {a i : ℕ} (h : (binderTable scope).lookup a = some i) :
    scope[i]? = some a := by
  obtain ⟨before, after, heq, -⟩ := List.lookup_eq_some_iff.1 h
  exact List.mem_zipIdx_iff_getElem?.1 (heq ▸ List.mem_append_right before List.mem_cons_self)

theorem mem_pairs {pairs : List (ℕ × ℕ)} {a b i : ℕ} (ha : (binderTable (pairs.map Prod.fst)).lookup a = some i)
    (hb : (binderTable (pairs.map Prod.snd)).lookup b = some i) : (a, b) ∈ pairs := by
  have ha := of_lookup_binderTable ha
  have hb := of_lookup_binderTable hb
  rw [List.getElem?_map] at ha hb
  cases hp : pairs[i]? with
  | none => rw [hp] at ha; cases ha
  | some p =>
    rw [hp] at ha hb
    obtain rfl := Option.some.inj ha
    obtain rfl := Option.some.inj hb
    exact List.mem_of_getElem? hp

/-- A key is not empty and does not start with what ends one. -/
theorem keyUnder_start {B : Table ℕ ℕ} {t : Ty} {k : String} (h : keyUnder B t = some k) :
    ∃ c rest, k.toList = c :: rest ∧ ¬ EndsKey c := by
  have hheads : ∀ i ∈ List.range 20, 0 < i → ∀ a ∈ heads[i]?, a.head?.any (fun c => decide (¬ EndsKey c)) = true := by
    decide
  obtain ⟨head, rest, hhead, hrest⟩ := keyUnder_head h
  obtain ⟨c, hc, hends⟩ := (Option.any_eq_true _ _).1
    (hheads _ (List.mem_range.2 t.kind_lt) (kind_pos h) head hhead)
  have hends : ¬ EndsKey c := of_decide_eq_true hends
  cases head with
  | nil => cases hc
  | cons c' head =>
    obtain rfl := Option.some.inj hc
    exact ⟨c', head ++ rest, hrest, hends⟩

theorem forall₂_fieldKeys {B : Table ℕ ℕ} {fields : List (String × Ty)} {ks : List String}
    (h : fieldKeys B fields = some ks) :
    List.Forall₂ (fun p k => (keyUnder B p.2).map (textKey p.1 ++ ·) = some k) fields ks := by
  induction fields generalizing ks with
  | nil =>
    obtain rfl := Option.some.inj h
    exact .nil
  | cons p fields ih =>
    obtain ⟨name, t⟩ := p
    simp only [fieldKeys, Option.bind_eq_bind, Option.bind_eq_some_iff, Option.pure_def, Option.some.injEq] at h
    obtain ⟨k, hk, rest, hrest, rfl⟩ := h
    exact .cons (by rw [hk]; rfl) (ih hrest)

theorem forall₂_memberKeys {B : Table ℕ ℕ} {members : List Ty} {ks : List String} (h : memberKeys B members = some ks) :
    List.Forall₂ (fun t k => keyUnder B t = some k) members ks := by
  induction members generalizing ks with
  | nil =>
    obtain rfl := Option.some.inj h
    exact .nil
  | cons t members ih =>
    simp only [memberKeys, Option.bind_eq_bind, Option.bind_eq_some_iff, Option.pure_def, Option.some.injEq] at h
    obtain ⟨k, hk, rest, hrest, rfl⟩ := h
    exact .cons hk (ih hrest)

/-- The key of a requirement. -/
def requirementKey (B : Table ℕ ℕ) (r : MemberRequirement Ty) : Option String :=
  (keyUnder B r.subject).bind fun subject => (keyUnder B r.member).map fun member =>
    textKey r.name ++ "(" ++ subject ++ "," ++ member ++ ")"

theorem forall₂_requirementKeys {B : Table ℕ ℕ} {requirements : List (MemberRequirement Ty)} {ks : List String}
    (h : requirementKeys B requirements = some ks) :
    List.Forall₂ (fun r k => requirementKey B r = some k) requirements ks := by
  induction requirements generalizing ks with
  | nil =>
    obtain rfl := Option.some.inj h
    exact .nil
  | cons r requirements ih =>
    simp only [requirementKeys, Option.bind_eq_bind, Option.bind_eq_some_iff, Option.pure_def, Option.some.injEq] at h
    obtain ⟨subject, hsubject, member, hmember, rest, hrest, rfl⟩ := h
    refine .cons ?_ (ih hrest)
    rw [requirementKey, hsubject, hmember]
    rfl

/-- The key of a type is read unambiguously, and types of one key are alike. -/
def Faithful (t : Ty) : Prop :=
  ∀ (pairs : List (ℕ × ℕ)) (t' : Ty) (k k' : String) (r r' : List Char),
    Clean (pairs.map Prod.fst) t → Clean (pairs.map Prod.snd) t' →
    keyUnder (binderTable (pairs.map Prod.fst)) t = some k →
    keyUnder (binderTable (pairs.map Prod.snd)) t' = some k' → k.toList ++ r = k'.toList ++ r' →
    Closes EndsKey r → Closes EndsKey r' → k = k' ∧ r = r' ∧ Alike pairs t t'

section Lists

variable {pairs : List (ℕ × ℕ)} {ks ks' : List String} {r r' : List Char}

theorem alikeRow_of_perm {fs gs hs : List (String × Ty)}
    (h : List.Forall₂ (fun p q => p.1 = q.1 ∧ Alike pairs p.2 q.2) fs gs) (hperm : gs.Perm hs) :
    AlikeRow pairs fs hs := by
  induction h generalizing hs with
  | nil =>
    obtain rfl := hperm.nil_eq
    exact .nil
  | @cons p q fs gs hpq _ ih =>
    obtain ⟨name, a⟩ := p
    obtain ⟨name', b⟩ := q
    obtain ⟨rfl, halike⟩ := hpq
    exact .cons halike (ih (.refl _)) hperm.symm

theorem alikeMembers_of_perm {as bs cs : List Ty} (h : List.Forall₂ (Alike pairs) as bs) (hperm : bs.Perm cs) :
    AlikeMembers pairs as cs := by
  induction h generalizing cs with
  | nil =>
    obtain rfl := hperm.nil_eq
    exact .nil
  | cons halike _ ih => exact .cons halike (ih (.refl _)) hperm.symm

theorem alikeRequirements_of_perm {rs qs ps : List (MemberRequirement Ty)}
    (h : List.Forall₂
      (fun r q => r.name = q.name ∧ Alike pairs r.subject q.subject ∧ Alike pairs r.member q.member) rs qs)
    (hperm : qs.Perm ps) : AlikeRequirements pairs rs ps := by
  induction h generalizing ps with
  | nil =>
    obtain rfl := hperm.nil_eq
    exact .nil
  | cons hrq _ ih => exact .cons hrq.1 hrq.2.1 hrq.2.2 (ih (.refl _)) hperm.symm

variable {text : String} (h : (sortedKey ks).toList ++ (text.toList ++ r) = (sortedKey ks').toList ++ (text.toList ++ r'))
  (htext : ∀ u, Closes EndsKeys (text.toList ++ u))

include h htext

/-- Rows of one key. -/
theorem fieldKeys_unique {fs gs : List (String × Ty)} (ih : ∀ p ∈ fs, Faithful p.2)
    (hfs : ∀ p ∈ fs, Clean (pairs.map Prod.fst) p.2) (hgs : ∀ p ∈ gs, Clean (pairs.map Prod.snd) p.2)
    (hks : fieldKeys (binderTable (pairs.map Prod.fst)) fs = some ks)
    (hks' : fieldKeys (binderTable (pairs.map Prod.snd)) gs = some ks') :
    r = r' ∧ sortedKey ks = sortedKey ks' ∧ AlikeRow pairs fs gs := by
  have hstart : ∀ (B : Table ℕ ℕ) (p : String × Ty) k, (keyUnder B p.2).map (textKey p.1 ++ ·) = some k →
      ∃ c rest, k.toList = c :: rest ∧ ¬ EndsKey c := by
    intro B p k hk
    obtain ⟨key, -, rfl⟩ := Option.map_eq_some_iff.1 hk
    obtain ⟨c, rest, hc, hends⟩ := textKey_head p.1
    exact ⟨c, rest ++ key.toList, by rw [String.toList_append, hc, List.cons_append], hends⟩
  obtain ⟨hrest, hsame, zs, hperm, hzs⟩ := sortedKey_unique
    (R := fun p q => p.1 = q.1 ∧ Alike pairs p.2 q.2) (forall₂_fieldKeys hks) (forall₂_fieldKeys hks') (hstart _)
    (hstart _) (fun p hp q hq k k' u u' hk hk' hu hu' heq => by
      obtain ⟨key, hkey, rfl⟩ := Option.map_eq_some_iff.1 hk
      obtain ⟨key', hkey', rfl⟩ := Option.map_eq_some_iff.1 hk'
      simp only [String.toList_append, List.append_assoc] at heq
      obtain ⟨hname, heq⟩ := textKey_unique heq
      obtain ⟨rfl, -, halike⟩ := ih p hp pairs q.2 key key' u u' (hfs p hp) (hgs q hq) hkey hkey' heq hu hu'
      exact ⟨by rw [hname], hname, halike⟩) h (htext r) (htext r')
  exact ⟨List.append_cancel_left hrest, hsame, alikeRow_of_perm hzs hperm⟩

theorem memberKeys_unique {as bs : List Ty} (ih : ∀ t ∈ as, Faithful t)
    (has : ∀ t ∈ as, Clean (pairs.map Prod.fst) t) (hbs : ∀ t ∈ bs, Clean (pairs.map Prod.snd) t)
    (hks : memberKeys (binderTable (pairs.map Prod.fst)) as = some ks)
    (hks' : memberKeys (binderTable (pairs.map Prod.snd)) bs = some ks') :
    r = r' ∧ sortedKey ks = sortedKey ks' ∧ AlikeMembers pairs as bs := by
  obtain ⟨hrest, hsame, zs, hperm, hzs⟩ := sortedKey_unique (R := Alike pairs) (forall₂_memberKeys hks)
    (forall₂_memberKeys hks') (fun _ _ => keyUnder_start) (fun _ _ => keyUnder_start)
    (fun t ht t' ht' k k' u u' hk hk' hu hu' heq => by
      obtain ⟨hsame, -, halike⟩ := ih t ht pairs t' k k' u u' (has t ht) (hbs t' ht') hk hk' heq hu hu'
      exact ⟨hsame, halike⟩) h (htext r) (htext r')
  exact ⟨List.append_cancel_left hrest, hsame, alikeMembers_of_perm hzs hperm⟩

theorem requirementKeys_unique {rs qs : List (MemberRequirement Ty)}
    (ih : ∀ r ∈ rs, Faithful r.subject ∧ Faithful r.member)
    (hrs : ∀ r ∈ rs, Clean (pairs.map Prod.fst) r.subject ∧ Clean (pairs.map Prod.fst) r.member)
    (hqs : ∀ q ∈ qs, Clean (pairs.map Prod.snd) q.subject ∧ Clean (pairs.map Prod.snd) q.member)
    (hks : requirementKeys (binderTable (pairs.map Prod.fst)) rs = some ks)
    (hks' : requirementKeys (binderTable (pairs.map Prod.snd)) qs = some ks') :
    r = r' ∧ sortedKey ks = sortedKey ks' ∧ AlikeRequirements pairs rs qs := by
  have hstart : ∀ (B : Table ℕ ℕ) (q : MemberRequirement Ty) k, requirementKey B q = some k →
      ∃ c rest, k.toList = c :: rest ∧ ¬ EndsKey c := by
    intro B q k hk
    obtain ⟨subject, -, hk⟩ := Option.bind_eq_some_iff.1 hk
    obtain ⟨member, -, rfl⟩ := Option.map_eq_some_iff.1 hk
    obtain ⟨c, rest, hc, hends⟩ := textKey_head q.name
    exact ⟨c, rest ++ _, by simp only [String.toList_append, List.append_assoc, hc, List.cons_append]; rfl, hends⟩
  obtain ⟨hrest, hsame, zs, hperm, hzs⟩ := sortedKey_unique
    (R := fun r q => r.name = q.name ∧ Alike pairs r.subject q.subject ∧ Alike pairs r.member q.member)
    (forall₂_requirementKeys hks) (forall₂_requirementKeys hks') (hstart _) (hstart _)
    (fun p hp q hq k k' u u' hk hk' hu hu' heq => by
      obtain ⟨subject, hsubject, hk⟩ := Option.bind_eq_some_iff.1 hk
      obtain ⟨member, hmember, rfl⟩ := Option.map_eq_some_iff.1 hk
      obtain ⟨subject', hsubject', hk'⟩ := Option.bind_eq_some_iff.1 hk'
      obtain ⟨member', hmember', rfl⟩ := Option.map_eq_some_iff.1 hk'
      simp only [String.toList_append, List.append_assoc] at heq
      obtain ⟨hname, heq⟩ := textKey_unique heq
      obtain ⟨rfl, heq, hsubjects⟩ := (ih p hp).1 pairs _ _ _ _ _ (hrs p hp).1 (hqs q hq).1 hsubject hsubject'
        (List.append_cancel_left heq) (closes_append (by decide)) (closes_append (by decide))
      obtain ⟨rfl, -, hmembers⟩ := (ih p hp).2 pairs _ _ _ _ _ (hrs p hp).2 (hqs q hq).2 hmember hmember'
        (List.append_cancel_left heq) (closes_append (by decide)) (closes_append (by decide))
      exact ⟨by rw [hname], hname, hsubjects, hmembers⟩) h (htext r) (htext r')
  exact ⟨List.append_cancel_left hrest, hsame, alikeRequirements_of_perm hzs hperm⟩

end Lists

section Shapes

variable {t a p e : Ty} {fs : List (String × Ty)}

/-- Reading a child that `text` follows. -/
theorem Faithful.read (ih : Faithful a) {pairs : List (ℕ × ℕ)} {a' : Ty} {k k' text : String} {r r' : List Char}
    (hc : Clean (pairs.map Prod.fst) a) (hc' : Clean (pairs.map Prod.snd) a')
    (hk : keyUnder (binderTable (pairs.map Prod.fst)) a = some k)
    (hk' : keyUnder (binderTable (pairs.map Prod.snd)) a' = some k')
    (h : k.toList ++ (text.toList ++ r) = k'.toList ++ (text.toList ++ r'))
    (htext : ∀ u, Closes EndsKey (text.toList ++ u)) : k = k' ∧ r = r' ∧ Alike pairs a a' := by
  obtain ⟨hsame, hrest, halike⟩ := ih pairs a' k k' _ _ hc hc' hk hk' h (htext r) (htext r')
  exact ⟨hsame, List.append_cancel_left hrest, halike⟩

theorem faithful_constant {text : String} (hkey : ∀ B, keyUnder B t = some text) (hnone : ∀ pairs, Alike pairs t t)
    (hkind : ∀ t' : Ty, t.kind = t'.kind → t' = t) : Faithful t := by
  intro pairs t' k k' r r' hc hc' hk hk' h hr hr'
  obtain rfl := hkind t' (kind_eq hk hk' h)
  obtain rfl := Option.some.inj ((hkey _).symm.trans hk)
  obtain rfl := Option.some.inj ((hkey _).symm.trans hk')
  exact ⟨rfl, List.append_cancel_left h, hnone pairs⟩

theorem faithful_unit : Faithful .unit :=
  faithful_constant (fun _ => rfl) (fun _ => .leaf rfl (by simp) (by simp)) fun t' h => by
    cases t' <;> first | rfl | exact absurd h (by simp [kind])

theorem faithful_top : Faithful .top :=
  faithful_constant (fun _ => rfl) (fun _ => .leaf rfl (by simp) (by simp)) fun t' h => by
    cases t' <;> first | rfl | exact absurd h (by simp [kind])

theorem faithful_bottom : Faithful .bottom :=
  faithful_constant (fun _ => rfl) (fun _ => .leaf rfl (by simp) (by simp)) fun t' h => by
    cases t' <;> first | rfl | exact absurd h (by simp [kind])

theorem faithful_rigid (id : ℕ) : Faithful (.rigid id) := by
  intro pairs t' k k' r r' hc hc' hk hk' h hr hr'
  have hkind := kind_eq hk hk' h
  cases t'
  case rigid id' =>
    simp only [keyUnder, Option.map_eq_some_iff] at hk hk'
    obtain ⟨i, hi, rfl⟩ := hk
    obtain ⟨j, hj, rfl⟩ := hk'
    simp only [String.toList_append, List.append_assoc] at h
    obtain ⟨rfl, hrest⟩ := nat_unique (List.append_cancel_left h) (hr.imp fun _ hends => hends.not_digit)
      (hr'.imp fun _ hends => hends.not_digit)
    exact ⟨rfl, hrest, .rigid (mem_pairs hi hj)⟩
  all_goals exact absurd hkind (by simp [kind])

theorem faithful_range (d : Domain) (low high : Option Scalar) : Faithful (.range d low high) := by
  intro pairs t' k k' r r' hc hc' hk hk' h hr hr'
  have hkind := kind_eq hk hk' h
  cases t'
  case range d' low' high' =>
    simp only [keyUnder, Option.some.injEq] at hk hk'
    subst hk hk'
    simp only [String.toList_append, List.append_assoc] at h
    obtain ⟨rfl, h₁⟩ := domainKey_unique (List.append_cancel_left h) (closes_append (by decide))
      (closes_append (by decide))
    obtain ⟨rfl, h₂⟩ := scalarKey_unique (List.append_cancel_left h₁) (closes_append (by decide))
      (closes_append (by decide))
    obtain ⟨rfl, h₃⟩ := scalarKey_unique (List.append_cancel_left h₂) (closes_append (by decide))
      (closes_append (by decide))
    exact ⟨rfl, List.append_cancel_left h₃, .leaf rfl (by simp) (by simp)⟩
  all_goals exact absurd hkind (by simp [kind])

theorem faithful_effects (l : Finset String) : Faithful (.effects l) := by
  intro pairs t' k k' r r' hc hc' hk hk' h hr hr'
  have hkind := kind_eq hk hk' h
  cases t'
  case effects l' =>
    simp only [keyUnder, Option.some.injEq] at hk hk'
    subst hk hk'
    simp only [String.toList_append, List.append_assoc] at h
    obtain ⟨rfl, h₁⟩ := labelsKey_unique (List.append_cancel_left h) (closes_append (by decide))
      (closes_append (by decide))
    exact ⟨rfl, List.append_cancel_left h₁, .leaf rfl (by simp) (by simp)⟩
  all_goals exact absurd hkind (by simp [kind])

theorem faithful_opaqueType (name : String) : Faithful (.opaqueType name) := by
  intro pairs t' k k' r r' hc hc' hk hk' h hr hr'
  have hkind := kind_eq hk hk' h
  cases t'
  case opaqueType name' =>
    simp only [keyUnder, Option.some.injEq] at hk hk'
    subst hk hk'
    simp only [String.toList_append, List.append_assoc] at h
    obtain ⟨rfl, h₁⟩ := textKey_unique (List.append_cancel_left h)
    exact ⟨rfl, List.append_cancel_left h₁, .leaf rfl (by simp) (by simp)⟩
  all_goals exact absurd hkind (by simp [kind])

theorem faithful_wrapped {wrap : Ty → Ty} {head : String}
    (hkey : ∀ B t, keyUnder B (wrap t) = (keyUnder B t).map fun key => head ++ key ++ ")")
    (hchildren : ∀ t, (∀ vs body, wrap t ≠ .forallType vs body) ∧ (wrap t).children = [t])
    (halike : ∀ pairs a a', Alike pairs a a' → Alike pairs (wrap a) (wrap a'))
    (hkind : ∀ t' : Ty, (wrap a).kind = t'.kind → ∃ a', t' = wrap a') (ih : Faithful a) : Faithful (wrap a) := by
  intro pairs t' k k' r r' hc hc' hk hk' h hr hr'
  obtain ⟨a', rfl⟩ := hkind t' (kind_eq hk hk' h)
  simp only [hkey, Option.map_eq_some_iff] at hk hk'
  obtain ⟨key, hkey, rfl⟩ := hk
  obtain ⟨key', hkey', rfl⟩ := hk'
  simp only [String.toList_append, List.append_assoc] at h
  obtain ⟨rfl, h₁, hsame⟩ := ih.read (hc.child (hchildren a).1 (by simp [(hchildren a).2]))
    (hc'.child (hchildren a').1 (by simp [(hchildren a').2])) hkey hkey' (List.append_cancel_left h)
      fun _ => closes_append (by decide)
  exact ⟨rfl, h₁, halike pairs a a' hsame⟩

theorem faithful_array (ih : Faithful a) : Faithful (.array a) :=
  faithful_wrapped (fun _ _ => rfl) (fun _ => ⟨by simp, rfl⟩) (fun _ _ _ => .array) (fun t' h => by
    cases t' <;> first | exact ⟨_, rfl⟩ | exact absurd h (by simp [kind])) ih

theorem faithful_region (ih : Faithful a) : Faithful (.region a) :=
  faithful_wrapped (fun _ _ => rfl) (fun _ => ⟨by simp, rfl⟩) (fun _ _ _ => .region) (fun t' h => by
    cases t' <;> first | exact ⟨_, rfl⟩ | exact absurd h (by simp [kind])) ih

theorem faithful_scratch (ih : Faithful a) : Faithful (.scratch a) :=
  faithful_wrapped (fun _ _ => rfl) (fun _ => ⟨by simp, rfl⟩) (fun _ _ _ => .scratch) (fun t' h => by
    cases t' <;> first | exact ⟨_, rfl⟩ | exact absurd h (by simp [kind])) ih

theorem faithful_resource (family : String) (ih : Faithful a) : Faithful (.resource family a) := by
  intro pairs t' k k' r r' hc hc' hk hk' h hr hr'
  have hkind := kind_eq hk hk' h
  cases t'
  case resource family' a' =>
    simp only [keyUnder, Option.map_eq_some_iff] at hk hk'
    obtain ⟨key, hkey, rfl⟩ := hk
    obtain ⟨key', hkey', rfl⟩ := hk'
    simp only [String.toList_append, List.append_assoc] at h
    obtain ⟨rfl, h₁⟩ := textKey_unique (List.append_cancel_left h)
    obtain ⟨rfl, h₂, halike⟩ := ih pairs a' _ _ _ _ (hc.child (by simp) (by simp [children]))
      (hc'.child (by simp) (by simp [children])) hkey hkey' (List.append_cancel_left h₁) hr hr'
    exact ⟨rfl, h₂, .resource halike⟩
  all_goals exact absurd hkind (by simp [kind])

theorem faithful_openEffects (l : Finset String) (ih : Faithful a) : Faithful (.openEffects l a) := by
  intro pairs t' k k' r r' hc hc' hk hk' h hr hr'
  have hkind := kind_eq hk hk' h
  cases t'
  case openEffects l' a' =>
    simp only [keyUnder, Option.map_eq_some_iff] at hk hk'
    obtain ⟨key, hkey, rfl⟩ := hk
    obtain ⟨key', hkey', rfl⟩ := hk'
    simp only [String.toList_append, List.append_assoc] at h
    obtain ⟨rfl, h₁⟩ := labelsKey_unique (List.append_cancel_left h) (closes_append (by decide))
      (closes_append (by decide))
    obtain ⟨rfl, h₂, halike⟩ := ih.read (hc.child (by simp) (by simp [children]))
      (hc'.child (by simp) (by simp [children])) hkey hkey' (List.append_cancel_left h₁)
        fun _ => closes_append (by decide)
    exact ⟨rfl, h₂, .openEffects halike⟩
  all_goals exact absurd hkind (by simp [kind])

theorem faithful_function (d : Bool) (ihp : Faithful p) (ihe : Faithful e) (ih : Faithful a) :
    Faithful (.function d p e a) := by
  intro pairs t' k k' r r' hc hc' hk hk' h hr hr'
  have hkind := kind_eq hk hk' h
  cases t'
  case function d' p' e' a' =>
    simp only [keyUnder, Option.bind_eq_bind, Option.bind_eq_some_iff, Option.pure_def, Option.some.injEq] at hk hk'
    obtain ⟨kp, hp, ke, he, ka, ha, rfl⟩ := hk
    obtain ⟨kp', hp', ke', he', ka', ha', rfl⟩ := hk'
    simp only [String.toList_append, List.append_assoc] at h
    obtain ⟨rfl, h₁⟩ := boolKey_unique (List.append_cancel_left h) (closes_append (by decide))
      (closes_append (by decide))
    obtain ⟨rfl, h₂, halikep⟩ := ihp.read (hc.child (by simp) (by simp [children]))
      (hc'.child (by simp) (by simp [children])) hp hp' (List.append_cancel_left h₁) fun _ => closes_append (by decide)
    obtain ⟨rfl, h₃, halikee⟩ := ihe.read (hc.child (by simp) (by simp [children]))
      (hc'.child (by simp) (by simp [children])) he he' h₂ fun _ => closes_append (by decide)
    obtain ⟨rfl, h₄, halikea⟩ := ih.read (hc.child (by simp) (by simp [children]))
      (hc'.child (by simp) (by simp [children])) ha ha' h₃ fun _ => closes_append (by decide)
    exact ⟨rfl, h₄, .function halikep halikee halikea⟩
  all_goals exact absurd hkind (by simp [kind])

theorem faithful_record (ih : ∀ q ∈ fs, Faithful q.2) : Faithful (.record fs) := by
  intro pairs t' k k' r r' hc hc' hk hk' h hr hr'
  have hkind := kind_eq hk hk' h
  cases t'
  case record gs =>
    simp only [keyUnder, Option.map_eq_some_iff] at hk hk'
    obtain ⟨keys, hkeys, rfl⟩ := hk
    obtain ⟨keys', hkeys', rfl⟩ := hk'
    simp only [String.toList_append, List.append_assoc] at h
    obtain ⟨h₁, hsame, halike⟩ := fieldKeys_unique (List.append_cancel_left h)
      (fun _ => closes_append (by decide)) ih (fun q hq => hc.child (by simp) (List.mem_map_of_mem hq))
      (fun q hq => hc'.child (by simp) (List.mem_map_of_mem hq)) hkeys hkeys'
    exact ⟨by rw [hsame], h₁, .record halike⟩
  all_goals exact absurd hkind (by simp [kind])

theorem faithful_recordUpdate (ihbase : Faithful a) (ih : ∀ q ∈ fs, Faithful q.2) : Faithful (.recordUpdate a fs) := by
  intro pairs t' k k' r r' hc hc' hk hk' h hr hr'
  have hkind := kind_eq hk hk' h
  cases t'
  case recordUpdate a' gs =>
    simp only [keyUnder, Option.bind_eq_bind, Option.bind_eq_some_iff, Option.pure_def, Option.some.injEq] at hk hk'
    obtain ⟨key, hkey, keys, hkeys, rfl⟩ := hk
    obtain ⟨key', hkey', keys', hkeys', rfl⟩ := hk'
    simp only [String.toList_append, List.append_assoc] at h
    obtain ⟨rfl, h₁, hbase⟩ := ihbase.read (hc.child (by simp) (by simp [children]))
      (hc'.child (by simp) (by simp [children])) hkey hkey' (List.append_cancel_left h)
        fun _ => closes_append (by decide)
    obtain ⟨h₂, hsame, halike⟩ := fieldKeys_unique h₁ (fun _ => closes_append (by decide)) ih
      (fun q hq => hc.child (by simp) (List.mem_cons_of_mem _ (List.mem_map_of_mem hq)))
      (fun q hq => hc'.child (by simp) (List.mem_cons_of_mem _ (List.mem_map_of_mem hq))) hkeys hkeys'
    exact ⟨by rw [hsame], h₂, .recordUpdate hbase halike⟩
  all_goals exact absurd hkind (by simp [kind])

theorem faithful_variant (isOpen : Bool) (ih : ∀ q ∈ fs, Faithful q.2) : Faithful (.variant fs isOpen) := by
  intro pairs t' k k' r r' hc hc' hk hk' h hr hr'
  have hkind := kind_eq hk hk' h
  cases t'
  case variant gs isOpen' =>
    simp only [keyUnder, Option.map_eq_some_iff] at hk hk'
    obtain ⟨keys, hkeys, rfl⟩ := hk
    obtain ⟨keys', hkeys', rfl⟩ := hk'
    simp only [String.toList_append, List.append_assoc] at h
    obtain ⟨rfl, h₁⟩ := boolKey_unique (List.append_cancel_left h) (closes_append (by decide))
      (closes_append (by decide))
    obtain ⟨h₂, hsame, halike⟩ := fieldKeys_unique (List.append_cancel_left h₁)
      (fun _ => closes_append (by decide)) ih (fun q hq => hc.child (by simp) (List.mem_map_of_mem hq))
      (fun q hq => hc'.child (by simp) (List.mem_map_of_mem hq)) hkeys hkeys'
    exact ⟨by rw [hsame], h₂, .variant halike⟩
  all_goals exact absurd hkind (by simp [kind])

theorem faithful_union {as : List Ty} (ih : ∀ q ∈ as, Faithful q) : Faithful (.union as) := by
  intro pairs t' k k' r r' hc hc' hk hk' h hr hr'
  have hkind := kind_eq hk hk' h
  cases t'
  case union bs =>
    simp only [keyUnder, Option.map_eq_some_iff] at hk hk'
    obtain ⟨keys, hkeys, rfl⟩ := hk
    obtain ⟨keys', hkeys', rfl⟩ := hk'
    simp only [String.toList_append, List.append_assoc] at h
    obtain ⟨h₁, hsame, halike⟩ := memberKeys_unique (List.append_cancel_left h)
      (fun _ => closes_append (by decide)) ih (fun q hq => hc.child (by simp) hq)
      (fun q hq => hc'.child (by simp) hq) hkeys hkeys'
    exact ⟨by rw [hsame], h₁, .union halike⟩
  all_goals exact absurd hkind (by simp [kind])

theorem mem_children_qualified {rs : List (MemberRequirement Ty)} : ∀ q ∈ rs,
    q.subject ∈ (qualified rs a).children ∧ q.member ∈ (qualified rs a).children := by
  intro q hq
  constructor
  · exact List.mem_append_left _ (List.mem_flatMap.2 ⟨q, hq, by simp⟩)
  · exact List.mem_append_left _ (List.mem_flatMap.2 ⟨q, hq, by simp⟩)

theorem faithful_qualified {rs : List (MemberRequirement Ty)} (ih : Faithful a)
    (ihs : ∀ q ∈ rs, Faithful q.subject ∧ Faithful q.member) : Faithful (.qualified rs a) := by
  intro pairs t' k k' r r' hc hc' hk hk' h hr hr'
  have hkind := kind_eq hk hk' h
  cases t'
  case qualified qs a' =>
    simp only [keyUnder, Option.bind_eq_bind, Option.bind_eq_some_iff, Option.pure_def, Option.some.injEq] at hk hk'
    obtain ⟨key, hkey, keys, hkeys, rfl⟩ := hk
    obtain ⟨key', hkey', keys', hkeys', rfl⟩ := hk'
    simp only [String.toList_append, List.append_assoc] at h
    obtain ⟨rfl, h₁, halike⟩ := ih.read (hc.child (by simp) (by simp [children]))
      (hc'.child (by simp) (by simp [children])) hkey hkey' (List.append_cancel_left h)
        fun _ => closes_append (by decide)
    have hmem := fun q (hq : q ∈ rs) => mem_children_qualified (a := a) q hq
    have hmem' := fun q (hq : q ∈ qs) => mem_children_qualified (a := a') q hq
    obtain ⟨h₂, hsame, hrequirements⟩ := requirementKeys_unique h₁ (fun _ => closes_append (by decide)) ihs
      (fun q hq => ⟨hc.child (by simp) (hmem q hq).1, hc.child (by simp) (hmem q hq).2⟩)
      (fun q hq => ⟨hc'.child (by simp) (hmem' q hq).1, hc'.child (by simp) (hmem' q hq).2⟩) hkeys hkeys'
    exact ⟨by rw [hsame], h₂, .qualified hrequirements halike⟩
  all_goals exact absurd hkind (by simp [kind])

theorem faithful_forallType (vs : List ℕ) (ih : Faithful a) : Faithful (.forallType vs a) := by
  intro pairs t' k k' r r' hc hc' hk hk' h hr hr'
  have hkind := kind_eq hk hk' h
  cases t'
  case forallType ws a' =>
    simp only [keyUnder, Option.bind_eq_bind, Option.bind_eq_some_iff, Option.pure_def, Option.some.injEq] at hk hk'
    obtain ⟨key, hkey, rfl⟩ := hk
    obtain ⟨key', hkey', rfl⟩ := hk'
    simp only [String.toList_append, List.append_assoc] at h
    obtain ⟨hlen, h₁⟩ := nat_unique (List.append_cancel_left h) (closes_append (by decide)) (closes_append (by decide))
    cases hc with
    | other hforall => exact absurd rfl (hforall _ _)
    | forallType hnodup hclean =>
      cases hc' with
      | other hforall => exact absurd rfl (hforall _ _)
      | forallType hnodup' hclean' =>
        rw [binderTable_extend hnodup] at hkey
        rw [binderTable_extend hnodup'] at hkey'
        have hfst : (pairs ++ vs.zip ws).map Prod.fst = pairs.map Prod.fst ++ vs := by
          rw [List.map_append, List.map_fst_zip hlen.le]
        have hsnd : (pairs ++ vs.zip ws).map Prod.snd = pairs.map Prod.snd ++ ws := by
          rw [List.map_append, List.map_snd_zip hlen.ge]
        obtain ⟨rfl, h₂, halike⟩ := ih.read (hfst ▸ hclean) (hsnd ▸ hclean') (hfst ▸ hkey) (hsnd ▸ hkey')
          (List.append_cancel_left h₁) fun _ => closes_append (by decide)
        exact ⟨by rw [hlen], h₂, .forallType hlen hnodup hnodup' halike⟩
  all_goals exact absurd hkind (by simp [kind])

end Shapes

/-- **The key of a type is read unambiguously, and clean types of one key are alike.** -/
theorem faithful (t : Ty) : Faithful t := by
  induction t using Ty.ind with
  | h t ih =>
  cases t with
  | var id =>
    intro pairs t' k k' r r' hc hc' hk
    cases hk
  | rigid id => exact faithful_rigid id
  | forallType vs a => exact faithful_forallType vs (ih a (by simp [children]))
  | qualified rs a =>
    exact faithful_qualified (ih a (by simp [children])) fun q hq =>
      ⟨ih _ (mem_children_qualified q hq).1, ih _ (mem_children_qualified q hq).2⟩
  | range d low high => exact faithful_range d low high
  | unit => exact faithful_unit
  | function d p e a =>
    exact faithful_function d (ih p (by simp [children])) (ih e (by simp [children])) (ih a (by simp [children]))
  | record fs => exact faithful_record fun q hq => ih _ (List.mem_map_of_mem hq)
  | recordUpdate a fs =>
    exact faithful_recordUpdate (ih a (by simp [children])) fun q hq =>
      ih _ (List.mem_cons_of_mem _ (List.mem_map_of_mem hq))
  | array a => exact faithful_array (ih a (by simp [children]))
  | region a => exact faithful_region (ih a (by simp [children]))
  | scratch a => exact faithful_scratch (ih a (by simp [children]))
  | resource family a => exact faithful_resource family (ih a (by simp [children]))
  | variant fs isOpen => exact faithful_variant isOpen fun q hq => ih _ (List.mem_map_of_mem hq)
  | effects l => exact faithful_effects l
  | openEffects l a => exact faithful_openEffects l (ih a (by simp [children]))
  | union as => exact faithful_union ih
  | opaqueType name => exact faithful_opaqueType name
  | top => exact faithful_top
  | bottom => exact faithful_bottom

/-- **Closed types of one key are equal** up to the names of binders and order. -/
theorem alike_of_key {t t' : Ty} {k : String} (hc : Clean [] t) (hc' : Clean [] t')
    (hk : closedTypeKey t = some k) (hk' : closedTypeKey t' = some k) : Alike [] t t' :=
  (faithful t [] t' k k [] [] hc hc' hk hk' rfl closes_nil closes_nil).2.2

/-- **Keys are read in one way.**  Where one text begins with the keys of two closed types without rebound binders, and
each key is followed by a closing character or ends the text, the two are one key, and the types are equal up to the
names of binders and the order of their parts. -/
theorem closedTypeKey_unique {t t' : Ty} {k k' : String} {r r' : List Char} (hc : Clean [] t) (hc' : Clean [] t')
    (hk : closedTypeKey t = some k) (hk' : closedTypeKey t' = some k') (h : k.toList ++ r = k'.toList ++ r')
    (hr : Closes EndsKey r) (hr' : Closes EndsKey r') : k = k' ∧ r = r' ∧ Alike [] t t' :=
  faithful t [] t' k k' r r' hc hc' hk hk' h hr hr'

/-- Two functions under a binder each, in a longer text. -/
theorem closedTypeKey_unique_function : Alike [] (.forallType [1] (.function true (.rigid 1) .unit (.array (.rigid 1))))
    (.forallType [7] (.function true (.rigid 7) .unit (.array (.rigid 7)))) := by
  have hclean (v : ℕ) : Clean [] (.forallType [v] (.function true (.rigid v) .unit (.array (.rigid v)))) := by
    have hrigid : Clean [v] (.rigid v) := .other (by simp) (by simp [children])
    have hunit : Clean [v] .unit := .other (by simp) (by simp [children])
    have harray : Clean [v] (.array (.rigid v)) := .other (by simp) (by simp [children, hrigid])
    exact .forallType (by simp) (.other (by simp) (by simp [children, hrigid, hunit, harray]))
  have hends : Closes EndsKey [')', '!'] := by simp [Closes, EndsKey]
  exact (closedTypeKey_unique (hclean 1) (hclean 7) (k := "all1(fun(true,^0,unit,array(^0)))") rfl rfl rfl hends
    hends).2.2

end Ty

end Blot.Typecheck
