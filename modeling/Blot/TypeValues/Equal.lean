import Blot.Support.Table
import Mathlib.Data.List.Nodup
import Blot.TypeValues.Sound

/-!
# Equality of type values (`equal` in `value.rs`)

* `fingerprint`, `equal`, `substituteTypeVariable` — the code;
* `Settled` — the values on which equality is agreement;
* `equal_iff` — it is.
-/

namespace Blot.TypeValues

namespace Term

/-! ### Equality -/

/-- The arithmetic of `union_member_fingerprint`: the number of a value without parts, and a number joined to a number
and to a text. -/
structure Hash where
  start : ℕ
  scalar : Scalar → ℕ
  word : ℕ → ℕ → ℕ
  bytes : ℕ → String → ℕ

section Equal

variable (hash : Hash)

def domainNumber : Domain → ℕ
  | .int => 0
  | .text => 1
  | .float => 2
  | .float32 => 3

/-- `union_member_fingerprint`, with the numbers of the variables. -/
def fingerprint {β ν : Type} (number : ν → ℕ) : Term β ν → Option ℕ
  | .extended inner _ => fingerprint number inner
  | .scalar (.region _ _ _) | .scalar (.regionRejoin _ _ _ _) => none
  | .scalar value => some (hash.scalar value)
  | .wrapped .regionType inner => (fingerprint number inner).map (hash.word · 11)
  | .wrapped .scratchType inner => (fingerprint number inner).map (hash.word · 12)
  | .wrapped (.resourceType family) inner =>
    (fingerprint number inner).map fun inner => hash.bytes (hash.word inner 41) family
  | .wrapped .deferredScratch inner => (fingerprint number inner).map (hash.word · 13)
  | .wrapped (.tag name) inner => (fingerprint number inner).map (hash.word (hash.scalar (.tagged name)))
  | .wrapped (.sealed name) inner =>
    (fingerprint number inner).map (hash.word (hash.bytes (hash.word hash.start 19) name))
  | .range low high domain => do
    let domain := domainNumber (rangeDomain low high domain)
    let low ← fingerprint number low
    let high ← fingerprint number high
    some (hash.word (hash.word (hash.word (hash.word hash.start 15) domain) low) high)
  | .typeVariable id => some (hash.word (hash.word hash.start 16) (number id))
  | .effect id _ _ _ => some (hash.word (hash.word hash.start 17) id)
  | .operation of name => (effectId of).map fun id => hash.bytes (hash.word (hash.word hash.start 18) id) name
  | .shape _ | .array _ | .scratch _ _ | .emptyArray _ | .function _ | .union _ | .arrow _ _ _ _ _ | .forAll _ _ => none
termination_by structural t => t

/-- `contains_equal`: a value with a fingerprint is looked up among the members that have the same. -/
def containsEqual (same : Value → Value → Bool) (members : List Value) (value : Value) : Bool :=
  match fingerprint hash id value with
  | some number => members.any fun member => fingerprint hash id member == some number && same member value
  | none => members.any (same · value)

/-- `equal`, to a depth.  Unions in the same storage are equal by `equal_refl`. -/
def equalWithin : ℕ → Value → Value → Bool
  | 0, _, _ => false
  | n + 1, left, right =>
    match left, right with
    | .extended inner _, right => equalWithin n inner right
    | left, .extended inner _ => equalWithin n left inner
    | .scalar left, .scalar right => left = right
    | .shape left, .shape right =>
      left.length = right.length &&
        left.all fun p => (right.lookup p.1).any (equalWithin n p.2)
    | .array left, .array right =>
      left.length = right.length && (left.zip right).all fun p => equalWithin n p.1 p.2
    | .union left, .union right =>
      left.length = right.length && left.all (containsEqual hash (equalWithin n) right)
    | .wrapped kind left, .wrapped kind' right => kind = kind' && equalWithin n left right
    | .scratch left capacity, .scratch right capacity' =>
      capacity = capacity' && left.length = right.length && (left.zip right).all fun p => equalWithin n p.1 p.2
    | .emptyArray _, .emptyArray _ => true
    | .emptyArray _, .array right | .array right, .emptyArray _ => right.isEmpty
    | .range low high domain, .range low' high' domain' =>
      rangeDomain low high domain = rangeDomain low' high' domain' && equalWithin n low low' && equalWithin n high high'
    | .arrow deferred domain codomain effects effectTail, .arrow deferred' domain' codomain' effects' effectTail' =>
      deferred = deferred' && equalWithin n domain domain' && equalWithin n codomain codomain' &&
        effectTail = effectTail' && effects.length = effects'.length &&
        effects.all fun effect => effects'.any (equalWithin n effect)
    | .typeVariable id, .typeVariable id' => id = id'
    | .forAll bound body, .forAll bound' body' =>
      let replacement := .typeVariable (freshTypeVariable body body')
      match substituteWith (equalWithin n) bound replacement body,
        substituteWith (equalWithin n) bound' replacement body' with
      | some body, some body' => equalWithin n body body'
      | _, _ => false
    | .effect id _ _ _, .effect id' _ _ _ => id = id'
    | .operation of name, .operation of' name' => name = name' && effectId of = effectId of'
    | _, _ => false

def equal (left right : Value) : Bool := equalWithin hash (left.size + right.size) left right

def substituteTypeVariable (value : Value) (target : ℕ) (replacement : Value) : Option Value :=
  substituteWith (equal hash) target replacement value

/-! ### Fingerprints -/

variable {hash}

def Name.number : Name → ℕ
  | .bound index => index
  | .free id => id

theorem isText_core_form (a : Value) : (core (form [] a)).isText = a.bare.isText := by
  rw [isText_core, bare_form]
  exact isText_walk _ _ _ _

/-- The core of a range has its domain. -/
theorem rangeDomain_core {low high : Value} {domain : Option Domain} (h : Plain (.range low high domain)) :
    rangeDomain (core (form [] low)) (core (form [] high)) domain = rangeDomain low high domain := by
  cases domain with
  | some domain => rfl
  | none =>
    unfold rangeDomain
    rw [isText_core_form, isText_core_form, h.1, h.2]

theorem fingerprint_core {a : Value} (h : Sound true a) :
    fingerprint hash Name.number (core (form [] a)) = fingerprint hash id a := by
  induction a using induct with
  | scalar value => cases value <;> rfl
  | wrapped kind inner ih =>
    have hinner := ih (h.compared inner List.mem_cons_self)
    cases kind <;> simp only [form_wrapped, core, fingerprint, hinner]
  | range low high domain ihl ihh =>
    have hlow := ihl (h.compared low List.mem_cons_self)
    have hhigh := ihh (h.compared high (List.mem_cons_of_mem _ List.mem_cons_self))
    simp only [form_range, core, fingerprint, hlow, hhigh, rangeDomain_core h.plain]
    rfl
  | operation of name =>
    have heffect := h.plain
    cases of with
    | effect id name operations host => simp [core, fingerprint, effectId]
    | _ => cases heffect
  | extended inner members ih => exact ih (h.compared inner List.mem_cons_self)
  | _ => simp [core, fingerprint, Name.number]

theorem effectId_of_alike {counted : Bool} {F G : Form} (h : Alike counted F G) : effectId F = effectId G := by
  cases h <;> rfl

theorem isText_of_alike {counted : Bool} {F G : Form} (h : Alike counted F G) : F.isText = G.isText := by
  cases h <;> rfl

theorem fingerprint_of_alike {counted : Bool} {F G : Form} (h : Alike counted F G) :
    fingerprint hash Name.number F = fingerprint hash Name.number G := by
  induction h with
  | wrapped kind _ ih => cases kind <;> simp only [fingerprint, ih]
  | range domain hlow hhigh ihl ihh =>
    simp only [fingerprint, ihl, ihh, rangeDomain, isText_of_alike hlow, isText_of_alike hhigh]
  | operation name hof => simp only [fingerprint, effectId_of_alike hof]
  | _ => simp only [fingerprint]

theorem containsEqual_of {same : Value → Value → Bool} {members : List Value} {value member : Value}
    (hmember : member ∈ members) (hsame : same member value = true)
    (hfingerprint : fingerprint hash id member = fingerprint hash id value) :
    containsEqual hash same members value = true := by
  unfold containsEqual
  split
  · next number hnumber =>
    refine List.any_eq_true.2 ⟨member, hmember, ?_⟩
    rw [hfingerprint, hnumber, hsame, beq_self_eq_true, Bool.and_self]
  · exact List.any_eq_true.2 ⟨member, hmember, hsame⟩

theorem exists_of_containsEqual {same : Value → Value → Bool} {members : List Value} {value : Value}
    (h : containsEqual hash same members value = true) : ∃ member ∈ members, same member value = true := by
  unfold containsEqual at h
  split at h
  · obtain ⟨member, hmember, hsame⟩ := List.any_eq_true.1 h
    exact ⟨member, hmember, (Bool.and_eq_true_iff.1 hsame).2⟩
  · exact List.any_eq_true.1 h

/-! ### Binders -/

theorem substitute_fresh (same : Value → Value → Bool) (bound : ℕ) {f : ℕ} {body : Value} (h : Sound true body)
    (hf : f ∉ collectTypeVariables body) :
    ∃ s, substituteWith same bound (.typeVariable f) body = some s ∧
      form [] s = openAt f 0 (form [bound] body) ∧ Sound true s ∧ s.size = body.size := by
  have hform : (substituteWith same bound (.typeVariable f) body).map (form []) =
      instantiate (.single bound (.typeVariable (.free f))) (form [] body) :=
    form_substituteWith (replacesTails_typeVariable f) (substitutable_fresh h hf) nofun nofun
  rw [instantiate_rename] at hform
  obtain ⟨s, hs, hform⟩ := Option.map_eq_some_iff.1 hform
  refine ⟨s, hs, hform.trans (openAt_form bound f body).symm, ?_, ?_⟩
  · exact h.substitutes (substitutes_of_substituteWith hs) (.intro (fun _ => trivial) trivial nofun nofun)
      List.not_mem_nil nofun
  · rw [← size_form [] s, hform, rename, size_walk, size_form]

theorem core_openAt {f depth : ℕ} {F : Form} : core (openAt f depth F) = openAt f depth (core F) :=
  core_walk _ _ _ _

theorem not_mem_core_form (bound : ℕ) {f : ℕ} {body : Value} (h : Sound true body)
    (hf : f ∉ collectTypeVariables body) :
    .free f ∉ (core (form [bound] body)).occurrences :=
  fun hmem => hf (free_collect h (mem_form.1 (occurrences_core hmem)).1)

/-! ### Cores of forms -/

section Core

variable (binders : List ℕ)

theorem core_form_shape (fields : List (String × Value)) :
    core (form binders (.shape fields)) = .shape (fields.map fun p => (p.1, core (form binders p.2))) := by
  simp [core, Function.comp_def]

theorem core_form_array (elements : List Value) :
    core (form binders (.array elements)) = .array (elements.map fun x => core (form binders x)) := by
  simp [core, Function.comp_def]

theorem core_form_scratch (values : List Value) (capacity : ℕ) :
    core (form binders (.scratch values capacity)) = .scratch (values.map fun x => core (form binders x)) capacity := by
  simp [core, Function.comp_def]

theorem core_form_union (members : List Value) :
    core (form binders (.union members)) = .union (members.map fun x => core (form binders x)) := by
  simp [core, Function.comp_def]

theorem core_form_arrow (deferred : Bool) (domain codomain : Value) (effects : List Value) (effectTail : Option ℕ) :
    core (form binders (.arrow deferred domain codomain effects effectTail)) =
      .arrow deferred (core (form binders domain)) (core (form binders codomain))
        (effects.map fun x => core (form binders x)) (effectTail.map (resolve binders)) := by
  simp [core, Function.comp_def]

end Core

/-- Records of one length whose names are distinct agree when the fields of one agree with those of the other. -/
theorem fields_of_left {fields fields' : List (String × Value)} (hnodup : (fields.map Prod.fst).Nodup)
    (hlength : fields.length = fields'.length)
    (h : ∀ p ∈ fields, ∃ q ∈ fields', q.1 = p.1 ∧ Alike true (core (form [] p.2)) (core (form [] q.2))) :
    Fields true (fields.map fun p => (p.1, core (form [] p.2))) (fields'.map fun p => (p.1, core (form [] p.2))) := by
  have hsub : fields.map Prod.fst ⊆ fields'.map Prod.fst := by
    intro name hname
    obtain ⟨p, hp, rfl⟩ := List.mem_map.1 hname
    obtain ⟨q, hq, hname, -⟩ := h p hp
    exact List.mem_map.2 ⟨q, hq, hname⟩
  have hperm := (List.subperm_of_subset hnodup hsub).perm_of_length_le (by simp [hlength])
  refine ⟨List.forall_mem_map.2 fun p hp => ?_, List.forall_mem_map.2 fun q hq => ?_⟩
  · obtain ⟨q, hq, hname, halike⟩ := h p hp
    exact ⟨_, List.mem_map_of_mem hq, hname, halike⟩
  · obtain ⟨p, hp, hname⟩ := List.mem_map.1 (hperm.mem_iff.2 (List.mem_map_of_mem hq))
    obtain ⟨q', hq', hname', halike⟩ := h p hp
    have hone : q' = q := List.inj_on_of_nodup_map (hperm.nodup_iff.1 hnodup) hq' hq (hname'.trans hname)
    exact ⟨_, List.mem_map_of_mem hp, hname, hone ▸ halike⟩

theorem members_of_left {ts us : List Value}
    (hspread : (ts.map fun x => core (form [] x)).Pairwise fun x y => ¬ Alike false x y)
    (hlength : ts.length = us.length)
    (h : ∀ t ∈ ts, ∃ u ∈ us, Alike true (core (form [] t)) (core (form [] u))) :
    Members true (ts.map fun x => core (form [] x)) (us.map fun x => core (form [] x)) := by
  have hleft : ∀ x ∈ ts.map fun x => core (form [] x), ∃ y ∈ us.map fun x => core (form [] x), Alike true x y := by
    refine List.forall_mem_map.2 fun t ht => ?_
    obtain ⟨u, hu, halike⟩ := h t ht
    exact ⟨_, List.mem_map_of_mem hu, halike⟩
  have hlength' : (ts.map fun x => core (form [] x)).length = (us.map fun x => core (form [] x)).length := by
    rw [List.length_map, List.length_map, hlength]
  exact ⟨fun _ => hlength', hleft, partners_of_length hspread
    (fun x x' y h h' => (h.trans h'.symm).loosen) hleft hlength'⟩

/-! ### Equal values agree -/

theorem alike_of_equalWithin {n : ℕ} {a b : Value} (ha : Sound true a) (hb : Sound true b)
    (hsa : Spread (core (form [] a))) (hsb : Spread (core (form [] b))) (h : equalWithin hash n a b = true) :
    Alike true (core (form [] a)) (core (form [] b)) := by
  induction n generalizing a b with
  | zero => cases h
  | succ n ih =>
    have hright {inner : Value} {members : List (String × Value)} (hb : Sound true (.extended inner members))
        (hsb : Spread (core (form [] (.extended inner members)))) (h : equalWithin hash n a inner = true) :
        Alike true (core (form [] a)) (core (form [] (.extended inner members))) :=
      ih (b := inner) ha (hb.compared inner List.mem_cons_self) hsa hsb h
    cases a with
    | extended inner members => exact ih (a := inner) (ha.compared inner List.mem_cons_self) hb hsa hsb h
    | scalar value =>
      cases b with
      | scalar value' =>
        obtain rfl := of_decide_eq_true h
        exact .scalar value
      | extended inner members => exact hright hb hsb h
      | _ => cases h
    | function identity => exact absurd ha.plain id
    | shape fields =>
      cases b with
      | shape fields' =>
        obtain ⟨hlength, hall⟩ := Bool.and_eq_true_iff.1 h
        rw [core_form_shape, Spread, spreadFields_iff, List.forall_mem_map] at hsa hsb
        rw [core_form_shape, core_form_shape]
        refine alike_shape_iff.2 (fields_of_left ha.plain (of_decide_eq_true hlength) fun p hp => ?_)
        obtain ⟨y, hy, hequal⟩ := (Option.any_eq_true _ _).1 (List.all_eq_true.1 hall p hp)
        have hq := Support.Table.mem_of_lookup hy
        exact ⟨_, hq, rfl, ih (ha.compared p.2 (List.mem_map_of_mem hp)) (hb.compared y (List.mem_map_of_mem hq))
          (hsa p hp) (hsb _ hq) hequal⟩
      | extended inner members => exact hright hb hsb h
      | _ => cases h
    | array elements =>
      cases b with
      | array elements' =>
        obtain ⟨hlength, hall⟩ := Bool.and_eq_true_iff.1 h
        rw [core_form_array, Spread, spreadAll_iff, List.forall_mem_map] at hsa hsb
        rw [core_form_array, core_form_array]
        refine .array (by simpa using of_decide_eq_true hlength) (forall_mem_zip_map fun p hp => ?_)
        obtain ⟨hx, hy⟩ := List.of_mem_zip hp
        exact ih (ha.compared p.1 hx) (hb.compared p.2 hy) (hsa p.1 hx) (hsb p.2 hy) (List.all_eq_true.1 hall p hp)
      | emptyArray element =>
        obtain rfl := List.isEmpty_iff.1 h
        exact alike_refl true (.array [])
      | extended inner members => exact hright hb hsb h
      | _ => cases h
    | scratch values capacity =>
      cases b with
      | scratch values' capacity' =>
        obtain ⟨hand, hall⟩ := Bool.and_eq_true_iff.1 h
        obtain ⟨hcapacity, hlength⟩ := Bool.and_eq_true_iff.1 hand
        obtain rfl := of_decide_eq_true hcapacity
        rw [core_form_scratch, Spread, spreadAll_iff, List.forall_mem_map] at hsa hsb
        rw [core_form_scratch, core_form_scratch]
        refine .scratch capacity (by simpa using of_decide_eq_true hlength) (forall_mem_zip_map fun p hp => ?_)
        obtain ⟨hx, hy⟩ := List.of_mem_zip hp
        exact ih (ha.compared p.1 hx) (hb.compared p.2 hy) (hsa p.1 hx) (hsb p.2 hy) (List.all_eq_true.1 hall p hp)
      | extended inner members => exact hright hb hsb h
      | _ => cases h
    | wrapped kind inner =>
      cases b with
      | wrapped kind' inner' =>
        obtain ⟨hkind, hinner⟩ := Bool.and_eq_true_iff.1 h
        obtain rfl := of_decide_eq_true hkind
        exact .wrapped kind (ih (ha.compared inner List.mem_cons_self) (hb.compared inner' List.mem_cons_self) hsa hsb
          hinner)
      | extended inner members => exact hright hb hsb h
      | _ => cases h
    | emptyArray element =>
      cases b with
      | emptyArray element' => exact alike_refl true (.array [])
      | array elements' =>
        obtain rfl := List.isEmpty_iff.1 h
        exact alike_refl true (.array [])
      | extended inner members => exact hright hb hsb h
      | _ => cases h
    | range low high domain =>
      cases b with
      | range low' high' domain' =>
        obtain ⟨hand, hhigh⟩ := Bool.and_eq_true_iff.1 h
        obtain ⟨hdomain, hlow⟩ := Bool.and_eq_true_iff.1 hand
        have hdomains := of_decide_eq_true hdomain
        rw [← rangeDomain_core ha.plain, ← rangeDomain_core hb.plain] at hdomains
        rw [form_range, core, form_range, core, hdomains]
        exact .range _ (ih (ha.compared low List.mem_cons_self) (hb.compared low' List.mem_cons_self) hsa.1 hsb.1 hlow)
          (ih (ha.compared high (List.mem_cons_of_mem _ List.mem_cons_self))
            (hb.compared high' (List.mem_cons_of_mem _ List.mem_cons_self)) hsa.2 hsb.2 hhigh)
      | extended inner members => exact hright hb hsb h
      | _ => cases h
    | union members =>
      cases b with
      | union members' =>
        obtain ⟨hlength, hall⟩ := Bool.and_eq_true_iff.1 h
        rw [core_form_union, Spread, spreadAll_iff, List.forall_mem_map] at hsa hsb
        rw [core_form_union, core_form_union]
        refine alike_union_iff.2 (members_of_left hsa.1 (of_decide_eq_true hlength) fun t ht => ?_)
        -- a member is looked up with the sides exchanged
        obtain ⟨u, hu, hequal⟩ := exists_of_containsEqual (List.all_eq_true.1 hall t ht)
        exact ⟨u, hu, (ih (hb.compared u hu) (ha.compared t ht) (hsb.2 u hu) (hsa.2 t ht) hequal).symm⟩
      | extended inner members => exact hright hb hsb h
      | _ => cases h
    | arrow deferred domain codomain effects effectTail =>
      cases b with
      | arrow deferred' domain' codomain' effects' effectTail' =>
        obtain ⟨hand, hall⟩ := Bool.and_eq_true_iff.1 h
        obtain ⟨hand, hlength⟩ := Bool.and_eq_true_iff.1 hand
        obtain ⟨hand, htail⟩ := Bool.and_eq_true_iff.1 hand
        obtain ⟨hand, hcodomain⟩ := Bool.and_eq_true_iff.1 hand
        obtain ⟨hdeferred, hdomain⟩ := Bool.and_eq_true_iff.1 hand
        rw [core_form_arrow, Spread, spreadAll_iff, List.forall_mem_map] at hsa hsb
        rw [core_form_arrow, core_form_arrow]
        have hpart {x : Value} (hx : x ∈ domain :: codomain :: effects) := ha.compared x hx
        have hpart' {x : Value} (hx : x ∈ domain' :: codomain' :: effects') := hb.compared x hx
        refine alike_arrow_iff.2 ⟨of_decide_eq_true hdeferred,
          ih (hpart (by simp)) (hpart' (by simp)) hsa.1 hsb.1 hdomain,
          ih (hpart (by simp)) (hpart' (by simp)) hsa.2.1 hsb.2.1 hcodomain,
          members_of_left hsa.2.2.1 (of_decide_eq_true hlength) fun t ht => ?_,
          congrArg _ (of_decide_eq_true htail)⟩
        obtain ⟨u, hu, hequal⟩ := List.any_eq_true.1 (List.all_eq_true.1 hall t ht)
        exact ⟨u, hu, ih (hpart (by simp [ht])) (hpart' (by simp [hu])) (hsa.2.2.2 t ht) (hsb.2.2.2 u hu) hequal⟩
      | extended inner members => exact hright hb hsb h
      | _ => cases h
    | typeVariable id =>
      cases b with
      | typeVariable id' =>
        obtain rfl := of_decide_eq_true h
        exact .typeVariable _
      | extended inner members => exact hright hb hsb h
      | _ => cases h
    | forAll bound body =>
      cases b with
      | forAll bound' body' =>
        have hbody := ha.compared body List.mem_cons_self
        have hbody' := hb.compared body' List.mem_cons_self
        obtain ⟨hfresh, hfresh'⟩ := freshTypeVariable_spec body body'
        obtain ⟨s, hs, hform, hsound, -⟩ := substitute_fresh (equalWithin hash n) bound hbody hfresh
        obtain ⟨s', hs', hform', hsound', -⟩ := substitute_fresh (equalWithin hash n) bound' hbody' hfresh'
        unfold equalWithin at h
        simp only [hs, hs'] at h
        have hnot := not_mem_core_form bound hbody hfresh
        have hnot' := not_mem_core_form bound' hbody' hfresh'
        have hspread : Spread (core (form [bound] body)) := hsa
        have hspread' : Spread (core (form [bound'] body')) := hsb
        have halike := ih hsound hsound' (by rw [hform, core_openAt]; exact hspread.openAt hnot 0)
          (by rw [hform', core_openAt]; exact hspread'.openAt hnot' 0) h
        rw [hform, hform', core_openAt, core_openAt] at halike
        exact .forAll (alike_of_openAt halike hnot hnot')
      | extended inner members => exact hright hb hsb h
      | _ => cases h
    | effect id name operations host =>
      cases b with
      | effect id' name' operations' host' =>
        obtain rfl := of_decide_eq_true h
        rw [form_effect, form_effect]
        exact .effect id
      | extended inner members => exact hright hb hsb h
      | _ => cases h
    | operation of name =>
      cases b with
      | operation of' name' =>
        obtain ⟨hname, hid⟩ := Bool.and_eq_true_iff.1 h
        obtain rfl := of_decide_eq_true hname
        have heffect := ha.plain
        have heffect' := hb.plain
        cases of with
        | effect id name operations host =>
          cases of' with
          | effect id' name' operations' host' =>
            obtain rfl := Option.some.inj (of_decide_eq_true hid)
            rw [form_operation, form_operation, form_effect, form_effect]
            exact .operation _ (.effect id)
          | _ => cases heffect'
        | _ => cases heffect
      | extended inner members => exact hright hb hsb h
      | _ => cases h

/-! ### Agreeing values are equal -/

theorem length_eq_of_fields {fields fields' : List (String × Value)} (hnodup : (fields.map Prod.fst).Nodup)
    (hnodup' : (fields'.map Prod.fst).Nodup)
    (h : Fields true (fields.map fun p => (p.1, core (form [] p.2))) (fields'.map fun p => (p.1, core (form [] p.2)))) :
    fields.length = fields'.length := by
  have hmem (name : String) : name ∈ fields.map Prod.fst ↔ name ∈ fields'.map Prod.fst := by
    constructor
    · intro hname
      obtain ⟨p, hp, rfl⟩ := List.mem_map.1 hname
      obtain ⟨G, hG, hname, -⟩ := h.1 _ (List.mem_map_of_mem hp)
      obtain ⟨q, hq, rfl⟩ := List.mem_map.1 hG
      exact List.mem_map.2 ⟨q, hq, hname⟩
    · intro hname
      obtain ⟨q, hq, rfl⟩ := List.mem_map.1 hname
      obtain ⟨F, hF, hname, -⟩ := h.2 _ (List.mem_map_of_mem hq)
      obtain ⟨p, hp, rfl⟩ := List.mem_map.1 hF
      exact List.mem_map.2 ⟨p, hp, hname⟩
  simpa using ((List.perm_ext_iff_of_nodup hnodup hnodup').2 hmem).length_eq

theorem equalWithin_of_alike {n : ℕ} {a b : Value} (ha : Sound true a) (hb : Sound true b)
    (h : Alike true (core (form [] a)) (core (form [] b))) (hn : a.size + b.size ≤ n) :
    equalWithin hash n a b = true := by
  induction n generalizing a b with
  | zero =>
    have hpos := a.size_pos
    omega
  | succ n ih =>
    have hright {inner : Value} {members : List (String × Value)} (hb : Sound true (.extended inner members))
        (h : Alike true (core (form [] a)) (core (form [] (.extended inner members))))
        (hn : a.size + (Term.extended inner members).size ≤ n + 1) : equalWithin hash n a inner = true := by
      rw [size] at hn
      exact ih (b := inner) ha (hb.compared inner List.mem_cons_self) h (by omega)
    cases a with
    | extended inner members =>
      rw [size] at hn
      exact ih (a := inner) (ha.compared inner List.mem_cons_self) hb h (by omega)
    | scalar value =>
      cases b with
      | scalar value' =>
        cases h
        exact decide_eq_true rfl
      | extended inner members => exact hright hb h hn
      | _ => cases h
    | function identity => exact absurd ha.plain id
    | shape fields =>
      cases b with
      | shape fields' =>
        rw [size, size] at hn
        rw [core_form_shape, core_form_shape] at h
        have hfields := alike_shape_iff.1 h
        refine Bool.and_eq_true_iff.2 ⟨decide_eq_true (length_eq_of_fields ha.plain hb.plain hfields),
          List.all_eq_true.2 fun p hp => ?_⟩
        obtain ⟨G, hG, hname, halike⟩ := hfields.1 _ (List.mem_map_of_mem hp)
        obtain ⟨q, hq, rfl⟩ := List.mem_map.1 hG
        dsimp only at hname halike
        have hle := size_le_sizeFields hp
        have hle' := size_le_sizeFields hq
        exact (Option.any_eq_true _ _).2 ⟨q.2, hname ▸ Support.Table.lookup_of_mem hb.plain hq,
          ih (ha.compared p.2 (List.mem_map_of_mem hp)) (hb.compared q.2 (List.mem_map_of_mem hq)) halike (by omega)⟩
      | extended inner members => exact hright hb h hn
      | _ => cases h
    | array elements =>
      cases b with
      | array elements' =>
        rw [size, size] at hn
        rw [core_form_array, core_form_array] at h
        cases h with
        | array length elements =>
          rw [List.zip_map] at elements
          refine Bool.and_eq_true_iff.2 ⟨decide_eq_true (by simpa using length), List.all_eq_true.2 fun p hp => ?_⟩
          obtain ⟨hx, hy⟩ := List.of_mem_zip hp
          have hle := size_le_sizeAll hx
          have hle' := size_le_sizeAll hy
          exact ih (ha.compared p.1 hx) (hb.compared p.2 hy) (List.forall_mem_map.1 elements p hp) (by omega)
      | emptyArray element =>
        rw [core_form_array] at h
        cases h with
        | array length _ => exact List.isEmpty_iff.2 (by simpa using length)
      | extended inner members => exact hright hb h hn
      | _ => cases h
    | scratch values capacity =>
      cases b with
      | scratch values' capacity' =>
        rw [size, size] at hn
        rw [core_form_scratch, core_form_scratch] at h
        cases h with
        | scratch _ length elements =>
          rw [List.zip_map] at elements
          refine Bool.and_eq_true_iff.2 ⟨Bool.and_eq_true_iff.2 ⟨decide_eq_true rfl,
            decide_eq_true (by simpa using length)⟩, List.all_eq_true.2 fun p hp => ?_⟩
          obtain ⟨hx, hy⟩ := List.of_mem_zip hp
          have hle := size_le_sizeAll hx
          have hle' := size_le_sizeAll hy
          exact ih (ha.compared p.1 hx) (hb.compared p.2 hy) (List.forall_mem_map.1 elements p hp) (by omega)
      | extended inner members => exact hright hb h hn
      | _ => cases h
    | wrapped kind inner =>
      cases b with
      | wrapped kind' inner' =>
        rw [size, size] at hn
        cases h with
        | wrapped _ hinner =>
          exact Bool.and_eq_true_iff.2 ⟨decide_eq_true rfl, ih (ha.compared inner List.mem_cons_self)
            (hb.compared inner' List.mem_cons_self) hinner (by omega)⟩
      | extended inner members => exact hright hb h hn
      | _ => cases h
    | emptyArray element =>
      cases b with
      | emptyArray element' => rfl
      | array elements' =>
        rw [core_form_array] at h
        cases h with
        | array length _ => exact List.isEmpty_iff.2 (by simpa using length.symm)
      | extended inner members => exact hright hb h hn
      | _ => cases h
    | range low high domain =>
      cases b with
      | range low' high' domain' =>
        rw [size, size] at hn
        rw [form_range, form_range, core, core, rangeDomain_core ha.plain, rangeDomain_core hb.plain] at h
        generalize hdomain : rangeDomain low high domain = found at h
        generalize hdomain' : rangeDomain low' high' domain' = found' at h
        cases h with
        | range _ hlow hhigh =>
          refine Bool.and_eq_true_iff.2 ⟨Bool.and_eq_true_iff.2 ⟨decide_eq_true (hdomain.trans hdomain'.symm), ?_⟩, ?_⟩
          · exact ih (ha.compared low List.mem_cons_self) (hb.compared low' List.mem_cons_self) hlow (by omega)
          · exact ih (ha.compared high (List.mem_cons_of_mem _ List.mem_cons_self))
              (hb.compared high' (List.mem_cons_of_mem _ List.mem_cons_self)) hhigh (by omega)
      | extended inner members => exact hright hb h hn
      | _ => cases h
    | union members =>
      cases b with
      | union members' =>
        rw [size, size] at hn
        rw [core_form_union, core_form_union] at h
        obtain ⟨length, hleft, -⟩ := alike_union_iff.1 h
        refine Bool.and_eq_true_iff.2 ⟨decide_eq_true (by simpa using length rfl), List.all_eq_true.2 fun t ht => ?_⟩
        obtain ⟨F, hF, halike⟩ := hleft _ (List.mem_map_of_mem ht)
        obtain ⟨u, hu, rfl⟩ := List.mem_map.1 hF
        have ht' := ha.compared t ht
        have hu' := hb.compared u hu
        have hle := size_le_sizeAll ht
        have hle' := size_le_sizeAll hu
        refine containsEqual_of hu (ih hu' ht' halike.symm (by omega)) ?_
        rw [← fingerprint_core hu', ← fingerprint_core ht', fingerprint_of_alike halike]
      | extended inner members => exact hright hb h hn
      | _ => cases h
    | arrow deferred domain codomain effects effectTail =>
      cases b with
      | arrow deferred' domain' codomain' effects' effectTail' =>
        rw [size, size] at hn
        rw [core_form_arrow, core_form_arrow] at h
        obtain ⟨rfl, hdomain, hcodomain, ⟨length, hleft, -⟩, htail⟩ := alike_arrow_iff.1 h
        have hpart {x : Value} (hx : x ∈ domain :: codomain :: effects) := ha.compared x hx
        have hpart' {x : Value} (hx : x ∈ domain' :: codomain' :: effects') := hb.compared x hx
        have hfree : Function.Injective (resolve []) := fun _ _ heq => Name.free.inj heq
        obtain rfl := Option.map_injective hfree htail
        unfold equalWithin
        simp only [Bool.and_eq_true, decide_eq_true_eq, true_and, List.all_eq_true, List.any_eq_true]
        refine ⟨⟨⟨⟨ih (hpart (by simp)) (hpart' (by simp)) hdomain (by omega),
          ih (hpart (by simp)) (hpart' (by simp)) hcodomain (by omega)⟩, trivial⟩, by simpa using length rfl⟩,
          fun t ht => ?_⟩
        obtain ⟨F, hF, halike⟩ := hleft _ (List.mem_map_of_mem ht)
        obtain ⟨u, hu, rfl⟩ := List.mem_map.1 hF
        have hle := size_le_sizeAll ht
        have hle' := size_le_sizeAll hu
        exact ⟨u, hu, ih (hpart (by simp [ht])) (hpart' (by simp [hu])) halike (by omega)⟩
      | extended inner members => exact hright hb h hn
      | _ => cases h
    | typeVariable id =>
      cases b with
      | typeVariable id' =>
        cases h
        exact decide_eq_true rfl
      | extended inner members => exact hright hb h hn
      | _ => cases h
    | forAll bound body =>
      cases b with
      | forAll bound' body' =>
        rw [size, size] at hn
        have hbody := ha.compared body List.mem_cons_self
        have hbody' := hb.compared body' List.mem_cons_self
        obtain ⟨hfresh, hfresh'⟩ := freshTypeVariable_spec body body'
        obtain ⟨s, hs, hform, hsound, hsize⟩ := substitute_fresh (equalWithin hash n) bound hbody hfresh
        obtain ⟨s', hs', hform', hsound', hsize'⟩ := substitute_fresh (equalWithin hash n) bound' hbody' hfresh'
        unfold equalWithin
        simp only [hs, hs']
        rw [form_forAll, form_forAll, core, core] at h
        cases h with
        | forAll halike =>
          refine ih hsound hsound' ?_ (by omega)
          rw [hform, hform', core_openAt, core_openAt]
          exact halike.walk _ _ 0
      | extended inner members => exact hright hb h hn
      | _ => cases h
    | effect id name operations host =>
      cases b with
      | effect id' name' operations' host' =>
        rw [form_effect, form_effect, core, core] at h
        cases h
        exact decide_eq_true rfl
      | extended inner members => exact hright hb h hn
      | _ => cases h
    | operation of name =>
      cases b with
      | operation of' name' =>
        rw [form_operation, form_operation, core, core] at h
        cases h with
        | operation _ hof =>
          have heffect := ha.plain
          have heffect' := hb.plain
          cases of with
          | effect id name operations host =>
            cases of' with
            | effect id' name' operations' host' =>
              have hid : some id = some id' := effectId_of_alike hof
              exact Bool.and_eq_true_iff.2 ⟨decide_eq_true rfl, decide_eq_true hid⟩
            | _ => cases heffect'
          | _ => cases heffect
      | extended inner members => exact hright hb h hn
      | _ => cases h

/-! ### Equality is agreement -/

/-- Agreement of type values: their forms agree. -/
def Agree (a b : Value) : Prop := Alike false (core (form [] a)) (core (form [] b))

theorem agree_equivalence : Equivalence Agree where
  refl _ := alike_refl false _
  symm := Alike.symm
  trans := Alike.trans

structure Settled (a : Value) : Prop where
  sound : Sound true a
  spread : Spread (core (form [] a))

/-- **Equality is agreement** of settled values. -/
theorem equal_iff {a b : Value} (ha : Settled a) (hb : Settled b) : equal hash a b = true ↔ Agree a b := by
  constructor
  · exact fun h => (alike_of_equalWithin ha.sound hb.sound ha.spread hb.spread h).loosen
  · exact fun h => equalWithin_of_alike ha.sound hb.sound (h.count ha.spread hb.spread) (Nat.le_refl _)

theorem equalWithin_effect {n : ℕ} {seen : Value} (hn : seen.size ≤ n) (id : ℕ) (name : String)
    (operations : List (String × Value)) (host : Bool) :
    equalWithin hash n seen (.effect id name operations host) = decide (effectId seen.bare = some id) := by
  cases n with
  | zero =>
    have hpos := seen.size_pos
    omega
  | succ n =>
    induction seen using induct generalizing n with
    | extended inner members ih =>
      rw [size] at hn
      cases n with
      | zero =>
        have hpos := inner.size_pos
        omega
      | succ n => exact ih n (by omega)
    | effect id' name' operations' host' =>
      simp only [bare, effectId, Option.some.injEq]
      rfl
    | _ => rfl

theorem equal_effect (seen effect : Value) (h : isEffect effect = true) :
    equal hash seen effect = sameEffect seen effect := by
  cases effect with
  | effect id name operations host => exact equalWithin_effect (Nat.le_add_right _ _) id name operations host
  | _ => cases h

theorem replacesTails_equal (replacement : Value) : ReplacesTails (equal hash) replacement :=
  replaceTail_form equal_effect replacement

end Equal

end Term

end Blot.TypeValues
