import Blot.TypeValues.Substitute

/-!
# Sound type values

What equality relies on: no values of functions, distinct field names, operations of effects, closed values in builders.

* `Sound` — the condition, in the parts that equality compares and in those it does not;
* `Sound.substitute` — substitution keeps it;
* `substitutable_fresh`, `free_collect` — a fresh variable can be substituted for any other.
-/

namespace Blot.TypeValues

namespace Term

/-! ### Parts -/

def compared {β ν : Type} : Term β ν → List (Term β ν)
  | .shape fields => fields.map Prod.snd
  | .array elements => elements
  | .scratch values _ => values
  | .wrapped _ inner => [inner]
  | .range low high _ => [low, high]
  | .union members => members
  | .arrow _ domain codomain effects _ => domain :: codomain :: effects
  | .forAll _ body => [body]
  | .extended inner _ => [inner]
  | .scalar _ | .function _ | .typeVariable _ | .emptyArray _ | .effect _ _ _ _ | .operation _ _ => []

def hidden : Value → List Value
  | .emptyArray element => [element]
  | .effect _ _ operations _ => operations.map Prod.snd
  | .operation of _ => [of]
  | .extended _ members => members.map Prod.snd
  | _ => []

/-- What equality relies on at a value it compares; a text that bounds a range without a domain carries no attached
members. -/
def Plain : Value → Prop
  | .function _ => False
  | .shape fields => (fields.map Prod.fst).Nodup
  | .range low high none => low.bare.isText = low.isText ∧ high.bare.isText = high.isText
  | .operation of _ => isEffect of = true
  | _ => True

def Sealed : Value → Prop
  | .scratch values _ => ∀ x ∈ values, ∀ y, ¬ Free y x
  | _ => True

/-- A value on which equality can rely, if it compares it. -/
inductive Sound : Bool → Value → Prop where
  | intro {visible : Bool} {a : Value} (plain : visible = true → Plain a) (closed : Sealed a)
      (compared : ∀ b ∈ compared a, Sound visible b) (hidden : ∀ b ∈ hidden a, Sound false b) : Sound visible a

inductive Determined (x : ℕ) : Form → Prop where
  | intro {F : Form}
      (here : ∀ low high, F = .range low high none →
        low.bare ≠ .typeVariable (.free x) ∧ high.bare ≠ .typeVariable (.free x))
      (parts : ∀ G ∈ compared F, Determined x G) : Determined x F

variable {visible : Bool} {a b s replacement : Value} {target : ℕ} {same : Value → Value → Bool}

theorem Sound.plain (h : Sound true a) : Plain a := by
  cases h with
  | intro plain _ _ _ => exact plain rfl

theorem Sound.closed (h : Sound visible a) : Sealed a := by
  cases h with
  | intro _ closed _ _ => exact closed

theorem Sound.compared (h : Sound visible a) : ∀ b ∈ Term.compared a, Sound visible b := by
  cases h with
  | intro _ _ compared _ => exact compared

theorem Sound.hidden (h : Sound visible a) : ∀ b ∈ Term.hidden a, Sound false b := by
  cases h with
  | intro _ _ _ hidden => exact hidden

/-- A sound value is sound where it is passed over. -/
theorem Sound.weaken (h : Sound visible a) : Sound false a := by
  induction h with
  | intro _ closed _ hidden ih _ => exact .intro nofun closed ih hidden

section Determined

variable {x : ℕ} {F : Form}

theorem Determined.here (h : Determined x F) :
    ∀ low high, F = .range low high none →
      low.bare ≠ .typeVariable (.free x) ∧ high.bare ≠ .typeVariable (.free x) := by
  cases h with
  | intro here _ => exact here

theorem Determined.parts (h : Determined x F) : ∀ G ∈ Term.compared F, Determined x G := by
  cases h with
  | intro _ parts => exact parts

end Determined

/-! ### Heads -/

theorem Substitutes.isEffect (h : Substitutes target replacement same a s) (ha : a.isEffect = true) :
    s.isEffect = true := by
  cases h with
  | unchanged => exact ha
  | effect id name host names values => rfl
  | _ => cases ha

/-- A bound is a text after the substitution if it was one, unless it is the variable and is given a text. -/
theorem Substitutes.bare_isText (h : Substitutes target replacement same a s)
    (ha : replacement.bare.isText = true → a.bare ≠ .typeVariable target) : s.bare.isText = a.bare.isText := by
  induction h with
  | replaced => exact Bool.eq_false_iff.2 fun htext => ha htext rfl
  | extended _ _ _ ih => exact ih ha
  | _ => rfl

theorem Substitutes.isText (h : Substitutes target replacement same a s)
    (ha : replacement.bare.isText = true → a.bare ≠ .typeVariable target) (htext : a.bare.isText = a.isText) :
    s.bare.isText = s.isText := by
  have hbare := h.bare_isText ha
  cases h with
  | unchanged => exact htext
  | replaced =>
    have hno : ¬ s.bare.isText = true := fun htext => ha htext rfl
    have hno' : ¬ Term.isText s = true := by
      intro h
      cases s with
      | scalar value => exact hno h
      | _ => cases h
    rw [Bool.eq_false_iff.2 hno, Bool.eq_false_iff.2 hno']
  | extended inner names values =>
    rw [hbare, htext]
    rfl
  | _ => rfl

/-! ### Substitution -/

theorem forall_of_zip_fields {Q R : Value → Prop} {fields fields' : List (String × Value)}
    (names : fields'.map Prod.fst = fields.map Prod.fst) (h : ∀ p ∈ fields.zip fields', Q p.1.2 → R p.2.2)
    (hQ : ∀ t ∈ fields.map Prod.snd, Q t) : ∀ u ∈ fields'.map Prod.snd, R u := by
  have hlength : (fields.map Prod.snd).length = (fields'.map Prod.snd).length := by
    simpa using (congrArg List.length names).symm
  refine forall_of_zip hlength ?_ hQ
  rw [List.zip_map]
  exact List.forall_mem_map.2 h

theorem Sound.bare (h : Sound visible a) : Sound visible a.bare := by
  induction a using induct with
  | extended inner members ih => exact ih (h.compared inner List.mem_cons_self)
  | _ => exact h

theorem mem_pushEffects {α : Type} {same : α → α → Bool} {effects additional : List α} {e : α}
    (h : e ∈ pushEffects same effects additional) : e ∈ effects ∨ e ∈ additional := by
  unfold pushEffects at h
  induction additional generalizing effects with
  | nil => exact .inl h
  | cons effect additional ih =>
    rw [List.foldl_cons] at h
    obtain h | h := ih h
    · split at h
      · exact .inl h
      · rw [List.mem_append, List.mem_singleton] at h
        obtain h | rfl := h
        · exact .inl h
        · exact .inr List.mem_cons_self
    · exact .inr (List.mem_cons_of_mem _ h)

theorem sound_replaceTail {effects : List Value} {row : List Value × Option ℕ}
    (h : replaceTail same effects replacement = some row) (heffects : ∀ e ∈ effects, Sound visible e)
    (hr : Sound visible replacement) : ∀ e ∈ row.1, Sound visible e := by
  have hbare := hr.bare
  unfold replaceTail at h
  cases hcase : replacement.bare with
  | typeVariable id =>
    rw [hcase] at h
    obtain rfl := Option.some.inj h
    exact heffects
  | effect id name operations host =>
    rw [hcase] at h hbare
    obtain rfl := Option.some.inj h
    intro e he
    obtain he | he := mem_pushEffects he
    · exact heffects e he
    · exact List.mem_singleton.1 he ▸ hbare
  | array members =>
    rw [hcase] at h hbare
    dsimp only at h
    split at h
    · obtain rfl := Option.some.inj h
      intro e he
      exact (mem_pushEffects he).elim (heffects e) (hbare.compared e)
    · cases h
  | _ =>
    rw [hcase] at h
    cases h

theorem bare_ne_of_form {binders : List ℕ} (htarget : target ∉ binders)
    (h : (form binders a).bare ≠ .typeVariable (.free target)) : a.bare ≠ .typeVariable target := by
  intro heq
  rw [bare_form, heq, form_typeVariable, resolve_eq_free.2 ⟨rfl, htarget⟩] at h
  exact h rfl

/-- A sound value, under binders, in which the target bounds no range where the replacement is a text. -/
structure Ready (visible : Bool) (target : ℕ) (replacement : Value) (binders : List ℕ) (a : Value) : Prop where
  sound : Sound visible a
  determined : visible = true → replacement.bare.isText = true → Determined target (form binders a)

theorem Ready.compared {binders : List ℕ} (h : Ready visible target replacement binders a)
    (hforall : ∀ bound body, a ≠ .forAll bound body) :
    ∀ b ∈ Term.compared a, Ready visible target replacement binders b := by
  refine fun b hb => ⟨h.sound.compared b hb, fun hv htext => (h.determined hv htext).parts _ ?_⟩
  have hform := List.mem_map_of_mem (f := form binders) hb
  cases a with
  | forAll bound body => exact absurd rfl (hforall bound body)
  | scalar _ | function _ | typeVariable _ | emptyArray _ | effect _ _ _ _ | operation _ _ => cases hb
  | _ => simpa [Term.compared] using hform

theorem Ready.hidden {binders : List ℕ} (h : Ready visible target replacement binders a) :
    ∀ b ∈ Term.hidden a, Ready false target replacement binders b :=
  fun b hb => ⟨h.sound.hidden b hb, nofun⟩

/-- **Substitution keeps soundness.** -/
theorem Sound.substitutes (h : Substitutes target replacement same a s) (ha : Sound visible a)
    (hr : Sound true replacement) {binders : List ℕ} (htarget : target ∉ binders)
    (hd : visible = true → replacement.bare.isText = true → Determined target (form binders a)) :
    Sound visible s := by
  have hr' (visible : Bool) : Sound visible replacement := by
    cases visible with
    | true => exact hr
    | false => exact hr.weaken
  have hready : Ready visible target replacement binders a := ⟨ha, hd⟩
  clear ha hd
  induction h generalizing visible binders with
  | unchanged a => exact hready.sound
  | replaced => exact hr' visible
  | shape names values ih =>
    refine .intro ?_ trivial ?_ nofun
    · rintro rfl
      have hplain := hready.sound.plain
      rw [Plain, ← names] at hplain
      exact hplain
    · exact forall_of_zip_fields names (fun p hp ht => ih p hp htarget ht) (hready.compared nofun)
  | array length elements ih =>
    refine .intro (fun _ => trivial) trivial ?_ nofun
    exact forall_of_zip length (fun p hp ht => ih p hp htarget ht) (hready.compared nofun)
  | wrapped kind _ ih =>
    refine .intro (fun _ => trivial) trivial (List.forall_mem_singleton.2 ?_) nofun
    exact ih htarget (hready.compared nofun _ List.mem_cons_self)
  | emptyArray _ ih =>
    refine .intro (fun _ => trivial) trivial nofun (List.forall_mem_singleton.2 ?_)
    exact ih htarget (hready.hidden _ List.mem_cons_self)
  | @range low low' high high' domain hlow hhigh ihl ihh =>
    obtain ⟨hlows, hhighs⟩ := List.forall_mem_cons.1 (hready.compared nofun)
    refine .intro ?_ trivial (List.forall_mem_cons.2 ⟨ihl htarget hlows, List.forall_mem_singleton.2 ?_⟩) nofun
    · rintro rfl
      cases domain with
      | some domain => trivial
      | none =>
        have hplain := hready.sound.plain
        have hnone := fun htext => (hready.determined rfl htext).here _ _ rfl
        exact ⟨hlow.isText (fun htext => bare_ne_of_form htarget (hnone htext).1) hplain.1,
          hhigh.isText (fun htext => bare_ne_of_form htarget (hnone htext).2) hplain.2⟩
    · exact ihh htarget (hhighs _ List.mem_cons_self)
  | union length members ih =>
    refine .intro (fun _ => trivial) trivial ?_ nofun
    exact forall_of_zip length (fun p hp ht => ih p hp htarget ht) (hready.compared nofun)
  | arrow deferred htail _ _ length _ ihd ihc ih =>
    obtain ⟨hdomain, hrest⟩ := List.forall_mem_cons.1 (hready.compared nofun)
    obtain ⟨hcodomain, heffects⟩ := List.forall_mem_cons.1 hrest
    refine .intro (fun _ => trivial) trivial (List.forall_mem_cons.2 ⟨ihd htarget hdomain, List.forall_mem_cons.2
      ⟨ihc htarget hcodomain, ?_⟩⟩) nofun
    exact forall_of_zip length (fun p hp ht => ih p hp htarget ht) heffects
  | tail deferred hrow _ _ length _ ihd ihc ih =>
    obtain ⟨hdomain, hrest⟩ := List.forall_mem_cons.1 (hready.compared nofun)
    obtain ⟨hcodomain, heffects⟩ := List.forall_mem_cons.1 hrest
    refine .intro (fun _ => trivial) trivial (List.forall_mem_cons.2 ⟨ihd htarget hdomain, List.forall_mem_cons.2
      ⟨ihc htarget hcodomain, ?_⟩⟩) nofun
    exact sound_replaceTail hrow (forall_of_zip length (fun p hp ht => ih p hp htarget ht) heffects) (hr' visible)
  | @forAll body body' bound hbound _ ih =>
    refine .intro (fun _ => trivial) trivial (List.forall_mem_singleton.2 ?_) nofun
    have hnot : target ∉ bound :: binders := by
      rw [List.mem_cons, not_or]
      exact ⟨hbound.symm, htarget⟩
    exact ih hnot ⟨hready.sound.compared _ List.mem_cons_self, fun hv htext =>
      (hready.determined hv htext).parts _ List.mem_cons_self⟩
  | effect id name host names values ih =>
    refine .intro (fun _ => trivial) trivial nofun ?_
    exact forall_of_zip_fields names (fun p hp ht => ih p hp htarget ht) hready.hidden
  | operation name hof ih =>
    refine .intro ?_ trivial nofun (List.forall_mem_singleton.2 (ih htarget (hready.hidden _ List.mem_cons_self)))
    rintro rfl
    exact hof.isEffect hready.sound.plain
  | extended _ names values ih ihm =>
    refine .intro (fun _ => trivial) trivial (List.forall_mem_singleton.2 ?_) ?_
    · exact ih htarget (hready.compared nofun _ List.mem_cons_self)
    · exact forall_of_zip_fields names (fun p hp ht => ihm p hp htarget ht) hready.hidden

/-! ### Fresh variables -/

theorem ind {P : Value → Prop} (h : ∀ a, (∀ b ∈ parts a, P b) → P a) (a : Value) : P a := by
  have hfields {fields : List (String × Value)} (ih : ∀ p ∈ fields, P p.2) : ∀ b ∈ fields.map Prod.snd, P b :=
    List.forall_mem_map.2 ih
  induction a using induct with
  | scalar value | function identity | typeVariable id => exact h _ nofun
  | shape fields ih | effect id name operations host ih => exact h _ (hfields ih)
  | array elements ih | scratch values capacity ih | union members ih => exact h _ ih
  | wrapped kind inner ih | emptyArray element ih | forAll bound body ih | operation of name ih =>
    exact h _ (List.forall_mem_singleton.2 ih)
  | range low high domain ihl ihh => exact h _ (List.forall_mem_cons.2 ⟨ihl, List.forall_mem_singleton.2 ihh⟩)
  | arrow deferred domain codomain effects effectTail ihd ihc ih =>
    exact h _ (List.forall_mem_cons.2 ⟨ihd, List.forall_mem_cons.2 ⟨ihc, ih⟩⟩)
  | extended inner members ih ihm => exact h _ (List.forall_mem_cons.2 ⟨ih, hfields ihm⟩)

theorem parts_subset : parts a ⊆ compared a ++ hidden a := by
  cases a with
  | extended inner members => exact fun _ h => h
  | _ => simp [parts, compared, hidden]

theorem Sound.parts (h : Sound visible a) : ∀ b ∈ Term.parts a, Sound false b := by
  intro b hb
  obtain hb | hb := List.mem_append.1 (parts_subset hb)
  · exact (h.compared b hb).weaken
  · exact h.hidden b hb

@[simp] theorem collectAll_eq (ts : List Value) : collectAll ts = ts.flatMap collectTypeVariables := by
  induction ts with
  | nil => rfl
  | cons t ts ih => rw [collectAll, ih, List.flatMap_cons]

@[simp] theorem collectFields_eq (fields : List (String × Value)) :
    collectFields fields = (fields.map Prod.snd).flatMap collectTypeVariables := by
  induction fields with
  | nil => rfl
  | cons p fields ih => rw [collectFields, ih, List.map_cons, List.flatMap_cons]

theorem collect_parts (h : b ∈ Term.parts a) (hscratch : ∀ values capacity, a ≠ .scratch values capacity) :
    collectTypeVariables b ⊆ collectTypeVariables a := by
  intro x hx
  cases a with
  | scratch values capacity => exact absurd rfl (hscratch values capacity)
  | shape fields | effect _ _ fields _ =>
    rw [collectTypeVariables, collectFields_eq, List.mem_flatMap]
    exact ⟨b, h, hx⟩
  | array elements | union elements =>
    rw [collectTypeVariables, collectAll_eq, List.mem_flatMap]
    exact ⟨b, h, hx⟩
  | wrapped _ inner | emptyArray inner | operation inner _ => exact List.mem_singleton.1 h ▸ hx
  | forAll bound body => exact List.mem_cons_of_mem _ (List.mem_singleton.1 h ▸ hx)
  | range low high domain =>
    rw [collectTypeVariables, List.mem_append]
    simp only [Term.parts, List.mem_cons, List.not_mem_nil, or_false] at h
    obtain rfl | rfl := h
    · exact .inl hx
    · exact .inr hx
  | arrow deferred domain codomain effects effectTail =>
    simp only [collectTypeVariables, collectAll_eq, List.mem_append, List.mem_flatMap]
    simp only [Term.parts, List.mem_cons] at h
    obtain rfl | rfl | h := h
    · exact .inl (.inl (.inl hx))
    · exact .inl (.inl (.inr hx))
    · exact .inl (.inr ⟨b, h, hx⟩)
  | extended inner members =>
    simp only [collectTypeVariables, collectFields_eq, List.mem_append, List.mem_flatMap]
    simp only [Term.parts, List.mem_cons] at h
    obtain rfl | h := h
    · exact .inl hx
    · exact .inr ⟨b, h, hx⟩
  | scalar _ | function _ | typeVariable _ => cases h

theorem collect_entered (h : b ∈ entered target a) : collectTypeVariables b ⊆ collectTypeVariables a := by
  refine collect_parts (mem_parts_of_mem_entered h) ?_
  rintro values capacity rfl
  cases h

theorem free_typeVariable {x id : ℕ} : Free x (.typeVariable id) ↔ x = id := by
  simp [Free, occurrences]

theorem substitutable_fresh {f : ℕ} (h : Sound visible a) (hf : f ∉ collectTypeVariables a) :
    Substitutable target (.typeVariable f) a := by
  induction a using ind generalizing visible with
  | h a ih =>
    refine .intro ?_ fun b hb => ih b (mem_parts_of_mem_entered hb) (h.parts b (mem_parts_of_mem_entered hb))
      fun hx => hf (collect_entered hb hx)
    cases a with
    | scratch values capacity => exact fun x hx => h.closed x hx target
    | forAll bound body =>
      rintro - - hfree
      obtain rfl := free_typeVariable.1 hfree
      exact hf List.mem_cons_self
    | _ => trivial

theorem Free.cases {x : ℕ} (h : Free x a) :
    (∃ b ∈ Term.parts a, Free x b) ∨ a = .typeVariable x ∨
      ∃ deferred domain codomain effects, a = .arrow deferred domain codomain effects (some x) := by
  unfold Free at h
  cases a with
  | scalar value => simp [occurrences] at h
  | function identity => simp [occurrences] at h
  | shape fields | effect _ _ fields _ =>
    simp only [form_shape, form_effect, occurrences, mem_occurrencesFields, List.mem_map,
      exists_exists_and_eq_and] at h
    obtain ⟨p, hp, hx⟩ := h
    exact .inl ⟨p.2, List.mem_map_of_mem hp, hx⟩
  | array elements | union elements | scratch elements _ =>
    simp only [form_array, form_union, form_scratch, occurrences, mem_occurrencesAll, List.mem_map,
      exists_exists_and_eq_and] at h
    exact .inl h
  | wrapped _ inner | emptyArray inner | operation inner _ => exact .inl ⟨inner, List.mem_cons_self, h⟩
  | range low high domain =>
    simp only [form_range, occurrences, List.mem_append] at h
    exact .inl (h.elim (fun h => ⟨low, List.mem_cons_self, h⟩)
      fun h => ⟨high, List.mem_cons_of_mem _ List.mem_cons_self, h⟩)
  | arrow deferred domain codomain effects effectTail =>
    simp only [form_arrow, occurrences, List.mem_append, mem_occurrencesAll, List.mem_map,
      exists_exists_and_eq_and] at h
    obtain ((h | h) | ⟨e, he, h⟩) | h := h
    · exact .inl ⟨domain, List.mem_cons_self, h⟩
    · exact .inl ⟨codomain, List.mem_cons_of_mem _ List.mem_cons_self, h⟩
    · exact .inl ⟨e, List.mem_cons_of_mem _ (List.mem_cons_of_mem _ he), h⟩
    · cases effectTail with
      | none => cases h
      | some id =>
        obtain rfl : x = id := by simpa using h
        exact .inr (.inr ⟨_, _, _, _, rfl⟩)
  | typeVariable id =>
    obtain rfl := free_typeVariable.1 h
    exact .inr (.inl rfl)
  | forAll bound body =>
    rw [form_forAll] at h
    exact .inl ⟨body, List.mem_cons_self, (mem_form.1 (show .free x ∈ (form [bound] body).occurrences from h)).1⟩
  | extended inner members =>
    simp only [form_extended, occurrences, List.mem_append, mem_occurrencesFields, List.mem_map,
      exists_exists_and_eq_and] at h
    obtain h | ⟨p, hp, hx⟩ := h
    · exact .inl ⟨inner, List.mem_cons_self, h⟩
    · exact .inl ⟨p.2, List.mem_cons_of_mem _ (List.mem_map_of_mem hp), hx⟩

theorem free_collect {x : ℕ} (h : Sound visible a) (hx : Free x a) : x ∈ collectTypeVariables a := by
  induction a using ind generalizing visible with
  | h a ih =>
    obtain ⟨b, hb, hfree⟩ | rfl | ⟨deferred, domain, codomain, effects, rfl⟩ := hx.cases
    · refine collect_parts hb ?_ (ih b hb (h.parts b hb) hfree)
      rintro values capacity rfl
      exact h.closed b hb x hfree
    · exact List.mem_cons_self
    · simp [collectTypeVariables]

theorem freshTypeVariable_spec (left right : Value) :
    freshTypeVariable left right ∉ collectTypeVariables left ∧
      freshTypeVariable left right ∉ collectTypeVariables right := by
  have hexists (taken : List ℕ) : ∃ x ∈ List.range (taken.length + 1), decide (x ∉ taken) = true := by
    by_contra hall
    have hsub : List.range (taken.length + 1) ⊆ taken := by
      intro x hx
      by_contra hnot
      exact hall ⟨x, hx, decide_eq_true hnot⟩
    have hle := (List.subperm_of_subset List.nodup_range hsub).length_le
    rw [List.length_range] at hle
    omega
  have hfind := List.find?_isSome.2 (hexists (collectTypeVariables left ++ collectTypeVariables right))
  obtain ⟨x, hx⟩ := Option.isSome_iff_exists.1 hfind
  have hnot : x ∉ collectTypeVariables left ++ collectTypeVariables right := by
    simpa only [decide_eq_true_eq] using List.find?_some hx
  have hfresh : freshTypeVariable left right = x := by
    unfold freshTypeVariable
    dsimp only
    rw [hx, Option.getD_some]
  rw [List.mem_append, not_or] at hnot
  rwa [hfresh]

end Term

end Blot.TypeValues
