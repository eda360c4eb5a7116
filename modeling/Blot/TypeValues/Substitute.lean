import Blot.TypeValues.Instantiate

/-!
# Substitution of a type variable (`substitute_type_variable` in `value.rs`)

* `containsTypeVariables`, `collectTypeVariables`, `freshTypeVariable`, `substituteWith` — the code;
* `Substitutable` — no binder captures a free variable of the replacement;
* `form_substituteWith` — then the form of the result is the instance of the form.
-/

namespace Blot.TypeValues

namespace Term

/-! ### Variables of a value -/

mutual
def containsTypeVariables : Value → Bool
  | .scalar _ | .function _ | .scratch _ _ => false
  | .typeVariable _ | .forAll _ _ => true
  | .shape fields => containsFields fields
  | .array elements => containsAll elements
  | .wrapped _ inner => containsTypeVariables inner
  | .emptyArray element => containsTypeVariables element
  | .range low high _ => containsTypeVariables low || containsTypeVariables high
  | .union members => containsAll members
  | .arrow _ domain codomain effects effectTail =>
    effectTail.isSome || containsTypeVariables domain || containsTypeVariables codomain || containsAll effects
  | .effect _ _ operations _ => containsFields operations
  | .operation of _ => containsTypeVariables of
  | .extended inner members => containsTypeVariables inner || containsFields members
termination_by structural t => t
def containsAll : List Value → Bool
  | [] => false
  | t :: ts => containsTypeVariables t || containsAll ts
termination_by structural ts => ts
def containsFields : List (String × Value) → Bool
  | [] => false
  | (_, t) :: fields => containsTypeVariables t || containsFields fields
termination_by structural fields => fields
end

mutual
def collectTypeVariables : Value → List ℕ
  | .scalar _ | .function _ | .scratch _ _ => []
  | .typeVariable id => [id]
  | .forAll bound body => bound :: collectTypeVariables body
  | .shape fields => collectFields fields
  | .array elements => collectAll elements
  | .wrapped _ inner => collectTypeVariables inner
  | .emptyArray element => collectTypeVariables element
  | .range low high _ => collectTypeVariables low ++ collectTypeVariables high
  | .union members => collectAll members
  | .arrow _ domain codomain effects effectTail =>
    collectTypeVariables domain ++ collectTypeVariables codomain ++ collectAll effects ++ effectTail.toList
  | .effect _ _ operations _ => collectFields operations
  | .operation of _ => collectTypeVariables of
  | .extended inner members => collectTypeVariables inner ++ collectFields members
termination_by structural t => t
def collectAll : List Value → List ℕ
  | [] => []
  | t :: ts => collectTypeVariables t ++ collectAll ts
termination_by structural ts => ts
def collectFields : List (String × Value) → List ℕ
  | [] => []
  | (_, t) :: fields => collectTypeVariables t ++ collectFields fields
termination_by structural fields => fields
end

/-- `fresh_type_variable`: the first number that is no variable of either value. -/
def freshTypeVariable (left right : Value) : ℕ :=
  let taken := collectTypeVariables left ++ collectTypeVariables right
  ((List.range (taken.length + 1)).find? fun candidate => candidate ∉ taken).getD 0

/-! ### Substitution -/

section Substitute

variable (same : Value → Value → Bool)

variable (target : ℕ) (replacement : Value)

def substituteArrow (deferred : Bool) (domain codomain : Value) (effects : List Value) (effectTail : Option ℕ) :
    Option Value :=
  if effectTail ≠ some target then some (.arrow deferred domain codomain effects effectTail)
  else (replaceTail same effects replacement).map fun row => .arrow deferred domain codomain row.1 row.2

mutual
/-- `substitute_type_variable`, over the equality of effects. -/
def substituteWith : Value → Option Value
  | .scalar value => some (.scalar value)
  | .function identity => some (.function identity)
  | .scratch values capacity => some (.scratch values capacity)
  | .typeVariable id => if id = target then some replacement else some (.typeVariable id)
  | .shape fields =>
    if containsFields fields then (substituteFields fields).map .shape else some (.shape fields)
  | .array elements =>
    if containsAll elements then (substituteAll elements).map .array else some (.array elements)
  | .wrapped kind inner =>
    if containsTypeVariables inner then (substituteWith inner).map (.wrapped kind) else some (.wrapped kind inner)
  | .emptyArray element =>
    if containsTypeVariables element then (substituteWith element).map .emptyArray else some (.emptyArray element)
  | .range low high domain =>
    if containsTypeVariables (.range low high domain) then do
      let low ← substituteWith low
      let high ← substituteWith high
      some (.range low high domain)
    else some (.range low high domain)
  | .union members =>
    if containsAll members then (substituteAll members).map .union else some (.union members)
  | .arrow deferred domain codomain effects effectTail =>
    if containsTypeVariables (.arrow deferred domain codomain effects effectTail) then do
      let domain ← substituteWith domain
      let codomain ← substituteWith codomain
      let effects ← substituteAll effects
      substituteArrow same target replacement deferred domain codomain effects effectTail
    else some (.arrow deferred domain codomain effects effectTail)
  | .forAll bound body =>
    if bound ≠ target then (substituteWith body).map (.forAll bound) else some (.forAll bound body)
  | .effect id name operations host =>
    if containsFields operations then (substituteFields operations).map (.effect id name · host)
    else some (.effect id name operations host)
  | .operation of name =>
    if containsTypeVariables of then (substituteWith of).map (.operation · name) else some (.operation of name)
  | .extended inner members =>
    if containsTypeVariables (.extended inner members) then do
      let inner ← substituteWith inner
      let members ← substituteFields members
      some (.extended inner members)
    else some (.extended inner members)
termination_by structural t => t
def substituteAll : List Value → Option (List Value)
  | [] => some []
  | t :: ts => do
    let t ← substituteWith t
    let ts ← substituteAll ts
    some (t :: ts)
termination_by structural ts => ts
def substituteFields : List (String × Value) → Option (List (String × Value))
  | [] => some []
  | (name, t) :: fields => do
    let t ← substituteWith t
    let fields ← substituteFields fields
    some ((name, t) :: fields)
termination_by structural fields => fields
end

end Substitute

@[simp] theorem containsAll_eq (ts : List Value) : containsAll ts = ts.any containsTypeVariables := by
  induction ts with
  | nil => rfl
  | cons t ts ih => rw [containsAll, ih, List.any_cons]

@[simp] theorem containsFields_eq (fields : List (String × Value)) :
    containsFields fields = fields.any fun p => containsTypeVariables p.2 := by
  induction fields with
  | nil => rfl
  | cons p fields ih => rw [containsFields, ih, List.any_cons]

/-! ### Capture -/

def parts : Value → List Value
  | .shape fields => fields.map Prod.snd
  | .array elements => elements
  | .scratch values _ => values
  | .wrapped _ inner => [inner]
  | .emptyArray element => [element]
  | .range low high _ => [low, high]
  | .union members => members
  | .arrow _ domain codomain effects _ => domain :: codomain :: effects
  | .forAll _ body => [body]
  | .effect _ _ operations _ => operations.map Prod.snd
  | .operation of _ => [of]
  | .extended inner members => inner :: members.map Prod.snd
  | .scalar _ | .function _ | .typeVariable _ => []

def entered (target : ℕ) : Value → List Value
  | .scratch _ _ => []
  | .forAll bound body => if bound = target then [] else [body]
  | a => parts a

theorem mem_parts_of_mem_entered {target : ℕ} {a b : Value} (h : b ∈ entered target a) : b ∈ parts a := by
  cases a with
  | scratch values capacity => cases h
  | forAll bound body =>
    rw [entered] at h
    split at h
    · cases h
    · exact h
  | _ => exact h

/-- A binder around the variable does not capture a free variable of the replacement; a builder, whose values are not
entered, does not hold the variable. -/
def Avoids (target : ℕ) (replacement : Value) : Value → Prop
  | .forAll bound body => bound ≠ target → Free target body → ¬ Free bound replacement
  | .scratch values _ => ∀ x ∈ values, ¬ Free target x
  | _ => True

inductive Substitutable (target : ℕ) (replacement : Value) : Value → Prop where
  | intro {a : Value} (here : Avoids target replacement a)
      (parts : ∀ b ∈ entered target a, Substitutable target replacement b) : Substitutable target replacement a

section Form

variable {target : ℕ} {replacement a : Value} {binders : List ℕ}

theorem Substitutable.here (h : Substitutable target replacement a) : Avoids target replacement a := by
  cases h with
  | intro here _ => exact here

theorem Substitutable.parts (h : Substitutable target replacement a) :
    ∀ b ∈ entered target a, Substitutable target replacement b := by
  cases h with
  | intro _ parts => exact parts

theorem Substitutable.fields {fields : List (String × Value)}
    (h : ∀ b ∈ fields.map Prod.snd, Substitutable target replacement b) :
    ∀ p ∈ fields, Substitutable target replacement p.2 :=
  fun _ hp => h _ (List.mem_map_of_mem hp)

/-- A value without type variables does not mention the variable. -/
theorem not_mem_form_of_not_contains (h : Substitutable target replacement a)
    (ha : containsTypeVariables a = false) : .free target ∉ (form binders a).occurrences := by
  induction a using induct generalizing binders with
  | scalar value => simp [occurrences]
  | function identity => simp [occurrences]
  | shape fields ih =>
    simp only [containsTypeVariables, containsFields_eq, List.any_eq_false] at ha
    simp only [form_shape, occurrences, mem_occurrencesFields, List.mem_map, exists_exists_and_eq_and, not_exists,
      not_and]
    exact fun p hp => ih p hp (Substitutable.fields h.parts p hp) (Bool.eq_false_iff.2 (ha p hp))
  | array elements ih =>
    simp only [containsTypeVariables, containsAll_eq, List.any_eq_false] at ha
    simp only [form_array, occurrences, mem_occurrencesAll, List.mem_map, exists_exists_and_eq_and, not_exists, not_and]
    exact fun x hx => ih x hx (h.parts x hx) (Bool.eq_false_iff.2 (ha x hx))
  | scratch values capacity =>
    simp only [form_scratch, occurrences, mem_occurrencesAll, List.mem_map, exists_exists_and_eq_and, not_exists,
      not_and]
    exact fun x hx hmem => h.here x hx (mem_form.1 hmem).1
  | wrapped kind inner ih => exact ih (h.parts inner List.mem_cons_self) ha
  | emptyArray element ih => exact ih (h.parts element List.mem_cons_self) ha
  | range low high domain ihl ihh =>
    simp only [containsTypeVariables, Bool.or_eq_false_iff] at ha
    simp only [form_range, occurrences, List.mem_append, not_or]
    exact ⟨ihl (h.parts low (by simp [entered, parts])) ha.1, ihh (h.parts high (by simp [entered, parts])) ha.2⟩
  | union members ih =>
    simp only [containsTypeVariables, containsAll_eq, List.any_eq_false] at ha
    simp only [form_union, occurrences, mem_occurrencesAll, List.mem_map, exists_exists_and_eq_and, not_exists, not_and]
    exact fun x hx => ih x hx (h.parts x hx) (Bool.eq_false_iff.2 (ha x hx))
  | arrow deferred domain codomain effects effectTail ihd ihc ih =>
    simp only [containsTypeVariables, Bool.or_eq_false_iff, containsAll_eq, List.any_eq_false] at ha
    obtain ⟨⟨⟨htail, hdomain⟩, hcodomain⟩, heffects⟩ := ha
    have hnone : effectTail = none := by simpa using htail
    subst hnone
    simp only [form_arrow, occurrences, List.mem_append, mem_occurrencesAll, List.mem_map, exists_exists_and_eq_and,
      not_or, not_exists, not_and]
    refine ⟨⟨⟨ihd (h.parts domain (by simp [entered, parts])) hdomain,
      ihc (h.parts codomain (by simp [entered, parts])) hcodomain⟩,
      fun x hx => ?_⟩, by simp⟩
    exact ih x hx (h.parts x (by simp [entered, parts, hx])) (Bool.eq_false_iff.2 (heffects x hx))
  | typeVariable id | forAll bound body => simp [containsTypeVariables] at ha
  | effect id name operations host ih =>
    simp only [containsTypeVariables, containsFields_eq, List.any_eq_false] at ha
    simp only [form_effect, occurrences, mem_occurrencesFields, List.mem_map, exists_exists_and_eq_and, not_exists,
      not_and]
    exact fun p hp => ih p hp (Substitutable.fields h.parts p hp) (Bool.eq_false_iff.2 (ha p hp))
  | operation of name ih => exact ih (h.parts of List.mem_cons_self) ha
  | extended inner members ih ihm =>
    simp only [containsTypeVariables, Bool.or_eq_false_iff, containsFields_eq, List.any_eq_false] at ha
    simp only [form_extended, occurrences, List.mem_append, mem_occurrencesFields, List.mem_map,
      exists_exists_and_eq_and, not_or, not_exists, not_and]
    refine ⟨ih (h.parts inner List.mem_cons_self) ha.1, fun p hp => ?_⟩
    exact ihm p hp (Substitutable.fields (fun b hb => h.parts b (List.mem_cons_of_mem _ hb)) p hp)
      (Bool.eq_false_iff.2 (ha.2 p hp))

variable {same : Value → Value → Bool}

theorem bare_form (a : Value) : (form binders a).bare = form binders a.bare := by
  induction a using induct with
  | extended inner members ih => simp only [form_extended, bare, ih]
  | _ => simp only [bare, form_scalar, form_function, form_shape, form_array, form_scratch, form_wrapped,
      form_emptyArray, form_range, form_union, form_arrow, form_typeVariable, form_forAll, form_effect, form_operation]

theorem effectId_form (a : Value) : effectId (form binders a) = effectId a := by
  cases a <;> simp [effectId, form_extended]

theorem isEffect_form (a : Value) : isEffect (form binders a) = isEffect a := by
  cases a <;> simp [isEffect]

theorem sameEffect_form (seen effect : Value) :
    sameEffect (form binders seen) (form binders effect) = sameEffect seen effect := by
  unfold sameEffect
  rw [bare_form, effectId_form, effectId_form]

theorem pushEffects_form (binders : List ℕ)
    (hsame : ∀ seen effect : Value, isEffect effect = true → same seen effect = sameEffect seen effect)
    (effects : List Value) {additional : List Value} (h : ∀ effect ∈ additional, isEffect effect = true) :
    (pushEffects same effects additional).map (form binders) =
      pushEffects sameEffect (effects.map (form binders)) (additional.map (form binders)) := by
  unfold pushEffects
  induction additional generalizing effects with
  | nil => rfl
  | cons effect additional ih =>
    obtain ⟨heffect, hadditional⟩ := List.forall_mem_cons.1 h
    have hany : (effects.map (form binders)).any (sameEffect · (form binders effect)) =
      effects.any (same · effect) := by
      rw [List.any_map]
      refine List.any_congr rfl fun seen => ?_
      rw [hsame seen effect heffect]
      exact sameEffect_form seen effect
    rw [List.map_cons, List.foldl_cons, List.foldl_cons, ih _ hadditional, hany]
    split
    · rfl
    · rw [List.map_append, List.map_singleton]

/-- The test of effects replaces tails by the replacement as the identity of effects does. -/
def ReplacesTails (same : Value → Value → Bool) (replacement : Value) : Prop :=
  ∀ (binders : List ℕ) (effects : List Value),
    (replaceTail same effects replacement).map (fun row => (row.1.map (form binders), row.2.map (resolve binders))) =
      replaceTail sameEffect (effects.map (form binders)) (form binders replacement)

theorem replacesTails_typeVariable (id : ℕ) : ReplacesTails same (.typeVariable id) :=
  fun _ _ => rfl

/-- A tail is replaced alike in a row and in its form. -/
theorem replaceTail_form (hsame : ∀ seen effect : Value, isEffect effect = true →
    same seen effect = sameEffect seen effect)
    (r : Value) : ReplacesTails same r := by
  intro binders effects
  unfold replaceTail
  rw [bare_form]
  cases hr : r.bare with
  | effect id name operations host =>
    have hpush := pushEffects_form binders hsame effects
      (List.forall_mem_singleton.2 (rfl : isEffect (.effect id name operations host) = true))
    simpa using hpush
  | array members =>
    have hall : (members.map (form binders)).all isEffect = members.all isEffect := by
      rw [List.all_map]
      exact List.all_congr rfl fun x => isEffect_form x
    simp only [form_array, hall]
    cases hmembers : members.all isEffect with
    | false => rfl
    | true =>
      have hpush := pushEffects_form binders hsame effects (List.all_eq_true.1 hmembers)
      simpa using hpush
  | extended inner members => exact absurd hr bare_ne_extended
  | _ => simp

theorem map_substituteAll {ts : List Value}
    (h : ∀ t ∈ ts, (substituteWith same target replacement t).map (form binders) =
      instantiate (.single target (form [] replacement)) (form binders t)) :
    (substituteAll same target replacement ts).map (List.map (form binders)) =
      instantiateAll (.single target (form [] replacement)) (ts.map (form binders)) := by
  induction ts with
  | nil => rfl
  | cons t ts ih =>
    obtain ⟨ht, hts⟩ := List.forall_mem_cons.1 h
    rw [List.map_cons, instantiateAll, substituteAll, ← ht, ← ih hts]
    cases substituteWith same target replacement t with
    | none => rfl
    | some t => cases substituteAll same target replacement ts <;> rfl

theorem map_substituteFields {fields : List (String × Value)}
    (h : ∀ p ∈ fields, (substituteWith same target replacement p.2).map (form binders) =
      instantiate (.single target (form [] replacement)) (form binders p.2)) :
    (substituteFields same target replacement fields).map (List.map fun p => (p.1, form binders p.2)) =
      instantiateFields (.single target (form [] replacement)) (fields.map fun p => (p.1, form binders p.2)) := by
  induction fields with
  | nil => rfl
  | cons p fields ih =>
    obtain ⟨hp, hfields⟩ := List.forall_mem_cons.1 h
    rw [List.map_cons, instantiateFields, substituteFields, ← hp, ← ih hfields]
    cases substituteWith same target replacement p.2 with
    | none => rfl
    | some t => cases substituteFields same target replacement fields <;> rfl

theorem variableOf_resolve (htarget : target ∉ binders) (id : ℕ)
    (hbinders : id = target → ∀ b ∈ binders, ¬ Free b replacement) :
    (Instantiation.single target (form [] replacement)).variableOf (resolve binders id) =
      form binders (if id = target then replacement else .typeVariable id) := by
  by_cases hid : id = target
  · subst hid
    rw [if_pos rfl, form_eq_of_free (hbinders rfl), resolve_eq_free.2 ⟨rfl, htarget⟩]
    simp [Instantiation.variableOf, Instantiation.single]
  · rw [if_neg hid, form_typeVariable]
    cases hname : resolve binders id with
    | bound index => rfl
    | free y =>
      obtain ⟨rfl, -⟩ := resolve_eq_free.1 hname
      simp [Instantiation.variableOf, Instantiation.single, hid]

theorem substituteArrow_form (htails : ReplacesTails same replacement)
    (htarget : target ∉ binders) (deferred : Bool) (domain codomain : Value) (effects : List Value)
    (effectTail : Option ℕ) (hbinders : effectTail = some target → ∀ b ∈ binders, ¬ Free b replacement) :
    (substituteArrow same target replacement deferred domain codomain effects effectTail).map (form binders) =
      (Instantiation.single target (form [] replacement)).arrowOf deferred (form binders domain)
        (form binders codomain) (effects.map (form binders)) (effectTail.map (resolve binders)) := by
  unfold substituteArrow
  by_cases htail : effectTail = some target
  · subst htail
    have hrow := htails binders effects
    rw [form_eq_of_free (hbinders rfl)] at hrow
    have hname : (some target).map (resolve binders) = some (.free target) :=
      congrArg some (resolve_eq_free.2 ⟨rfl, htarget⟩)
    have htypes : (Instantiation.single target (form [] replacement)).types target = some (form [] replacement) :=
      if_pos rfl
    rw [if_neg (not_not.2 rfl), hname, Instantiation.arrowOf, htypes]
    dsimp only
    rw [← hrow]
    cases replaceTail same effects replacement <;> simp
  · rw [if_pos htail, Option.map_some, form_arrow]
    cases effectTail with
    | none => rfl
    | some id =>
      have hid : id ≠ target := fun heq => htail (congrArg some heq)
      cases hname : resolve binders id with
      | bound index => simp [Instantiation.arrowOf, hname]
      | free y =>
        obtain ⟨rfl, -⟩ := resolve_eq_free.1 hname
        simp [Instantiation.arrowOf, Instantiation.single, hname, hid]

/-- **Substitution** computes the instance of the form where nothing is captured. -/
theorem form_substituteWith (htails : ReplacesTails same replacement)
    (h : Substitutable target replacement a) (htarget : target ∉ binders)
    (hbinders : .free target ∈ (form binders a).occurrences → ∀ b ∈ binders, ¬ Free b replacement) :
    (substituteWith same target replacement a).map (form binders) =
      instantiate (.single target (form [] replacement)) (form binders a) := by
  have hclosed {a : Value} {binders : List ℕ} (h : Substitutable target replacement a)
      (ha : ¬ containsTypeVariables a = true) :
      some (form binders a) = instantiate (.single target (form [] replacement)) (form binders a) :=
    (instantiate_self (not_mem_form_of_not_contains h (Bool.eq_false_iff.2 ha))).symm
  induction a using induct generalizing binders with
  | scalar value => rfl
  | function identity => rfl
  | shape fields ih =>
    rw [substituteWith]
    split
    · simp only [form_shape, occurrences, mem_occurrencesFields, List.mem_map, exists_exists_and_eq_and] at hbinders
      have hfields := map_substituteFields fun p hp =>
        ih p hp (Substitutable.fields h.parts p hp) htarget fun hx => hbinders ⟨p, hp, hx⟩
      rw [form_shape, instantiate, ← hfields]
      cases substituteFields same target replacement fields <;> simp
    · next hno => exact hclosed h hno
  | array elements ih =>
    rw [substituteWith]
    split
    · simp only [form_array, occurrences, mem_occurrencesAll, List.mem_map, exists_exists_and_eq_and] at hbinders
      have hall := map_substituteAll fun t ht => ih t ht (h.parts t ht) htarget fun hx => hbinders ⟨t, ht, hx⟩
      rw [form_array, instantiate, ← hall]
      cases substituteAll same target replacement elements <;> simp
    · next hno => exact hclosed h hno
  | scratch values capacity => exact hclosed h (by simp [containsTypeVariables])
  | wrapped kind inner ih =>
    rw [substituteWith]
    split
    · rw [form_wrapped, instantiate, ← ih (h.parts inner List.mem_cons_self) htarget hbinders]
      cases substituteWith same target replacement inner <;> rfl
    · next hno => exact hclosed h hno
  | emptyArray element ih =>
    rw [substituteWith]
    split
    · rw [form_emptyArray, instantiate, ← ih (h.parts element List.mem_cons_self) htarget hbinders]
      cases substituteWith same target replacement element <;> rfl
    · next hno => exact hclosed h hno
  | range low high domain ihl ihh =>
    rw [substituteWith]
    split
    · simp only [form_range, occurrences, List.mem_append] at hbinders
      rw [form_range, instantiate, ← ihl (h.parts low (by simp [entered, parts])) htarget fun hx => hbinders (.inl hx),
        ← ihh (h.parts high (by simp [entered, parts])) htarget fun hx => hbinders (.inr hx)]
      cases substituteWith same target replacement low with
      | none => rfl
      | some low => cases substituteWith same target replacement high <;> rfl
    · next hno => exact hclosed h hno
  | union members ih =>
    rw [substituteWith]
    split
    · simp only [form_union, occurrences, mem_occurrencesAll, List.mem_map, exists_exists_and_eq_and] at hbinders
      have hall := map_substituteAll fun t ht => ih t ht (h.parts t ht) htarget fun hx => hbinders ⟨t, ht, hx⟩
      rw [form_union, instantiate, ← hall]
      cases substituteAll same target replacement members <;> simp [Instantiation.single]
    · next hno => exact hclosed h hno
  | arrow deferred domain codomain effects effectTail ihd ihc ih =>
    rw [substituteWith]
    split
    · simp only [form_arrow, occurrences, List.mem_append, mem_occurrencesAll, List.mem_map,
        exists_exists_and_eq_and] at hbinders
      have hall := map_substituteAll fun t ht =>
        ih t ht (h.parts t (by simp [entered, parts, ht])) htarget fun hx => hbinders (.inl (.inr ⟨t, ht, hx⟩))
      have htail : effectTail = some target → ∀ b ∈ binders, ¬ Free b replacement := by
        rintro rfl
        exact hbinders (.inr (by simp [resolve_eq_free.2 ⟨rfl, htarget⟩]))
      rw [form_arrow, instantiate, ← hall,
        ← ihd (h.parts domain (by simp [entered, parts])) htarget fun hx => hbinders (.inl (.inl (.inl hx))),
        ← ihc (h.parts codomain (by simp [entered, parts])) htarget fun hx => hbinders (.inl (.inl (.inr hx)))]
      cases substituteWith same target replacement domain with
      | none => rfl
      | some domain =>
        cases substituteWith same target replacement codomain with
        | none => rfl
        | some codomain =>
          cases substituteAll same target replacement effects with
          | none => rfl
          | some effects =>
            exact substituteArrow_form htails htarget deferred domain codomain effects effectTail htail
    · next hno => exact hclosed h hno
  | typeVariable id =>
    have hid := variableOf_resolve htarget id fun hid => hbinders (by
      simp [occurrences, resolve_eq_free.2 ⟨hid, htarget⟩])
    rw [substituteWith, form_typeVariable, instantiate, hid]
    split <;> rfl
  | forAll bound body ih =>
    rw [substituteWith]
    split
    · next hbound =>
      have hbody := h.parts body (by simp [entered, hbound])
      have hnot : target ∉ bound :: binders := by
        rw [List.mem_cons, not_or]
        exact ⟨Ne.symm hbound, htarget⟩
      rw [form_forAll, instantiate, ← ih hbody hnot fun hx => List.forall_mem_cons.2
        ⟨h.here hbound (mem_form.1 hx).1, hbinders hx⟩]
      cases substituteWith same target replacement body <;> rfl
    · next hbound =>
      obtain rfl := not_not.1 hbound
      refine (instantiate_self fun hx => ?_).symm
      exact (mem_form.1 (show .free bound ∈ (form (bound :: binders) body).occurrences from hx)).2 List.mem_cons_self
  | effect id name operations host ih =>
    rw [substituteWith]
    split
    · simp only [form_effect, occurrences, mem_occurrencesFields, List.mem_map, exists_exists_and_eq_and] at hbinders
      have hfields := map_substituteFields fun p hp =>
        ih p hp (Substitutable.fields h.parts p hp) htarget fun hx => hbinders ⟨p, hp, hx⟩
      rw [form_effect, instantiate, ← hfields]
      cases substituteFields same target replacement operations <;> simp [Instantiation.single]
    · next hno => exact hclosed h hno
  | operation of name ih =>
    rw [substituteWith]
    split
    · rw [form_operation, instantiate, ← ih (h.parts of List.mem_cons_self) htarget hbinders]
      cases substituteWith same target replacement of <;> rfl
    · next hno => exact hclosed h hno
  | extended inner members ih ihm =>
    rw [substituteWith]
    split
    · simp only [form_extended, occurrences, List.mem_append, mem_occurrencesFields, List.mem_map,
        exists_exists_and_eq_and] at hbinders
      have hmembers := map_substituteFields fun p hp =>
        ihm p hp (Substitutable.fields (fun b hb => h.parts b (List.mem_cons_of_mem _ hb)) p hp) htarget
          fun hx => hbinders (.inr ⟨p, hp, hx⟩)
      rw [form_extended, instantiate, ← hmembers,
        ← ih (h.parts inner List.mem_cons_self) htarget fun hx => hbinders (.inl hx)]
      cases substituteWith same target replacement inner with
      | none => rfl
      | some inner => cases substituteFields same target replacement members <;> simp
    · next hno => exact hclosed h hno

/-! ### Results -/

variable (target replacement same)

/-- What a substitution does to a value. -/
inductive Substitutes : Value → Value → Prop where
  | unchanged (a : Value) : Substitutes a a
  | replaced : Substitutes (.typeVariable target) replacement
  | shape {fields fields' : List (String × Value)} (names : fields'.map Prod.fst = fields.map Prod.fst)
      (values : ∀ p ∈ fields.zip fields', Substitutes p.1.2 p.2.2) : Substitutes (.shape fields) (.shape fields')
  | array {ts us : List Value} (length : ts.length = us.length) (elements : ∀ p ∈ ts.zip us, Substitutes p.1 p.2) :
      Substitutes (.array ts) (.array us)
  | wrapped {a b : Value} (kind : Wrapper) (inner : Substitutes a b) : Substitutes (.wrapped kind a) (.wrapped kind b)
  | emptyArray {a b : Value} (element : Substitutes a b) : Substitutes (.emptyArray a) (.emptyArray b)
  | range {low low' high high' : Value} (domain : Option Domain) (hlow : Substitutes low low')
      (hhigh : Substitutes high high') : Substitutes (.range low high domain) (.range low' high' domain)
  | union {ts us : List Value} (length : ts.length = us.length) (members : ∀ p ∈ ts.zip us, Substitutes p.1 p.2) :
      Substitutes (.union ts) (.union us)
  | arrow {domain domain' codomain codomain' : Value} {effects effects' : List Value} (deferred : Bool)
      {effectTail : Option ℕ} (htail : effectTail ≠ some target) (hdomain : Substitutes domain domain')
      (hcodomain : Substitutes codomain codomain') (length : effects.length = effects'.length)
      (heffects : ∀ p ∈ effects.zip effects', Substitutes p.1 p.2) :
      Substitutes (.arrow deferred domain codomain effects effectTail)
        (.arrow deferred domain' codomain' effects' effectTail)
  | tail {domain domain' codomain codomain' : Value} {effects effects' : List Value} (deferred : Bool)
      {row : List Value × Option ℕ} (hrow : replaceTail same effects' replacement = some row)
      (hdomain : Substitutes domain domain') (hcodomain : Substitutes codomain codomain')
      (length : effects.length = effects'.length) (heffects : ∀ p ∈ effects.zip effects', Substitutes p.1 p.2) :
      Substitutes (.arrow deferred domain codomain effects (some target))
        (.arrow deferred domain' codomain' row.1 row.2)
  | forAll {body body' : Value} {bound : ℕ} (hbound : bound ≠ target) (hbody : Substitutes body body') :
      Substitutes (.forAll bound body) (.forAll bound body')
  | effect (id : ℕ) (name : String) (host : Bool) {operations operations' : List (String × Value)}
      (names : operations'.map Prod.fst = operations.map Prod.fst)
      (values : ∀ p ∈ operations.zip operations', Substitutes p.1.2 p.2.2) :
      Substitutes (.effect id name operations host) (.effect id name operations' host)
  | operation {a b : Value} (name : String) (of : Substitutes a b) :
      Substitutes (.operation a name) (.operation b name)
  | extended {a b : Value} {members members' : List (String × Value)} (inner : Substitutes a b)
      (names : members'.map Prod.fst = members.map Prod.fst)
      (values : ∀ p ∈ members.zip members', Substitutes p.1.2 p.2.2) :
      Substitutes (.extended a members) (.extended b members')

variable {target replacement same}

theorem substitutes_all {ts us : List Value}
    (ih : ∀ t ∈ ts, ∀ u, substituteWith same target replacement t = some u → Substitutes target replacement same t u)
    (h : substituteAll same target replacement ts = some us) :
    ts.length = us.length ∧ ∀ p ∈ ts.zip us, Substitutes target replacement same p.1 p.2 := by
  induction ts generalizing us with
  | nil =>
    obtain rfl := Option.some.inj h
    exact ⟨rfl, nofun⟩
  | cons t ts ihl =>
    rw [substituteAll] at h
    obtain ⟨u, us, hu, hus, rfl⟩ := Support.bind₂_eq_some.1 h
    obtain ⟨ht, hts⟩ := List.forall_mem_cons.1 ih
    obtain ⟨hlength, hall⟩ := ihl hts hus
    exact ⟨congrArg (· + 1) hlength, List.forall_mem_cons.2 ⟨ht u hu, hall⟩⟩

theorem substitutes_fields {fields fields' : List (String × Value)}
    (ih : ∀ p ∈ fields, ∀ u, substituteWith same target replacement p.2 = some u →
      Substitutes target replacement same p.2 u)
    (h : substituteFields same target replacement fields = some fields') :
    fields'.map Prod.fst = fields.map Prod.fst ∧
      ∀ p ∈ fields.zip fields', Substitutes target replacement same p.1.2 p.2.2 := by
  induction fields generalizing fields' with
  | nil =>
    obtain rfl := Option.some.inj h
    exact ⟨rfl, nofun⟩
  | cons p fields ihl =>
    rw [substituteFields] at h
    obtain ⟨u, us, hu, hus, rfl⟩ := Support.bind₂_eq_some.1 h
    obtain ⟨hp, hfields⟩ := List.forall_mem_cons.1 ih
    obtain ⟨hnames, hall⟩ := ihl hfields hus
    exact ⟨congrArg (p.1 :: ·) hnames, List.forall_mem_cons.2 ⟨hp u hu, hall⟩⟩

theorem substitutes_of_map {α : Type} {c : Bool} {x : Option α} {f : α → Value} {s : Value}
    (h : (if c = true then x.map f else some a) = some s)
    (hx : ∀ y, x = some y → Substitutes target replacement same a (f y)) : Substitutes target replacement same a s := by
  split at h
  · obtain ⟨y, hy, rfl⟩ := Option.map_eq_some_iff.1 h
    exact hx y hy
  · obtain rfl := Option.some.inj h
    exact .unchanged a

/-- **The cases of a substitution.** -/
theorem substitutes_of_substituteWith {s : Value} (h : substituteWith same target replacement a = some s) :
    Substitutes target replacement same a s := by
  induction a using induct generalizing s with
  | scalar value | function identity | scratch values capacity =>
    obtain rfl := Option.some.inj h
    exact .unchanged _
  | shape fields ih =>
    refine substitutes_of_map h fun fields' hfields => ?_
    obtain ⟨hnames, hall⟩ := substitutes_fields (fun p hp u hu => ih p hp hu) hfields
    exact .shape hnames hall
  | array elements ih =>
    refine substitutes_of_map h fun elements' helements => ?_
    obtain ⟨hlength, hall⟩ := substitutes_all (fun t ht u hu => ih t ht hu) helements
    exact .array hlength hall
  | wrapped kind inner ih => exact substitutes_of_map h fun inner' hinner => .wrapped kind (ih hinner)
  | emptyArray element ih => exact substitutes_of_map h fun element' helement => .emptyArray (ih helement)
  | range low high domain ihl ihh =>
    rw [substituteWith] at h
    split at h
    · obtain ⟨low', high', hlow, hhigh, rfl⟩ := Support.bind₂_eq_some.1 h
      exact .range domain (ihl hlow) (ihh hhigh)
    · obtain rfl := Option.some.inj h
      exact .unchanged _
  | union members ih =>
    refine substitutes_of_map h fun members' hmembers => ?_
    obtain ⟨hlength, hall⟩ := substitutes_all (fun t ht u hu => ih t ht hu) hmembers
    exact .union hlength hall
  | arrow deferred domain codomain effects effectTail ihd ihc ih =>
    rw [substituteWith] at h
    split at h
    · obtain ⟨domain', hdomain, h⟩ := Option.bind_eq_some_iff.1 h
      obtain ⟨codomain', hcodomain, h⟩ := Option.bind_eq_some_iff.1 h
      obtain ⟨effects', heffects, harrow⟩ := Option.bind_eq_some_iff.1 h
      obtain ⟨hlength, hall⟩ := substitutes_all (fun t ht u hu => ih t ht hu) heffects
      unfold substituteArrow at harrow
      split at harrow
      · next htail =>
        obtain rfl := Option.some.inj harrow
        exact .arrow deferred htail (ihd hdomain) (ihc hcodomain) hlength hall
      · next htail =>
        obtain rfl := not_not.1 htail
        obtain ⟨row, hrow, rfl⟩ := Option.map_eq_some_iff.1 harrow
        exact .tail deferred hrow (ihd hdomain) (ihc hcodomain) hlength hall
    · obtain rfl := Option.some.inj h
      exact .unchanged _
  | typeVariable id =>
    rw [substituteWith] at h
    split at h
    · next hid =>
      obtain rfl := Option.some.inj h
      subst hid
      exact .replaced
    · obtain rfl := Option.some.inj h
      exact .unchanged _
  | forAll bound body ih =>
    rw [substituteWith] at h
    split at h
    · next hbound =>
      obtain ⟨body', hbody, rfl⟩ := Option.map_eq_some_iff.1 h
      exact .forAll hbound (ih hbody)
    · obtain rfl := Option.some.inj h
      exact .unchanged _
  | effect id name operations host ih =>
    refine substitutes_of_map h fun operations' hoperations => ?_
    obtain ⟨hnames, hall⟩ := substitutes_fields (fun p hp u hu => ih p hp hu) hoperations
    exact .effect id name host hnames hall
  | operation of name ih => exact substitutes_of_map h fun of' hof => .operation name (ih hof)
  | extended inner members ih ihm =>
    rw [substituteWith] at h
    split at h
    · obtain ⟨inner', members', hinner, hmembers, rfl⟩ := Support.bind₂_eq_some.1 h
      obtain ⟨hnames, hall⟩ := substitutes_fields (fun p hp u hu => ihm p hp hu) hmembers
      exact .extended (ih hinner) hnames hall
    · obtain rfl := Option.some.inj h
      exact .unchanged _

end Form

end Term

end Blot.TypeValues
