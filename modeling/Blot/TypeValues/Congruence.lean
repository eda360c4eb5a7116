import Blot.TypeValues.Questions

/-!
# Substitution respects equality

* `tails`, `isRow` — when a substitution is refused: `instantiate_isSome`;
* `core_instantiate` — instances of cores are cores of instances;
* `equal_substitute` — equal values with equal replacements have equal results, where nothing is captured;
* `equal_respected` — equality is an equivalence that substitution respects.
-/

namespace Blot.TypeValues

namespace Term

variable {β ν : Type}

/-! ### Refusals -/

def isRow (a : Term β ν) : Bool :=
  match a.bare with
  | .typeVariable _ | .effect _ _ _ _ => true
  | .array members => members.all isEffect
  | _ => false

mutual
def tails : Term β ν → List ν
  | .scalar _ | .function _ | .typeVariable _ => []
  | .shape fields => tailsFields fields
  | .array elements => tailsAll elements
  | .scratch values _ => tailsAll values
  | .wrapped _ inner => tails inner
  | .emptyArray element => tails element
  | .range low high _ => tails low ++ tails high
  | .union members => tailsAll members
  | .arrow _ domain codomain effects effectTail =>
    tails domain ++ tails codomain ++ tailsAll effects ++ effectTail.toList
  | .forAll _ body => tails body
  | .effect _ _ operations _ => tailsFields operations
  | .operation of _ => tails of
  | .extended inner members => tails inner ++ tailsFields members
termination_by structural t => t
def tailsAll : List (Term β ν) → List ν
  | [] => []
  | t :: ts => tails t ++ tailsAll ts
termination_by structural ts => ts
def tailsFields : List (String × Term β ν) → List ν
  | [] => []
  | (_, t) :: fields => tails t ++ tailsFields fields
termination_by structural fields => fields
end

@[simp] theorem mem_tailsAll {ts : List (Term β ν)} {n : ν} : n ∈ tailsAll ts ↔ ∃ t ∈ ts, n ∈ tails t := by
  induction ts with
  | nil => simp [tailsAll]
  | cons t ts ih => simp [tailsAll, ih]

@[simp] theorem mem_tailsFields {fields : List (String × Term β ν)} {n : ν} :
    n ∈ tailsFields fields ↔ ∃ p ∈ fields, n ∈ tails p.2 := by
  induction fields with
  | nil => simp [tailsFields]
  | cons p fields ih => simp [tailsFields, ih]

theorem replaceTail_isSome (same : Term β ν → Term β ν → Bool) (effects : List (Term β ν)) (a : Term β ν) :
    (replaceTail same effects a).isSome = isRow a := by
  unfold replaceTail isRow
  cases a.bare with
  | array members =>
    dsimp only
    cases members.all isEffect <;> rfl
  | _ => rfl

section Refusal

variable {σ : Instantiation} {x : ℕ} {R F G : Form}

theorem instantiateAll_isSome {ts : List Form} :
    (instantiateAll σ ts).isSome = true ↔ ∀ t ∈ ts, (instantiate σ t).isSome = true := by
  induction ts with
  | nil => simp [instantiateAll]
  | cons t ts ih =>
    rw [instantiateAll, List.forall_mem_cons, ← ih]
    cases instantiate σ t with
    | none => simp
    | some u => cases instantiateAll σ ts <;> simp

theorem instantiateFields_isSome {fields : List (String × Form)} :
    (instantiateFields σ fields).isSome = true ↔ ∀ p ∈ fields, (instantiate σ p.2).isSome = true := by
  induction fields with
  | nil => simp [instantiateFields]
  | cons p fields ih =>
    rw [instantiateFields, List.forall_mem_cons, ← ih]
    cases instantiate σ p.2 with
    | none => simp
    | some u => cases instantiateFields σ fields <;> simp

theorem bind₂_isSome {α α' γ : Type} {a : Option α} {b : Option α'} {f : α → α' → γ} :
    (a.bind fun a => b.bind fun b => some (f a b)).isSome = true ↔ a.isSome = true ∧ b.isSome = true := by
  cases a with
  | none => simp
  | some a => cases b <;> simp

theorem arrowOf_isSome {deferred : Bool} {domain codomain : Form} {effects : List Form} {effectTail : Option Name} :
    ((Instantiation.single x R).arrowOf deferred domain codomain effects effectTail).isSome = true ↔
      (effectTail = some (.free x) → isRow R = true) := by
  match effectTail with
  | none => simp [Instantiation.arrowOf]
  | some (.bound index) => simp [Instantiation.arrowOf]
  | some (.free y) =>
    by_cases hy : y = x
    · simp [Instantiation.arrowOf, Instantiation.single, hy, replaceTail_isSome]
    · simp [Instantiation.arrowOf, Instantiation.single, hy]

/-- An instance is refused when the name is the tail of a row and its replacement is none. -/
theorem instantiate_isSome :
    (instantiate (.single x R) F).isSome = true ↔ (.free x ∈ tails F → isRow R = true) := by
  induction F using induct with
  | scalar value => simp [instantiate, tails]
  | function identity => simp [instantiate, tails]
  | shape fields ih =>
    simp only [instantiate, Option.isSome_map, instantiateFields_isSome, tails, mem_tailsFields]
    exact ⟨by rintro h ⟨p, hp, hx⟩; exact (ih p hp).1 (h p hp) hx, fun h p hp => (ih p hp).2 fun hx => h ⟨p, hp, hx⟩⟩
  | array elements ih | scratch values capacity ih | union members ih =>
    simp only [instantiate, Option.isSome_map, instantiateAll_isSome, tails, mem_tailsAll]
    exact ⟨by rintro h ⟨t, ht, hx⟩; exact (ih t ht).1 (h t ht) hx, fun h t ht => (ih t ht).2 fun hx => h ⟨t, ht, hx⟩⟩
  | wrapped kind inner ih | emptyArray element ih => rwa [instantiate, Option.isSome_map, tails]
  | range low high domain ihl ihh =>
    rw [instantiate, tails, List.mem_append, or_imp, ← ihl, ← ihh]
    exact bind₂_isSome
  | arrow deferred domain codomain effects effectTail ihd ihc ih =>
    have heffects : (instantiateAll (.single x R) effects).isSome = true ↔
        (.free x ∈ tailsAll effects → isRow R = true) := by
      rw [instantiateAll_isSome, mem_tailsAll]
      exact ⟨by rintro h ⟨t, ht, hx⟩; exact (ih t ht).1 (h t ht) hx, fun h t ht => (ih t ht).2 fun hx => h ⟨t, ht, hx⟩⟩
    have htail : .free x ∈ effectTail.toList ↔ effectTail = some (.free x) := Option.mem_toList
    rw [instantiate, tails, List.mem_append, List.mem_append, List.mem_append, or_imp, or_imp, or_imp, ← ihd, ← ihc,
      ← heffects, htail]
    cases instantiate (.single x R) domain with
    | none => simp
    | some domain =>
      cases instantiate (.single x R) codomain with
      | none => simp
      | some codomain =>
        cases instantiateAll (.single x R) effects with
        | none => simp
        | some effects => simpa using arrowOf_isSome
  | typeVariable n => simp [instantiate, tails]
  | forAll bound body ih => rwa [instantiate, Option.isSome_map, tails]
  | effect id name operations host ih =>
    simp only [instantiate, Instantiation.single, Option.isSome_map, instantiateFields_isSome, tails, mem_tailsFields]
    exact ⟨by rintro h ⟨p, hp, hx⟩; exact (ih p hp).1 (h p hp) hx, fun h p hp => (ih p hp).2 fun hx => h ⟨p, hp, hx⟩⟩
  | operation of name ih => rwa [instantiate, Option.isSome_map, tails]
  | extended inner members ih ihm =>
    have hmembers : (instantiateFields (.single x R) members).isSome = true ↔
        (.free x ∈ tailsFields members → isRow R = true) := by
      rw [instantiateFields_isSome, mem_tailsFields]
      exact ⟨by rintro h ⟨p, hp, hx⟩; exact (ihm p hp).1 (h p hp) hx, fun h p hp => (ihm p hp).2 fun hx => h ⟨p, hp, hx⟩⟩
    rw [instantiate, tails, List.mem_append, or_imp, ← ih, ← hmembers]
    exact bind₂_isSome

end Refusal

/-! ### Cores of instances -/

section Core

variable {x : ℕ} {R F G : Form} {same : Term β ν → Term β ν → Bool}

theorem sameEffect_core {seen effect : Term β ν} (h : isEffect effect = true) :
    sameEffect (core seen) (core effect) = sameEffect seen effect := by
  have heffect : effect.bare = effect := by
    cases effect with
    | extended inner members => cases h
    | _ => rfl
  unfold sameEffect
  rw [bare_core, effectId_core, effectId_core, heffect]

theorem isEffect_core {effect : Term β ν} (h : isEffect effect = true) : isEffect (core effect) = true := by
  cases effect with
  | effect id name operations host => rfl
  | _ => cases h

theorem pushEffects_core {effects additional : List (Term β ν)} (h : ∀ effect ∈ additional, isEffect effect = true) :
    (pushEffects sameEffect effects additional).map core =
      pushEffects sameEffect (effects.map core) (additional.map core) := by
  unfold pushEffects
  induction additional generalizing effects with
  | nil => rfl
  | cons effect additional ih =>
    obtain ⟨heffect, hadditional⟩ := List.forall_mem_cons.1 h
    have hany : (effects.map core).any (sameEffect · (core effect)) = effects.any (sameEffect · effect) := by
      rw [List.any_map]
      exact List.any_congr rfl fun seen => sameEffect_core heffect
    rw [List.map_cons, List.foldl_cons, List.foldl_cons, ih hadditional, hany]
    split
    · rfl
    · rw [List.map_append, List.map_singleton]

theorem replaceTail_core {effects : List (Term β ν)} {a : Term β ν} {row : List (Term β ν) × Option ν}
    (h : replaceTail sameEffect effects a = some row) :
    replaceTail sameEffect (effects.map core) (core a) = some (row.1.map core, row.2) := by
  unfold replaceTail at h ⊢
  rw [bare_core, ← core_bare]
  cases ha : a.bare with
  | typeVariable id =>
    rw [ha] at h
    obtain rfl := Option.some.inj h
    rfl
  | effect id name operations host =>
    rw [ha] at h
    obtain rfl := Option.some.inj h
    have heffect : ∀ e ∈ [Term.effect id name operations host], isEffect e = true := List.forall_mem_singleton.2 rfl
    have hpush := @pushEffects_core _ _ effects _ heffect
    simpa [core] using hpush.symm
  | array members =>
    rw [ha] at h
    dsimp only at h
    split at h
    · next hall =>
      obtain rfl := Option.some.inj h
      have hmembers := List.all_eq_true.1 hall
      have hall' : (members.map core).all isEffect = true :=
        List.all_eq_true.2 (List.forall_mem_map.2 fun t ht => isEffect_core (hmembers t ht))
      simp only [core, coreAll_eq, hall', if_true, pushEffects_core hmembers]
    · cases h
  | _ =>
    rw [ha] at h
    cases h

theorem exists_of_arrowOf {σ : Instantiation} {deferred : Bool} {domain codomain : Form} {effects : List Form}
    {effectTail : Option Name} (h : σ.arrowOf deferred domain codomain effects effectTail = some G) :
    ∃ row : List Form × Option Name, G = .arrow deferred domain codomain row.1 row.2 := by
  unfold Instantiation.arrowOf at h
  split at h
  · next y =>
    split at h
    · obtain ⟨row, -, rfl⟩ := Option.map_eq_some_iff.1 h
      exact ⟨row, rfl⟩
    · obtain rfl := Option.some.inj h
      exact ⟨(effects, some (.free y)), rfl⟩
  · obtain rfl := Option.some.inj h
    exact ⟨(effects, effectTail), rfl⟩

theorem arrowOf_core {deferred : Bool} {domain codomain : Form} {effects : List Form} {effectTail : Option Name}
    (h : (Instantiation.single x R).arrowOf deferred domain codomain effects effectTail = some G) :
    (Instantiation.single x (core R)).arrowOf deferred (core domain) (core codomain) (effects.map core) effectTail =
      some (core G) := by
  match effectTail with
  | none | some (.bound index) =>
    obtain rfl := Option.some.inj h
    simp [Instantiation.arrowOf, core]
  | some (.free y) =>
    by_cases hy : y = x
    · subst hy
      simp only [Instantiation.arrowOf, Instantiation.single, if_true] at h ⊢
      obtain ⟨row, hrow, rfl⟩ := Option.map_eq_some_iff.1 h
      simp [replaceTail_core hrow, core]
    · simp only [Instantiation.arrowOf, Instantiation.single, hy, if_false] at h ⊢
      obtain rfl := Option.some.inj h
      simp [core]

/-- A bound is a text in the instance if it was one, unless it is the name and is given a text. -/
theorem bare_isText_instantiate (hG : instantiate (.single x R) F = some G)
    (hd : R.bare.isText = true → F.bare ≠ .typeVariable (.free x)) : G.bare.isText = F.bare.isText := by
  induction F using induct generalizing G with
  | typeVariable n =>
    obtain rfl := Option.some.inj hG
    cases n with
    | bound index => rfl
    | free y =>
      by_cases hy : y = x
      · subst hy
        have hno : R.bare.isText = false := Bool.eq_false_iff.2 fun htext => hd htext rfl
        simp only [Instantiation.variableOf, Instantiation.single, if_true, Option.getD_some]
        exact hno
      · simp [Instantiation.variableOf, Instantiation.single, hy, bare, isText]
  | extended inner members ih =>
    rw [instantiate] at hG
    obtain ⟨inner', members', hinner, -, rfl⟩ := Support.bind₂_eq_some.1 hG
    have htext := ih hinner hd
    exact htext
  | scalar value | function identity =>
    obtain rfl := Option.some.inj hG
    rfl
  | range low high domain =>
    rw [instantiate] at hG
    obtain ⟨low', high', -, -, rfl⟩ := Support.bind₂_eq_some.1 hG
    rfl
  | arrow deferred domain codomain effects effectTail =>
    rw [instantiate] at hG
    obtain ⟨domain', -, hG⟩ := Option.bind_eq_some_iff.1 hG
    obtain ⟨codomain', -, hG⟩ := Option.bind_eq_some_iff.1 hG
    obtain ⟨effects', -, hG⟩ := Option.bind_eq_some_iff.1 hG
    obtain ⟨row, rfl⟩ := exists_of_arrowOf hG
    rfl
  | _ =>
    rw [instantiate] at hG
    obtain ⟨_, -, rfl⟩ := Option.map_eq_some_iff.1 hG
    rfl

theorem core_instantiateAll {ts us : List Form} (h : instantiateAll (.single x R) ts = some us)
    (ih : ∀ t ∈ ts, ∀ {G}, instantiate (.single x R) t = some G →
      instantiate (.single x (core R)) (core t) = some (core G)) :
    instantiateAll (.single x (core R)) (ts.map core) = some (us.map core) := by
  induction ts generalizing us with
  | nil =>
    obtain rfl := Option.some.inj h
    rfl
  | cons t ts ihl =>
    obtain ⟨ht, hts⟩ := List.forall_mem_cons.1 ih
    rw [instantiateAll] at h
    obtain ⟨u, us, hu, hus, rfl⟩ := Support.bind₂_eq_some.1 h
    rw [List.map_cons, instantiateAll, ht hu, ihl hus hts]
    rfl

theorem core_instantiateFields {fields us : List (String × Form)}
    (h : instantiateFields (.single x R) fields = some us)
    (ih : ∀ p ∈ fields, ∀ {G}, instantiate (.single x R) p.2 = some G →
      instantiate (.single x (core R)) (core p.2) = some (core G)) :
    instantiateFields (.single x (core R)) (fields.map fun p => (p.1, core p.2)) =
      some (us.map fun p => (p.1, core p.2)) := by
  induction fields generalizing us with
  | nil =>
    obtain rfl := Option.some.inj h
    rfl
  | cons p fields ihl =>
    obtain ⟨hp, hfields⟩ := List.forall_mem_cons.1 ih
    rw [instantiateFields] at h
    obtain ⟨u, us, hu, hus, rfl⟩ := Support.bind₂_eq_some.1 h
    rw [List.map_cons, instantiateFields, hp hu, ihl hus hfields]
    rfl

/-- Every operation that equality compares is of an effect. -/
inductive Operated : Form → Prop where
  | intro {F : Form} (here : ∀ of name, F = .operation of name → isEffect of = true)
      (parts : ∀ G ∈ compared F, Operated G) : Operated F

theorem Operated.here {of : Form} {name : String} (h : Operated (.operation of name)) : isEffect of = true := by
  cases h with
  | intro here _ => exact here of name rfl

theorem Operated.parts (h : Operated F) : ∀ G ∈ compared F, Operated G := by
  cases h with
  | intro _ parts => exact parts

/-- **Instances of cores** are cores of instances. -/
theorem core_instantiate (hG : instantiate (.single x R) F = some G) (hd : R.bare.isText = true → Determined x F)
    (ho : Operated F) :
    instantiate (.single x (core R)) (core F) = some (core G) := by
  induction F using induct generalizing G with
  | scalar value | function identity =>
    obtain rfl := Option.some.inj hG
    rfl
  | shape fields ih =>
    rw [instantiate] at hG
    obtain ⟨us, hus, rfl⟩ := Option.map_eq_some_iff.1 hG
    have hall := core_instantiateFields hus fun p hp _ hG =>
      ih p hp hG (fun htext => (hd htext).parts p.2 (List.mem_map_of_mem hp)) (ho.parts p.2 (List.mem_map_of_mem hp))
    rw [core, core, coreFields_eq, coreFields_eq, instantiate, hall, Option.map_some]
  | array elements ih | scratch values capacity ih =>
    rw [instantiate] at hG
    obtain ⟨us, hus, rfl⟩ := Option.map_eq_some_iff.1 hG
    have hall := core_instantiateAll hus fun t ht _ hG => ih t ht hG (fun htext => (hd htext).parts t ht)
      (ho.parts t ht)
    rw [core, core, coreAll_eq, coreAll_eq, instantiate, hall, Option.map_some]
  | wrapped kind inner ih =>
    rw [instantiate] at hG
    obtain ⟨G, hinner, rfl⟩ := Option.map_eq_some_iff.1 hG
    rw [core, core, instantiate, ih hinner (fun htext => (hd htext).parts inner List.mem_cons_self)
      (ho.parts inner List.mem_cons_self), Option.map_some]
  | emptyArray element ih =>
    rw [instantiate] at hG
    obtain ⟨G, -, rfl⟩ := Option.map_eq_some_iff.1 hG
    rfl
  | range low high domain ihl ihh =>
    rw [instantiate] at hG
    obtain ⟨low', high', hlow, hhigh, rfl⟩ := Support.bind₂_eq_some.1 hG
    have hdomain : rangeDomain (core low') (core high') domain = rangeDomain (core low) (core high) domain := by
      cases domain with
      | some domain => rfl
      | none =>
        have hbounds := fun htext => (hd htext).here low high rfl
        unfold rangeDomain
        rw [isText_core, isText_core, isText_core, isText_core,
          bare_isText_instantiate hlow fun htext => (hbounds htext).1,
          bare_isText_instantiate hhigh fun htext => (hbounds htext).2]
    rw [core, core, hdomain, instantiate,
      ihl hlow (fun htext => (hd htext).parts low List.mem_cons_self) (ho.parts low List.mem_cons_self),
      ihh hhigh (fun htext => (hd htext).parts high (List.mem_cons_of_mem _ List.mem_cons_self))
        (ho.parts high (List.mem_cons_of_mem _ List.mem_cons_self))]
    rfl
  | union members ih =>
    rw [instantiate] at hG
    obtain ⟨us, hus, rfl⟩ := Option.map_eq_some_iff.1 hG
    have hall := core_instantiateAll hus fun t ht _ hG => ih t ht hG (fun htext => (hd htext).parts t ht)
      (ho.parts t ht)
    rw [core, coreAll_eq, instantiate, hall, Option.map_some]
    simp [Instantiation.single, core]
  | arrow deferred domain codomain effects effectTail ihd ihc ih =>
    rw [instantiate] at hG
    obtain ⟨domain', hdomain, hG⟩ := Option.bind_eq_some_iff.1 hG
    obtain ⟨codomain', hcodomain, hG⟩ := Option.bind_eq_some_iff.1 hG
    obtain ⟨effects', heffects, hG⟩ := Option.bind_eq_some_iff.1 hG
    have hpart {H : Form} (hH : H ∈ domain :: codomain :: effects) (htext : R.bare.isText = true) :=
      (hd htext).parts H hH
    have hpart' {H : Form} (hH : H ∈ domain :: codomain :: effects) := ho.parts H hH
    have hall := core_instantiateAll heffects fun t ht _ hG =>
      ih t ht hG (hpart (by simp [ht])) (hpart' (by simp [ht]))
    rw [core, coreAll_eq, instantiate, ihd hdomain (hpart (by simp)) (hpart' (by simp)),
      ihc hcodomain (hpart (by simp)) (hpart' (by simp)), hall]
    exact arrowOf_core hG
  | typeVariable n =>
    obtain rfl := Option.some.inj hG
    refine congrArg some ?_
    cases n with
    | bound index => rfl
    | free y =>
      by_cases hy : y = x
      · simp [Instantiation.variableOf, Instantiation.single, hy]
      · simp [Instantiation.variableOf, Instantiation.single, hy, core]
  | forAll bound body ih =>
    rw [instantiate] at hG
    obtain ⟨G, hbody, rfl⟩ := Option.map_eq_some_iff.1 hG
    rw [core, core, instantiate, ih hbody (fun htext => (hd htext).parts body List.mem_cons_self)
      (ho.parts body List.mem_cons_self), Option.map_some]
  | effect id name operations host ih =>
    rw [instantiate] at hG
    obtain ⟨operations', -, rfl⟩ := Option.map_eq_some_iff.1 hG
    rfl
  | operation of name =>
    have heffect := ho.here
    cases of with
    | effect id operation operations host =>
      rw [instantiate, instantiate] at hG
      obtain ⟨H, hH, rfl⟩ := Option.map_eq_some_iff.1 hG
      obtain ⟨operations', -, rfl⟩ := Option.map_eq_some_iff.1 hH
      rfl
    | _ => cases heffect
  | extended inner members ih =>
    rw [instantiate] at hG
    obtain ⟨inner', members', hinner, -, rfl⟩ := Support.bind₂_eq_some.1 hG
    rw [core, core]
    exact ih hinner (fun htext => (hd htext).parts inner List.mem_cons_self) (ho.parts inner List.mem_cons_self)

end Core

/-! ### Rows of agreeing values -/

theorem tails_core {F : Form} {n : Name} (h : n ∈ tails (core F)) : n ∈ tails F := by
  induction F using induct with
  | shape fields ih =>
    simp only [core, coreFields_eq, tails, mem_tailsFields, List.mem_map, exists_exists_and_eq_and] at h ⊢
    obtain ⟨p, hp, hn⟩ := h
    exact ⟨p, hp, ih p hp hn⟩
  | array elements ih | scratch values capacity ih | union members ih =>
    simp only [core, coreAll_eq, tails, mem_tailsAll, List.mem_map, exists_exists_and_eq_and] at h ⊢
    obtain ⟨t, ht, hn⟩ := h
    exact ⟨t, ht, ih t ht hn⟩
  | wrapped kind inner ih | forAll bound body ih => exact ih h
  | emptyArray element ih => cases h
  | range low high domain ihl ihh =>
    simp only [core, tails, List.mem_append] at h ⊢
    exact h.imp ihl ihh
  | arrow deferred domain codomain effects effectTail ihd ihc ih =>
    simp only [core, coreAll_eq, tails, List.mem_append, mem_tailsAll, List.mem_map, exists_exists_and_eq_and] at h ⊢
    refine h.imp_left (Or.imp (Or.imp ihd ihc) ?_)
    rintro ⟨t, ht, hn⟩
    exact ⟨t, ht, ih t ht hn⟩
  | operation of name ih => exact ih h
  | extended inner members ih => exact List.mem_append_left _ (ih h)
  | effect id name operations host => cases h
  | _ => exact h

/-- The rows of agreeing forms have the same tails: both are refused with a replacement that is no row. -/
theorem tails_of_alike {counted : Bool} {F G : Form} (h : Alike counted F G) {x : ℕ} (hx : .free x ∈ tails F) :
    .free x ∈ tails G := by
  by_contra hnot
  have hsome : (instantiate (.single x (.function 0)) G).isSome = true := instantiate_isSome.2 fun hx => absurd hx hnot
  obtain ⟨D, hD⟩ := Option.isSome_iff_exists.1 hsome
  obtain ⟨C, hC, -⟩ := h.symm.instantiate (.function 0) hD
  exact Bool.false_ne_true (instantiate_isSome.1 (Option.isSome_of_eq_some hC) hx)

theorem isRow_form (a : Value) : isRow (form [] a) = isRow a := by
  unfold isRow
  rw [bare_form]
  cases a.bare with
  | array members => simp [List.all_map, Function.comp_def, isEffect_form]
  | _ => rfl

theorem operated_of {F : Form} (here : ∀ of name, F ≠ .operation of name) (parts : ∀ G ∈ compared F, Operated G) :
    Operated F :=
  .intro (fun of name h => absurd h (here of name)) parts

theorem Sound.operated {a : Value} (h : Sound true a) (binders : List ℕ) : Operated (form binders a) := by
  induction a using induct generalizing binders with
  | scalar value | function identity | typeVariable id => exact operated_of nofun nofun
  | shape fields ih =>
    rw [form_shape]
    refine operated_of nofun (List.forall_mem_map.2 (List.forall_mem_map.2 fun p hp => ?_))
    exact ih p hp (h.compared p.2 (List.mem_map_of_mem hp)) binders
  | array elements ih =>
    rw [form_array]
    exact operated_of nofun (List.forall_mem_map.2 fun t ht => ih t ht (h.compared t ht) binders)
  | scratch values capacity ih =>
    rw [form_scratch]
    exact operated_of nofun (List.forall_mem_map.2 fun t ht => ih t ht (h.compared t ht) binders)
  | union members ih =>
    rw [form_union]
    exact operated_of nofun (List.forall_mem_map.2 fun t ht => ih t ht (h.compared t ht) binders)
  | wrapped kind inner ih | extended inner members ih =>
    exact operated_of nofun (List.forall_mem_singleton.2 (ih (h.compared inner List.mem_cons_self) binders))
  | emptyArray element => exact operated_of nofun nofun
  | range low high domain ihl ihh =>
    refine operated_of nofun (List.forall_mem_cons.2 ⟨?_, List.forall_mem_singleton.2 ?_⟩)
    · exact ihl (h.compared low List.mem_cons_self) binders
    · exact ihh (h.compared high (List.mem_cons_of_mem _ List.mem_cons_self)) binders
  | arrow deferred domain codomain effects effectTail ihd ihc ih =>
    obtain ⟨hdomain, hrest⟩ := List.forall_mem_cons.1 h.compared
    obtain ⟨hcodomain, heffects⟩ := List.forall_mem_cons.1 hrest
    rw [form_arrow]
    refine operated_of nofun (List.forall_mem_cons.2
      ⟨ihd hdomain binders, List.forall_mem_cons.2 ⟨ihc hcodomain binders,
      List.forall_mem_map.2 fun t ht => ih t ht (heffects t ht) binders⟩⟩)
  | forAll bound body ih =>
    exact operated_of nofun (List.forall_mem_singleton.2 (ih (h.compared body List.mem_cons_self) (bound :: binders)))
  | effect id name operations host => exact operated_of nofun nofun
  | operation of name =>
    refine .intro ?_ nofun
    rintro _ _ hform
    cases hform
    exact (isEffect_form of).trans h.plain

/-! ### Substitution -/

section Substitution

variable {hash : Hash} {x : ℕ} {a a' r r' : Value}

/-- Substitution comes to the variable, or to a row that ends in it. -/
inductive Reached (x : ℕ) : Value → Prop where
  | variable : Reached x (.typeVariable x)
  | tail {deferred : Bool} {domain codomain : Value} {effects : List Value} :
    Reached x (.arrow deferred domain codomain effects (some x))
  | part {a b : Value} (mem : b ∈ entered x a) (reached : Reached x b) : Reached x a

/-- A value in which it comes to neither stays as it is. -/
theorem substituteWith_of_not_reached {same : Value → Value → Bool} (h : ¬ Reached x a) :
    substituteWith same x r a = some a := by
  have hall {ts : List Value} (ih : ∀ t ∈ ts, substituteWith same x r t = some t) :
      substituteAll same x r ts = some ts := by
    induction ts with
    | nil => rfl
    | cons t ts ihl =>
      obtain ⟨ht, hts⟩ := List.forall_mem_cons.1 ih
      rw [substituteAll, ht, ihl hts]
      rfl
  have hfields {fields : List (String × Value)} (ih : ∀ p ∈ fields, substituteWith same x r p.2 = some p.2) :
      substituteFields same x r fields = some fields := by
    induction fields with
    | nil => rfl
    | cons p fields ihl =>
      obtain ⟨hp, hfields⟩ := List.forall_mem_cons.1 ih
      rw [substituteFields, hp, ihl hfields]
      rfl
  induction a using induct with
  | scalar value | function identity | scratch values capacity ih => rfl
  | shape fields ih | effect id name fields host ih =>
    have ih := fun p hp => ih p hp fun hreached => h (.part (List.mem_map_of_mem hp) hreached)
    rw [substituteWith, hfields ih]
    exact ite_self _
  | array elements ih | union elements ih =>
    rw [substituteWith, hall fun t ht => ih t ht fun hreached => h (.part ht hreached)]
    exact ite_self _
  | wrapped kind inner ih | emptyArray inner ih | operation inner name ih =>
    rw [substituteWith, ih fun hreached => h (.part List.mem_cons_self hreached)]
    exact ite_self _
  | range low high domain ihl ihh =>
    have ihl := ihl fun hreached => h (.part List.mem_cons_self hreached)
    have ihh := ihh fun hreached => h (.part (List.mem_cons_of_mem _ List.mem_cons_self) hreached)
    rw [substituteWith, ihl, ihh]
    exact ite_self _
  | arrow deferred domain codomain effects effectTail ihd ihc ih =>
    have hpart {t : Value} (ht : t ∈ domain :: codomain :: effects) : ¬ Reached x t :=
      fun hreached => h (.part ht hreached)
    have hne : effectTail ≠ some x := by
      rintro rfl
      exact h .tail
    have hall := hall fun t ht => ih t ht (hpart (by simp [ht]))
    simp [substituteWith, ihd (hpart (by simp)), ihc (hpart (by simp)), hall, substituteArrow, hne]
  | typeVariable id =>
    rw [substituteWith, if_neg]
    rintro rfl
    exact h .variable
  | forAll bound body ih =>
    rw [substituteWith]
    split
    · next hne =>
      have hbody : ¬ Reached x body := fun hreached => h (.part (by simpa [entered] using hne) hreached)
      rw [ih hbody]
      rfl
    · rfl
  | extended inner members ih ihm =>
    have ih := ih fun hreached => h (.part List.mem_cons_self hreached)
    have ihm := fun p hp => ihm p hp fun hreached =>
      h (.part (List.mem_cons_of_mem _ (List.mem_map_of_mem hp)) hreached)
    rw [substituteWith, ih, hfields ihm]
    exact ite_self _

/-- What substitution relies on: sound values, no binder that captures, no text for the bound of a range without a
domain, and no row that is refused in a part that equality passes over. -/
structure Suits (x : ℕ) (r a : Value) : Prop where
  value : Sound true a
  replacement : Sound true r
  uncaptured : Substitutable x r a
  determined : r.bare.isText = true → Determined x (form [] a)
  row : isRow r = true ∨ (.free x ∈ tails (form [] a) → .free x ∈ tails (core (form [] a)))

/-- Substitution computes the instance. -/
theorem Suits.instantiate (h : Suits x r a) :
    (substituteTypeVariable hash a x r).map (form []) = Term.instantiate (.single x (form [] r)) (form [] a) :=
  form_substituteWith (replacesTails_equal r) h.uncaptured List.not_mem_nil nofun

theorem Suits.isSome_iff (h : Suits x r a) :
    (substituteTypeVariable hash a x r).isSome = true ↔ (.free x ∈ tails (form [] a) → isRow r = true) := by
  rw [← Option.isSome_map (f := form []), h.instantiate, instantiate_isSome, isRow_form]

theorem Suits.core (h : Suits x r a) {s : Value} (hs : substituteTypeVariable hash a x r = some s) :
    Term.instantiate (.single x (Term.core (form [] r))) (Term.core (form [] a)) = some (Term.core (form [] s)) := by
  have hform := @Suits.instantiate hash _ _ _ h
  rw [hs, Option.map_some] at hform
  refine core_instantiate hform.symm (fun htext => h.determined ?_) (h.value.operated [])
  rw [bare_form] at htext
  exact (isText_walk _ _ _ _).symm.trans htext

theorem Suits.sound (h : Suits x r a) {s : Value} (hs : substituteTypeVariable hash a x r = some s) : Sound true s :=
  h.value.substitutes (substitutes_of_substituteWith hs) h.replacement List.not_mem_nil fun _ => h.determined

/-- Agreement with unions and effect rows of the same lengths, as equality compares them. -/
def Counted (a b : Value) : Prop := Alike true (Term.core (form [] a)) (Term.core (form [] b))

theorem Settled.counted (ha : Settled a) (ha' : Settled a') (h : Agree a a') : Counted a a' :=
  h.count ha.spread ha'.spread

/-- **Substitution respects equality.** -/
theorem equal_substitute (h : Suits x r a) (h' : Suits x r' a')
    (hrow : .free x ∈ tails (Term.core (form [] a)) → isRow r = isRow r') (halike : Counted a a')
    (halike' : Counted r r') :
    (substituteTypeVariable hash a x r).isSome = (substituteTypeVariable hash a' x r').isSome ∧
      ∀ s s', substituteTypeVariable hash a x r = some s → substituteTypeVariable hash a' x r' = some s' →
        equal hash s s' = true := by
  constructor
  · rw [Bool.eq_iff_iff, h.isSome_iff, h'.isSome_iff]
    constructor
    · intro hsome hx
      obtain hrow' | hx' := h'.row
      · exact hrow'
      · have hcore := tails_of_alike halike.symm (hx' hx)
        rw [← hrow hcore]
        exact hsome (tails_core hcore)
    · intro hsome hx
      obtain hrow' | hx' := h.row
      · exact hrow'
      · have hcore := hx' hx
        rw [hrow hcore]
        exact hsome (tails_core (tails_of_alike halike hcore))
  · intro s s' hs hs'
    obtain ⟨D, hD, hresult⟩ := halike.instantiate halike' (h.core hs)
    obtain rfl := Option.some.inj (hD.symm.trans (h'.core hs'))
    exact equalWithin_of_alike (h.sound hs) (h'.sound hs') hresult (Nat.le_refl _)

theorem sound_quantified (bound : ℕ) : Sound true (.forAll bound (.array [.typeVariable 0, .typeVariable bound])) := by
  have hvariable (id : ℕ) : Sound true (.typeVariable id) := .intro (fun _ => trivial) trivial nofun nofun
  refine .intro (fun _ => trivial) trivial (List.forall_mem_singleton.2 ?_) nofun
  exact .intro (fun _ => trivial) trivial (List.forall_mem_cons.2
    ⟨hvariable 0, List.forall_mem_singleton.2 (hvariable bound)⟩) nofun

theorem suits_quantified (bound : ℕ) (hbound : bound ≠ 7) :
    Suits 0 (.typeVariable 7) (.forAll bound (.array [.typeVariable 0, .typeVariable bound])) := by
  refine ⟨sound_quantified bound, .intro (fun _ => trivial) trivial nofun nofun,
    substitutable_fresh (sound_quantified bound) ?_, nofun, .inl rfl⟩
  simp [collectTypeVariables, hbound.symm]

theorem settled_quantified (bound : ℕ) : Settled (.forAll bound (.array [.typeVariable 0, .typeVariable bound])) := by
  refine ⟨sound_quantified bound, ?_⟩
  simp [core, Spread]

end Substitution

end Term

end Blot.TypeValues
