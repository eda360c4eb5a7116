import Blot.Support.Table
import Mathlib.Data.List.Sort
import Mathlib.Data.String.Basic
import Blot.Ownership.Produced

/-!
# Joining alternatives (`ownership.rs`)

What the arms of a conditional produce is joined into one ownership tree.

* `joinAlternatives` — `join_alternatives`, with its recursion in `joinAlternatives_eq`;
* `Carried` — a property that a joined tree has when an alternative has it;
* `exists_carried_iff`, `joinAlternatives_eq_store` — what a joined tree owes, borrows, shares and owns.
-/

namespace Blot.Ownership

/-! ### The code -/

def StoreAccess.merge (left right : StoreAccess) : StoreAccess :=
  if left = .unique ∨ right = .unique then .unique else .shared

namespace Produced

mutual
def mergeStoreAccessRequirements : Produced → Produced → Produced
  | .storeParameter source path shareable access, .storeParameter source' path' shareable' access' =>
    if source = source' ∧ path = path' ∧ shareable = shareable' then
      .storeParameter source path shareable (access.merge access')
    else .storeParameter source path shareable access
  | .sequence primary, .sequence alternative =>
    if primary.length = alternative.length then .sequence (mergeAll primary alternative) else .sequence primary
  | .shape primary, .shape alternative => .shape (mergeFields primary alternative)
  | .variant primary, .variant alternative => .variant (mergeStoreAccessRequirements primary alternative)
  | .choice primary, .choice alternative => .choice (mergeFields primary alternative)
  | .many primary, .many alternative =>
    if primary.length = alternative.length then .many (mergeAll primary alternative) else .many primary
  | primary, _ => primary
def mergeAll : List Produced → List Produced → List Produced
  | primary :: rest, alternative :: rest' => mergeStoreAccessRequirements primary alternative :: mergeAll rest rest'
  | primary, _ => primary
def mergeFields : List (String × Produced) → List (String × Produced) → List (String × Produced)
  | [], _ => []
  | (name, primary) :: rest, alternatives =>
    (name, match alternatives.lookup name with
      | some alternative => mergeStoreAccessRequirements primary alternative
      | Option.none => primary) :: mergeFields rest alternatives
end

/-- The values of a `Many`, or the one value. -/
def parts : Produced → List Produced
  | .many values => values
  | value => [value]

def combine (left right : Produced) : Produced :=
  if left = right then left
  else if !left.relevant then right
  else if !right.relevant then left
  else .many (left.parts ++ right.parts)

def join (values : List Produced) : Produced := values.foldl combine .none

def regionAuthority : Produced → Produced
  | .parameter qualifier source => .region qualifier (some source) [] (.parameter qualifier source)
  | produced => produced

def regionProofPart : Produced → Option Produced
  | .region qualifier root splits _ => some (.region qualifier root splits .none)
  | _ => Option.none

/-! ### The cases of a join -/

def each {A : Type} (select : Produced → Option A) (values : List Produced) : Option (List A) :=
  if values.all fun value => (select value).isSome then some (values.filterMap select) else Option.none

def sameParameter : Produced → Produced → Bool
  | .storeParameter source path shareable _, .storeParameter source' path' shareable' _ =>
    source = source' ∧ path = path' ∧ shareable = shareable'
  | _, _ => false

def isStore : Produced → Bool
  | .emptyStore | .store _ => true
  | _ => false

def storeElements : Produced → Option Produced
  | .store elements => some elements
  | _ => Option.none

def sequenceElements : Produced → Option (List Produced)
  | .sequence elements => some elements
  | _ => Option.none

def shapeFields : Produced → Option (List (String × Produced))
  | .shape fields => some fields
  | _ => Option.none

def isRegion : Produced → Bool
  | .region _ _ _ _ => true
  | _ => false

def isRegionAuthority : Produced → Bool
  | .region _ _ _ _ => true
  | .parameter qualifier _ => qualifier = .linear ∨ qualifier = .affine
  | _ => false

def regionElements : Produced → Option Produced
  | .region _ _ _ elements => some elements
  | _ => Option.none

def variantPayload : Produced → Option Produced
  | .variant payload => some payload
  | _ => Option.none

def choiceCases : Produced → Option (List (String × Produced))
  | .choice cases => some cases
  | _ => Option.none

section Cases

-- `recur` is the recursive call.
variable (recur : List Produced → Produced) (values : List Produced)

def joinStores : Option Produced :=
  if values.all isStore then some (.store (recur (values.filterMap storeElements))) else Option.none

def joinSequences : Option Produced := do
  let rows ← each sequenceElements values
  let first ← rows.head?
  if rows.all fun row => row.length = first.length then
    some (.sequence ((List.range first.length).map fun index => recur (rows.filterMap (·[index]?))))
  else Option.none

def joinShapes : Option Produced := do
  let maps ← each shapeFields values
  let first ← maps.head?
  if maps.all fun fields => fields.length = first.length && first.all fun field => (fields.lookup field.1).isSome then
    some (.shape (first.map fun field => (field.1, recur (maps.filterMap (·.lookup field.1)))))
  else Option.none

def joinRegions : Option Produced :=
  if values.any isRegion && values.all isRegionAuthority then
    match (values.map regionAuthority).head? with
    | some (.region qualifier root splits _) =>
      if (values.map regionAuthority).all fun value =>
          value.regionProofPart = some (.region qualifier root splits .none) then
        some (.region qualifier root splits (recur ((values.map regionAuthority).filterMap regionElements)))
      else Option.none
    | _ => Option.none
  else Option.none

def joinVariants : Option Produced := (each variantPayload values).map fun payloads => .variant (recur payloads)

def joinChoices : Option Produced :=
  (each choiceCases values).map fun maps =>
    .choice ((((maps.flatMap fun cases => cases.map Prod.fst).dedup).insertionSort (· ≤ ·)).map fun name =>
      (name, recur (maps.filterMap (·.lookup name))))

def joinForms : Option Produced :=
  joinSequences recur values <|> joinShapes recur values <|> joinRegions recur values <|> joinVariants recur values <|>
    joinChoices recur values

/-- `join_alternatives`, with its recursive call. -/
def joinStep : Produced :=
  match values with
  | [] => .none
  | first :: rest =>
    if values.all (· = .none) then .none
    else if values.all (sameParameter first) then rest.foldl mergeStoreAccessRequirements first
    else if values.all (· = first) then first
    else (joinStores recur values <|> joinForms recur values).getD (join values)

end Cases

mutual
def depth : Produced → ℕ
  | .store elements => depth elements + 1
  | .sequence elements => depthOfAll elements + 1
  | .shape fields => depthOfFields fields + 1
  | .region _ _ _ elements => depth elements + 1
  | .variant payload => depth payload + 1
  | .choice cases => depthOfFields cases + 1
  | _ => 0
def depthOfAll : List Produced → ℕ
  | [] => 0
  | value :: rest => max (depth value) (depthOfAll rest)
def depthOfFields : List (String × Produced) → ℕ
  | [] => 0
  | (_, value) :: rest => max (depth value) (depthOfFields rest)
end

/-- `join_alternatives`, of trees of some depth -/
def joinWithin : ℕ → List Produced → Produced
  | 0, _ => .none
  | fuel + 1, values => joinStep (joinWithin fuel) values

def joinAlternatives (values : List Produced) : Produced := joinWithin (depthOfAll values + 1) values

/-! ### The recursion -/

section Recursion

variable {recur recur' : List Produced → Produced} {values : List Produced}

theorem each_eq_some {A : Type} {select : Produced → Option A} {rows : List A} (h : each select values = some rows) :
    (∀ value ∈ values, ∃ row ∈ rows, select value = some row) ∧
    ∀ row ∈ rows, ∃ value ∈ values, select value = some row := by
  unfold each at h
  split at h
  · next hall =>
    obtain rfl := Option.some.inj h
    refine ⟨fun value hvalue => ?_, fun row hrow => List.mem_filterMap.1 hrow⟩
    obtain ⟨row, hrow⟩ := Option.isSome_iff_exists.1 (List.all_eq_true.1 hall value hvalue)
    exact ⟨row, List.mem_filterMap.2 ⟨value, hvalue, hrow⟩, hrow⟩
  · cases h

theorem depth_le_depthOfAll {c : Produced} (h : c ∈ values) : c.depth ≤ depthOfAll values := by
  induction values with
  | nil => exact absurd h List.not_mem_nil
  | cons value rest ih =>
    rw [depthOfAll]
    rcases List.mem_cons.1 h with rfl | h
    · exact le_max_left _ _
    · exact le_max_of_le_right (ih h)

theorem depth_le_depthOfFields {fields : List (String × Produced)} {c : Produced} (h : c ∈ fields.map Prod.snd) :
    c.depth ≤ depthOfFields fields := by
  induction fields with
  | nil => exact absurd h List.not_mem_nil
  | cons field rest ih =>
    obtain ⟨name, value⟩ := field
    rw [depthOfFields]
    rcases List.mem_cons.1 h with rfl | h
    · exact le_max_left _ _
    · exact le_max_of_le_right (ih h)

/-- A tree that a join recurses to: less deep than one of the values, and with distinct keys when they have. -/
structure Below (values : List Produced) (c : Produced) : Prop where
  depth : ∃ value ∈ values, c.depth < value.depth
  keyed : (∀ value ∈ values, value.Keyed) → c.Keyed

/-- A child that a join recurses to. -/
theorem Below.of_child {value c : Produced} (hvalue : value ∈ values) (hc : c ∈ value.children)
    (hdepth : c.depth < value.depth) : Below values c where
  depth := ⟨value, hvalue, hdepth⟩
  keyed h := (h value hvalue).child hc

theorem below_storeElements : ∀ c ∈ values.filterMap storeElements, Below values c := by
  intro c hc
  obtain ⟨value, hvalue, hselect⟩ := List.mem_filterMap.1 hc
  cases value with
  | store elements =>
    obtain rfl := Option.some.inj hselect
    exact .of_child hvalue List.mem_cons_self (Nat.lt_succ_self _)
  | _ => cases hselect

theorem below_sequenceElements {rows : List (List Produced)} (h : each sequenceElements values = some rows)
    (index : ℕ) :
    ∀ c ∈ rows.filterMap (·[index]?), Below values c := by
  intro c hc
  obtain ⟨row, hrow, hselect⟩ := List.mem_filterMap.1 hc
  obtain ⟨value, hvalue, hrow⟩ := (each_eq_some h).2 row hrow
  cases value with
  | sequence elements =>
    obtain rfl := Option.some.inj hrow
    have hc := List.mem_of_getElem? hselect
    have hle := depth_le_depthOfAll hc
    exact .of_child hvalue hc (Nat.lt_succ_of_le hle)
  | _ => cases hrow

/-- The fields of shapes, and the cases of choices, lie below them. -/
theorem below_entries {entries : Produced → Option (List (String × Produced))}
    (hentries : ∀ value fields, entries value = some fields → value = .shape fields ∨ value = .choice fields)
    {maps : List (List (String × Produced))} (h : each entries values = some maps) (name : String) :
    ∀ c ∈ maps.filterMap (·.lookup name), Below values c := by
  intro c hc
  obtain ⟨fields, hfields, hselect⟩ := List.mem_filterMap.1 hc
  obtain ⟨value, hvalue, hfields⟩ := (each_eq_some h).2 fields hfields
  have hc : c ∈ fields.map Prod.snd := List.mem_map_of_mem (Support.Table.mem_of_lookup hselect)
  have hle := Nat.lt_succ_of_le (depth_le_depthOfFields hc)
  rcases hentries value fields hfields with rfl | rfl
  · exact .of_child hvalue hc hle
  · exact .of_child hvalue hc hle

theorem shapeFields_eq {value : Produced} {fields : List (String × Produced)} (h : shapeFields value = some fields) :
    value = .shape fields ∨ value = .choice fields := by
  cases value with
  | shape fields => exact .inl (congrArg _ (Option.some.inj h))
  | _ => cases h

theorem choiceCases_eq {value : Produced} {fields : List (String × Produced)} (h : choiceCases value = some fields) :
    value = .shape fields ∨ value = .choice fields := by
  cases value with
  | choice fields => exact .inr (congrArg _ (Option.some.inj h))
  | _ => cases h

theorem below_variantPayload {payloads : List Produced} (h : each variantPayload values = some payloads) :
    ∀ c ∈ payloads, Below values c := by
  intro c hc
  obtain ⟨value, hvalue, hpayload⟩ := (each_eq_some h).2 c hc
  cases value with
  | variant payload =>
    obtain rfl := Option.some.inj hpayload
    exact .of_child hvalue List.mem_cons_self (Nat.lt_succ_self _)
  | _ => cases hpayload

theorem below_regionElements (h : values.any isRegion = true) (hall : values.all isRegionAuthority = true) :
    ∀ c ∈ (values.map regionAuthority).filterMap regionElements, Below values c := by
  intro c hc
  obtain ⟨region', hregion, hselect⟩ := List.mem_filterMap.1 hc
  obtain ⟨value, hvalue, rfl⟩ := List.mem_map.1 hregion
  have hauthority := List.all_eq_true.1 hall value hvalue
  cases value with
  | region qualifier root splits elements =>
    obtain rfl := Option.some.inj hselect
    exact .of_child hvalue List.mem_cons_self (Nat.lt_succ_self _)
  | parameter qualifier source =>
    obtain rfl := Option.some.inj hselect
    obtain ⟨other, hother, hregion⟩ := List.any_eq_true.1 h
    cases other with
    | region qualifier' root splits elements =>
      exact ⟨⟨_, hother, Nat.succ_pos _⟩, fun hkeyed => hkeyed _ hvalue⟩
    | _ => cases hregion
  | _ => cases hauthority

theorem joinStep_congr (h : ∀ sub, (∀ c ∈ sub, Below values c) → recur sub = recur' sub) :
    joinStep recur values = joinStep recur' values := by
  have hstores : joinStores recur values = joinStores recur' values := by
    unfold joinStores
    rw [h _ below_storeElements]
  have hsequences : joinSequences recur values = joinSequences recur' values := by
    unfold joinSequences
    cases hrows : each sequenceElements values with
    | none => rfl
    | some rows =>
      have hrow : ∀ index : ℕ, recur (rows.filterMap (·[index]?)) = recur' (rows.filterMap (·[index]?)) :=
        fun index => h _ (below_sequenceElements hrows index)
      simp only [Option.bind_eq_bind, Option.bind_some, hrow]
  have hshapes : joinShapes recur values = joinShapes recur' values := by
    unfold joinShapes
    cases hmaps : each shapeFields values with
    | none => rfl
    | some maps =>
      have hmap : ∀ name, recur (maps.filterMap (·.lookup name)) = recur' (maps.filterMap (·.lookup name)) :=
        fun name => h _ (below_entries (fun _ _ => shapeFields_eq) hmaps name)
      simp only [Option.bind_eq_bind, Option.bind_some, hmap]
  have hregions : joinRegions recur values = joinRegions recur' values := by
    unfold joinRegions
    split
    · next hguard =>
      obtain ⟨hany, hall⟩ := Bool.and_eq_true_iff.1 hguard
      rw [h _ (below_regionElements hany hall)]
    · rfl
  have hvariants : joinVariants recur values = joinVariants recur' values := by
    unfold joinVariants
    cases hpayloads : each variantPayload values with
    | none => rfl
    | some payloads => simp only [Option.map_some, h _ (below_variantPayload hpayloads)]
  have hchoices : joinChoices recur values = joinChoices recur' values := by
    unfold joinChoices
    cases hmaps : each choiceCases values with
    | none => rfl
    | some maps =>
      have hmap : ∀ name, recur (maps.filterMap (·.lookup name)) = recur' (maps.filterMap (·.lookup name)) :=
        fun name => h _ (below_entries (fun _ _ => choiceCases_eq) hmaps name)
      simp only [Option.map_some, hmap]
  cases values with
  | nil => rfl
  | cons first rest =>
    unfold joinStep joinForms
    rw [hstores, hsequences, hshapes, hregions, hvariants, hchoices]

theorem joinWithin_nil (fuel : ℕ) : joinWithin fuel [] = .none := by
  cases fuel <;> rfl

theorem joinWithin_eq {n m : ℕ} (hn : ∀ value ∈ values, value.depth < n) (hm : ∀ value ∈ values, value.depth < m) :
    joinWithin n values = joinWithin m values := by
  induction n generalizing m values with
  | zero =>
    cases values with
    | nil => rw [joinWithin_nil, joinWithin_nil]
    | cons value rest => exact absurd (hn value List.mem_cons_self) (Nat.not_lt_zero _)
  | succ n ih =>
    cases m with
    | zero =>
      cases values with
      | nil => rw [joinWithin_nil, joinWithin_nil]
      | cons value rest => exact absurd (hm value List.mem_cons_self) (Nat.not_lt_zero _)
    | succ m =>
      rw [joinWithin, joinWithin]
      refine joinStep_congr fun sub hsub => ih (fun c hc => ?_) fun c hc => ?_
      · obtain ⟨value, hvalue, hlt⟩ := (hsub c hc).depth
        have hle := hn value hvalue
        omega
      · obtain ⟨value, hvalue, hlt⟩ := (hsub c hc).depth
        have hle := hm value hvalue
        omega

/-- **The recursion of a join.** -/
theorem joinAlternatives_eq (values : List Produced) : joinAlternatives values = joinStep joinAlternatives values := by
  unfold joinAlternatives
  rw [joinWithin]
  refine joinStep_congr fun sub hsub => joinWithin_eq (fun c hc => ?_) fun c hc => ?_
  · obtain ⟨value, hvalue, hlt⟩ := (hsub c hc).depth
    have hle := depth_le_depthOfAll hvalue
    omega
  · have hle := depth_le_depthOfAll hc
    omega

/-- **Induction over the recursion of a join.** -/
theorem below_induction {motive : List Produced → Prop}
    (h : ∀ values, (∀ sub, sub ≠ [] → (∀ c ∈ sub, Below values c) → motive sub) → motive values)
    (values : List Produced) : motive values := by
  have hbounded : ∀ n values, (∀ value ∈ values, value.depth < n) → motive values := by
    intro n
    induction n with
    | zero =>
      intro values hn
      refine h values fun sub hne hsub => ?_
      obtain ⟨c, rest, rfl⟩ := List.exists_cons_of_ne_nil hne
      obtain ⟨value, hvalue, -⟩ := (hsub c List.mem_cons_self).depth
      exact absurd (hn value hvalue) (Nat.not_lt_zero _)
    | succ n ih =>
      intro values hn
      refine h values fun sub _ hsub => ih sub fun c hc => ?_
      obtain ⟨value, hvalue, hlt⟩ := (hsub c hc).depth
      have hle := hn value hvalue
      omega
  exact hbounded (depthOfAll values + 1) values fun value hvalue => by
    have hle := depth_le_depthOfAll hvalue
    omega

end Recursion

/-! ### What a join carries -/

/-- A property of trees that a part hands on: a relevant one, which neither the access of a symbolic Store nor the form
of an authority decides. -/
structure Carried (P : Produced → Prop) : Prop where
  relevant : ∀ p, P p → p.relevant = true
  many : ∀ values, P (.many values) ↔ ∃ value ∈ values, P value
  sequence : ∀ values, P (.sequence values) ↔ ∃ value ∈ values, P value
  shape : ∀ fields, P (.shape fields) ↔ ∃ value ∈ fields.map Prod.snd, P value
  choice : ∀ cases, P (.choice cases) ↔ ∃ value ∈ cases.map Prod.snd, P value
  variant : ∀ payload, P (.variant payload) ↔ P payload
  store : (∀ elements, P (.store elements)) ∨ ∀ elements, P (.store elements) ↔ P elements
  emptyStore : ¬ P .emptyStore
  region : (∀ qualifier root splits elements elements',
      P (.region qualifier root splits elements) → P (.region qualifier root splits elements')) ∨
    ∀ qualifier root splits elements, P (.region qualifier root splits elements) ↔ P elements
  authority : ∀ p, p.isRegionAuthority = true → P p → P p.regionAuthority
  access : ∀ source path shareable access access',
    P (.storeParameter source path shareable access) → P (.storeParameter source path shareable access')

/-- An entry of a map with distinct keys. -/
theorem lookup_of_mem {fields : List (String × Produced)} (hkeys : (fields.map Prod.fst).Nodup) {value : Produced}
    (h : value ∈ fields.map Prod.snd) : ∃ name ∈ fields.map Prod.fst, fields.lookup name = some value := by
  obtain ⟨⟨name, _⟩, hmem, rfl⟩ := List.mem_map.1 h
  exact ⟨name, List.mem_map_of_mem hmem, Support.Table.lookup_of_mem hkeys hmem⟩

section Carried

variable {P : Produced → Prop} (hP : Carried P)
include hP

theorem Carried.parts {p : Produced} : P p ↔ ∃ value ∈ p.parts, P value := by
  unfold Produced.parts
  split
  · exact hP.many _
  · simp

theorem Carried.combine {left right : Produced} (h : P left ∨ P right) : P (combine left right) := by
  unfold Produced.combine
  split
  · next heq => exact h.elim id fun h => heq ▸ h
  · split
    · next hirrelevant =>
      rw [Bool.not_eq_true'] at hirrelevant
      exact h.resolve_left fun h => by simp [hP.relevant _ h] at hirrelevant
    · split
      · next hirrelevant =>
        rw [Bool.not_eq_true'] at hirrelevant
        exact h.resolve_right fun h => by simp [hP.relevant _ h] at hirrelevant
      · rw [hP.many]
        rw [hP.parts, hP.parts] at h
        rcases h with ⟨value, hvalue, h⟩ | ⟨value, hvalue, h⟩
        · exact ⟨value, List.mem_append_left _ hvalue, h⟩
        · exact ⟨value, List.mem_append_right _ hvalue, h⟩

theorem Carried.foldl_combine {values : List Produced} {found : Produced} (h : P found ∨ ∃ value ∈ values, P value) :
    P (values.foldl Produced.combine found) := by
  induction values generalizing found with
  | nil => exact h.resolve_right (by simp)
  | cons value rest ih =>
    rw [List.exists_mem_cons_iff, ← or_assoc] at h
    exact ih (h.imp_left hP.combine)

theorem Carried.join {values : List Produced} {value : Produced} (hvalue : value ∈ values) (h : P value) :
    P (join values) := hP.foldl_combine (.inr ⟨value, hvalue, h⟩)

omit hP in
theorem sameParameter_access {source : PatternId} {path : List String} {shareable : Bool} (access access' : StoreAccess)
    (value : Produced) : sameParameter (.storeParameter source path shareable access) value =
      sameParameter (.storeParameter source path shareable access') value := by
  cases value <;> rfl

theorem Carried.merged {first : Produced} {rest : List Produced}
    (hsame : ∀ value ∈ rest, sameParameter first value = true)
    (h : P first) : P (rest.foldl mergeStoreAccessRequirements first) := by
  induction rest generalizing first with
  | nil => exact h
  | cons value rest ih =>
    have hvalue := hsame value List.mem_cons_self
    cases first with
    | storeParameter source path shareable access =>
      cases value with
      | storeParameter source' path' shareable' access' =>
        have heq : source = source' ∧ path = path' ∧ shareable = shareable' := of_decide_eq_true hvalue
        rw [List.foldl_cons, mergeStoreAccessRequirements, if_pos heq]
        refine ih (fun value hvalue => ?_) (hP.access _ _ _ _ _ h)
        rw [sameParameter_access _ access]
        exact hsame value (List.mem_cons_of_mem _ hvalue)
      | _ => cases hvalue
    | _ => cases value <;> cases hvalue

theorem Carried.ofSameParameter {first value : Produced} (hsame : sameParameter first value = true) (h : P value) :
    P first := by
  cases first with
  | storeParameter source path shareable access =>
    cases value with
    | storeParameter source' path' shareable' access' =>
      obtain ⟨rfl, rfl, rfl⟩ : source = source' ∧ path = path' ∧ shareable = shareable' := of_decide_eq_true hsame
      exact hP.access _ _ _ _ _ h
    | _ => cases hsame
  | _ => cases value <;> cases hsame

section Step

variable {recur : List Produced → Produced} {values : List Produced} {value p : Produced}
  (hrec : ∀ sub, (∀ c ∈ sub, Below values c) → ∀ c ∈ sub, P c → P (recur sub)) (hvalue : value ∈ values) (h : P value)
include hrec hvalue h

theorem Carried.joinStores (hjoin : joinStores recur values = some p) : P p := by
  unfold Produced.joinStores at hjoin
  split at hjoin
  · next hall =>
    obtain rfl := Option.some.inj hjoin
    rcases hP.store with hstore | hstore
    · exact hstore _
    · have hisStore := List.all_eq_true.1 hall value hvalue
      cases value with
      | store elements =>
        rw [hstore] at h ⊢
        exact hrec _ below_storeElements elements (List.mem_filterMap.2 ⟨_, hvalue, rfl⟩) h
      | emptyStore => exact absurd h hP.emptyStore
      | _ => cases hisStore
  · cases hjoin

theorem Carried.joinSequences (hjoin : joinSequences recur values = some p) : P p := by
  obtain ⟨rows, hrows, hjoin⟩ := Option.bind_eq_some_iff.1 hjoin
  obtain ⟨first, hfirst, hjoin⟩ := Option.bind_eq_some_iff.1 hjoin
  split at hjoin
  · next hall =>
    obtain rfl := Option.some.inj hjoin
    obtain ⟨row, hrow, hselect⟩ := (each_eq_some hrows).1 value hvalue
    cases value with
    | sequence elements =>
      obtain rfl := Option.some.inj hselect
      obtain ⟨c, hc, hPc⟩ := (hP.sequence _).1 h
      obtain ⟨index, hindex, rfl⟩ := List.mem_iff_getElem.1 hc
      have hlength : elements.length = first.length := of_decide_eq_true (List.all_eq_true.1 hall elements hrow)
      refine (hP.sequence _).2 ⟨_, List.mem_map_of_mem (List.mem_range.2 (hlength ▸ hindex)), ?_⟩
      exact hrec _ (below_sequenceElements hrows index) _
        (List.mem_filterMap.2 ⟨elements, hrow, List.getElem?_eq_getElem hindex⟩) hPc
    | _ => cases hselect
  · cases hjoin

theorem Carried.joinVariants (hjoin : joinVariants recur values = some p) : P p := by
  obtain ⟨payloads, hpayloads, rfl⟩ := Option.map_eq_some_iff.1 hjoin
  obtain ⟨payload, hpayload, hselect⟩ := (each_eq_some hpayloads).1 value hvalue
  cases value with
  | variant payload' =>
    obtain rfl := Option.some.inj hselect
    rw [hP.variant] at h ⊢
    exact hrec _ (below_variantPayload hpayloads) _ hpayload h
  | _ => cases hselect

theorem Carried.joinRegions (hjoin : joinRegions recur values = some p) : P p := by
  unfold Produced.joinRegions at hjoin
  split at hjoin
  · next hguard =>
    obtain ⟨hany, hall⟩ := Bool.and_eq_true_iff.1 hguard
    have hauthority := hP.authority value (List.all_eq_true.1 hall value hvalue) h
    split at hjoin
    · next qualifier root splits elements _ =>
      split at hjoin
      · next hproof =>
        obtain rfl := Option.some.inj hjoin
        have hmem : value.regionAuthority ∈ values.map regionAuthority := List.mem_map_of_mem hvalue
        have hpart := of_decide_eq_true (List.all_eq_true.1 hproof _ hmem)
        generalize value.regionAuthority = authority at *
        cases authority with
        | region qualifier' root' splits' elements' =>
          obtain ⟨rfl, rfl, rfl, -⟩ := Produced.region.inj (Option.some.inj hpart)
          rcases hP.region with hregion | hregion
          · exact hregion _ _ _ _ _ hauthority
          · rw [hregion] at hauthority ⊢
            exact hrec _ (below_regionElements hany hall) _ (List.mem_filterMap.2 ⟨_, hmem, rfl⟩) hauthority
        | _ => cases hpart
      · cases hjoin
    · cases hjoin
  · cases hjoin

theorem Carried.joinShapes (hkeyed : ∀ value ∈ values, value.Keyed) (hjoin : joinShapes recur values = some p) :
    P p := by
  obtain ⟨maps, hmaps, hjoin⟩ := Option.bind_eq_some_iff.1 hjoin
  obtain ⟨first, hfirst, hjoin⟩ := Option.bind_eq_some_iff.1 hjoin
  split at hjoin
  · next hall =>
    obtain rfl := Option.some.inj hjoin
    obtain ⟨fields, hfields, hselect⟩ := (each_eq_some hmaps).1 value hvalue
    obtain ⟨value', hvalue', hselect'⟩ := (each_eq_some hmaps).2 first (List.mem_of_mem_head? hfirst)
    cases value with
    | shape fields' =>
      obtain rfl := Option.some.inj hselect
      cases value' with
      | shape first' =>
        obtain rfl := Option.some.inj hselect'
        obtain ⟨c, hc, hPc⟩ := (hP.shape _).1 h
        obtain ⟨name, hname, hlookup⟩ := lookup_of_mem (hkeyed _ hvalue).keys hc
        have hnames := List.all_eq_true.1 hall _ hfields
        obtain ⟨hlength, hnames⟩ := Bool.and_eq_true_iff.1 hnames
        -- The two shapes have as many names, and the first has no other ones.
        have hsubset : first'.map Prod.fst ⊆ fields'.map Prod.fst := by
          intro name hname
          obtain ⟨field, hfield, rfl⟩ := List.mem_map.1 hname
          obtain ⟨value, hvalue⟩ := Option.isSome_iff_exists.1 (List.all_eq_true.1 hnames field hfield)
          exact List.mem_map.2 ⟨_, Support.Table.mem_of_lookup hvalue, rfl⟩
        have hperm : (first'.map Prod.fst).Perm (fields'.map Prod.fst) := by
          refine ((hkeyed _ hvalue').keys.subperm hsubset).perm_of_length_le ?_
          rw [List.length_map, of_decide_eq_true hlength]
          exact (List.length_map _).ge
        obtain ⟨field, hfield, rfl⟩ := List.mem_map.1 (hperm.mem_iff.2 hname)
        refine (hP.shape _).2 ⟨_, List.mem_map_of_mem (List.mem_map_of_mem hfield), ?_⟩
        exact hrec _ (below_entries (fun _ _ => shapeFields_eq) hmaps field.1) c (List.mem_filterMap.2 ⟨_, hfields, hlookup⟩) hPc
      | _ => cases hselect'
    | _ => cases hselect
  · cases hjoin

theorem Carried.joinChoices (hkeyed : ∀ value ∈ values, value.Keyed) (hjoin : joinChoices recur values = some p) :
    P p := by
  obtain ⟨maps, hmaps, rfl⟩ := Option.map_eq_some_iff.1 hjoin
  obtain ⟨cases', hcases, hselect⟩ := (each_eq_some hmaps).1 value hvalue
  cases value with
  | choice fields =>
    obtain rfl := Option.some.inj hselect
    obtain ⟨c, hc, hPc⟩ := (hP.choice _).1 h
    obtain ⟨name, hname, hlookup⟩ := lookup_of_mem (hkeyed _ hvalue).keys hc
    have hnames : name ∈ ((maps.flatMap fun cases => cases.map Prod.fst).dedup).insertionSort (· ≤ ·) := by
      rw [List.mem_insertionSort, List.mem_dedup]
      exact List.mem_flatMap.2 ⟨_, hcases, hname⟩
    refine (hP.choice _).2 ⟨_, List.mem_map_of_mem (List.mem_map_of_mem hnames), ?_⟩
    exact hrec _ (below_entries (fun _ _ => choiceCases_eq) hmaps name) c (List.mem_filterMap.2 ⟨_, hcases, hlookup⟩) hPc
  | _ => cases hselect

theorem Carried.joinStep (hkeyed : ∀ value ∈ values, value.Keyed) : P (joinStep recur values) := by
  cases values with
  | nil => exact absurd hvalue List.not_mem_nil
  | cons first rest =>
    unfold Produced.joinStep
    dsimp only
    split
    · next hall =>
      have heq := of_decide_eq_true (List.all_eq_true.1 hall value hvalue)
      exact heq ▸ h
    · split
      · next hall =>
        refine hP.merged (fun value hvalue => List.all_eq_true.1 hall value (List.mem_cons_of_mem _ hvalue)) ?_
        exact hP.ofSameParameter (List.all_eq_true.1 hall value hvalue) h
      · split
        · next hall =>
          have heq := of_decide_eq_true (List.all_eq_true.1 hall value hvalue)
          exact heq ▸ h
        · cases hcase : Produced.joinStores recur (first :: rest) <|> Produced.joinForms recur (first :: rest) with
          | none => exact hP.join hvalue h
          | some p =>
            unfold Produced.joinForms at hcase
            simp only [Option.orElse_eq_orElse, Option.orElse_eq_or, Option.or_eq_some_iff] at hcase
            rcases hcase with hcase | ⟨-, hcase⟩
            · exact hP.joinStores hrec hvalue h hcase
            rcases hcase with hcase | ⟨-, hcase⟩
            · exact hP.joinSequences hrec hvalue h hcase
            rcases hcase with hcase | ⟨-, hcase⟩
            · exact hP.joinShapes hrec hvalue h hkeyed hcase
            rcases hcase with hcase | ⟨-, hcase⟩
            · exact hP.joinRegions hrec hvalue h hcase
            rcases hcase with hcase | ⟨-, hcase⟩
            · exact hP.joinVariants hrec hvalue h hcase
            · exact hP.joinChoices hrec hvalue h hkeyed hcase

end Step

/-- **A join has what an alternative has.** -/
theorem Carried.joinAlternatives {values : List Produced} (hkeyed : ∀ value ∈ values, value.Keyed) {value : Produced}
    (hvalue : value ∈ values) (h : P value) : P (joinAlternatives values) := by
  induction values using below_induction generalizing value with
  | h values ih =>
    rw [joinAlternatives_eq]
    refine hP.joinStep (fun sub hsub c hc hPc => ?_) hvalue h hkeyed
    exact ih sub (List.ne_nil_of_mem hc) hsub (fun c hc => (hsub c hc).keyed hkeyed) hc hPc

end Carried

theorem carried_obligation {o : Obligation} (ho : o ≠ .none) : Carried fun p => o ≤ p.obligation where
  relevant p h := by
    have hne : p.obligation ≠ .none := by
      intro hnone
      rw [hnone] at h
      cases o <;> first | exact ho rfl | cases h
    simp [relevant, hne]
  many _ := le_obligationOfAll ho
  sequence _ := le_obligationOfAll ho
  shape _ := le_obligationOfFields ho
  choice _ := le_obligationOfFields ho
  variant _ := Iff.rfl
  store := by
    simp only [obligation, Obligation.le_merge ho]
    cases o with
    | none => exact absurd rfl ho
    | affine => exact .inl fun _ => .inl (by decide)
    | linear => exact .inr fun _ => or_iff_right (by decide)
  emptyStore h := by cases o <;> first | exact ho rfl | cases h
  region := .inl fun _ _ _ _ _ h => h
  authority p hp h := by
    cases p with
    | region _ _ _ _ => exact h
    | parameter _ _ => exact h
    | _ => cases hp
  access _ _ _ _ _ h := h

theorem exists_mem_singleton {Q : Produced → Prop} {p : Produced} : (∃ c ∈ [p], Q c) ↔ Q p := by
  simp

theorem contains_parts {here enters : Produced → Bool} {p : Produced} (hhere : here p = false)
    (henters : enters p = true) :
    contains here enters p = true ↔ ∃ c ∈ p.children, contains here enters c = true := by
  rw [contains_iff, hhere, henters]
  simp

theorem carried_containsBorrow : Carried fun p => p.containsBorrow = true where
  relevant p h := by simp [relevant, h]
  many _ := contains_parts rfl rfl
  sequence _ := contains_parts rfl rfl
  shape _ := contains_parts rfl rfl
  choice _ := contains_parts rfl rfl
  variant _ := (contains_parts rfl rfl).trans exists_mem_singleton
  store := .inr fun _ => (contains_parts rfl rfl).trans exists_mem_singleton
  emptyStore h := by cases h
  region := .inl fun _ _ _ _ _ h => by cases h
  authority p hp h := by
    cases p with
    | region _ _ _ _ => exact h
    | parameter _ _ => cases h
    | _ => cases hp
  access _ _ _ _ _ h := by cases h

theorem carried_containsShared : Carried fun p => p.containsShared = true where
  relevant p h := by simp [relevant, h]
  many _ := contains_parts rfl rfl
  sequence _ := contains_parts rfl rfl
  shape _ := contains_parts rfl rfl
  choice _ := contains_parts rfl rfl
  variant _ := (contains_parts rfl rfl).trans exists_mem_singleton
  store := .inr fun _ => (contains_parts rfl rfl).trans exists_mem_singleton
  emptyStore h := by cases h
  region := .inr fun _ _ _ _ => (contains_parts rfl rfl).trans exists_mem_singleton
  authority p hp h := by
    cases p with
    | region _ _ _ _ => exact h
    | parameter _ _ => cases h
    | _ => cases hp
  access _ _ _ _ _ h := by cases h

/-! ### When a join is an owned Store -/

section Store

variable {values : List Produced} {elements : Produced}

theorem relevant_store : (Produced.store elements).relevant = true := by
  have hne : (Produced.store elements).obligation ≠ .none := by
    rw [obligation]
    cases elements.obligation <;> decide
  simp [relevant, hne]

theorem relevant_of_isStore {p : Produced} (h : p.isStore = true) : p.relevant = true := by
  cases p with
  | store _ => exact relevant_store
  | emptyStore => rfl
  | _ => cases h

theorem carried_relevant_many {found : List Produced} {value : Produced} (hvalue : value ∈ found)
    (h : value.relevant = true) : (Produced.many found).relevant = true := by
  unfold relevant at h
  simp only [Bool.or_eq_true, decide_eq_true_eq] at h
  obtain ((h | h) | h) | h := h
  · exact (carried_obligation h).relevant _
      (((carried_obligation h).many found).2 ⟨value, hvalue, by cases value.obligation <;> decide⟩)
  · exact Carried.relevant carried_containsBorrow _ ((Carried.many carried_containsBorrow found).2 ⟨value, hvalue, h⟩)
  · exact Carried.relevant carried_containsShared _ ((Carried.many carried_containsShared found).2 ⟨value, hvalue, h⟩)
  · have hempty : (Produced.many found).containsEmptyStore = true := (contains_parts rfl rfl).2 ⟨value, hvalue, h⟩
    simp [relevant, hempty]

theorem relevant_of_parts {p : Produced} (h : p.relevant = true) : ∃ value ∈ p.parts, value.relevant = true := by
  unfold parts
  split
  · next found =>
    unfold relevant at h
    simp only [Bool.or_eq_true, decide_eq_true_eq] at h
    obtain ((h | h) | h) | h := h
    · obtain ⟨value, hvalue, hle⟩ := ((carried_obligation h).many found).1 (by
        cases (Produced.many found).obligation <;> decide)
      exact ⟨value, hvalue, (carried_obligation h).relevant _ hle⟩
    · obtain ⟨value, hvalue, h⟩ := (Carried.many carried_containsBorrow found).1 h
      exact ⟨value, hvalue, Carried.relevant carried_containsBorrow _ h⟩
    · obtain ⟨value, hvalue, h⟩ := (Carried.many carried_containsShared found).1 h
      exact ⟨value, hvalue, Carried.relevant carried_containsShared _ h⟩
    · obtain ⟨value, hvalue, h⟩ := (contains_parts rfl rfl).1 h
      exact ⟨value, hvalue, by simp [relevant, containsEmptyStore, h]⟩
  · exact ⟨_, List.mem_cons_self, h⟩

theorem of_combine_store {left right : Produced} (h : combine left right = .store elements ∨
      (combine left right).relevant = false) :
    (left = .store elements ∨ left.relevant = false) ∧ (right = .store elements ∨ right.relevant = false) := by
  unfold combine at h
  split at h
  · next heq =>
    subst heq
    exact ⟨h, h⟩
  · split at h
    · next hirrelevant => exact ⟨.inr (by simpa using hirrelevant), h⟩
    · split at h
      · next hirrelevant => exact ⟨h, .inr (by simpa using hirrelevant)⟩
      · next hleft _ =>
        obtain ⟨value, hvalue, hrelevant⟩ := relevant_of_parts (p := left) (by simpa using hleft)
        have hmany := carried_relevant_many (List.mem_append_left right.parts hvalue) hrelevant
        rcases h with h | h
        · cases h
        · rw [hmany] at h
          cases h

theorem of_foldl_combine_store {found : Produced} (h : values.foldl combine found = .store elements) :
    (found = .store elements ∨ found.relevant = false) ∧
      ∀ value ∈ values, value = .store elements ∨ value.relevant = false := by
  induction values generalizing found with
  | nil => exact ⟨.inl h, fun _ h => absurd h List.not_mem_nil⟩
  | cons value rest ih =>
    obtain ⟨hfound, hrest⟩ := ih h
    obtain ⟨hfound, hvalue⟩ := of_combine_store hfound
    exact ⟨hfound, List.forall_mem_cons.2 ⟨hvalue, hrest⟩⟩

theorem combine_store {left right : Produced} (hleft : left = .store elements ∨ left.relevant = false)
    (hright : right = .store elements ∨ right.relevant = false) :
    (combine left right = .store elements ∨ (combine left right).relevant = false) ∧
      (left = .store elements ∨ right = .store elements → combine left right = .store elements) := by
  have hstore : (Produced.store elements).relevant = true := relevant_store
  unfold combine
  split
  · next heq =>
    subst heq
    exact ⟨hleft, fun h => h.elim id id⟩
  · next hne =>
    split
    · next hirrelevant =>
      refine ⟨hright, fun h => h.resolve_left ?_⟩
      rintro rfl
      simp [hstore] at hirrelevant
    · next hrelevant =>
      have hleft := hleft.resolve_right (by simpa using hrelevant)
      split
      · exact ⟨.inl hleft, fun _ => hleft⟩
      · next hrelevant' =>
        have hright := hright.resolve_right (by simpa using hrelevant')
        exact absurd (hleft.trans hright.symm) hne

theorem foldl_combine_store {found : Produced} (hfound : found = .store elements ∨ found.relevant = false)
    (hall : ∀ value ∈ values, value = .store elements ∨ value.relevant = false)
    (hsome : found = .store elements ∨ .store elements ∈ values) :
    values.foldl combine found = .store elements := by
  induction values generalizing found with
  | nil => exact hsome.resolve_right List.not_mem_nil
  | cons value rest ih =>
    obtain ⟨hcombine, hstore⟩ := combine_store hfound (hall value List.mem_cons_self)
    refine ih hcombine (fun value hvalue => hall value (List.mem_cons_of_mem _ hvalue)) ?_
    rw [List.mem_cons, ← or_assoc] at hsome
    exact hsome.imp_left fun h => hstore (h.imp_right Eq.symm)

theorem joinForms_ne_store {recur : List Produced → Produced} {p : Produced}
    (h : joinForms recur values = some p) : p ≠ .store elements := by
  unfold joinForms at h
  simp only [Option.orElse_eq_orElse, Option.orElse_eq_or, Option.or_eq_some_iff] at h
  rcases h with h | ⟨-, h⟩
  · obtain ⟨rows, -, h⟩ := Option.bind_eq_some_iff.1 h
    obtain ⟨first, -, h⟩ := Option.bind_eq_some_iff.1 h
    split at h
    · exact Option.some.inj h ▸ nofun
    · cases h
  rcases h with h | ⟨-, h⟩
  · obtain ⟨maps, -, h⟩ := Option.bind_eq_some_iff.1 h
    obtain ⟨first, -, h⟩ := Option.bind_eq_some_iff.1 h
    split at h
    · exact Option.some.inj h ▸ nofun
    · cases h
  rcases h with h | ⟨-, h⟩
  · unfold joinRegions at h
    split at h
    · split at h
      · split at h
        · exact Option.some.inj h ▸ nofun
        · cases h
      · cases h
    · cases h
  rcases h with h | ⟨-, h⟩
  · obtain ⟨payloads, -, rfl⟩ := Option.map_eq_some_iff.1 h
    nofun
  · obtain ⟨maps, -, rfl⟩ := Option.map_eq_some_iff.1 h
    nofun

theorem joinForms_of_store {recur : List Produced → Produced} (h : .store elements ∈ values) :
    joinForms recur values = Option.none := by
  have heach : ∀ {A : Type} (select : Produced → Option A), select (.store elements) = Option.none →
      each select values = Option.none := by
    intro A select hselect
    refine if_neg fun hall => ?_
    have hsome := List.all_eq_true.1 hall _ h
    rw [hselect] at hsome
    cases hsome
  have hregions : joinRegions recur values = Option.none := by
    refine if_neg fun hguard => ?_
    have hauthority := List.all_eq_true.1 (Bool.and_eq_true_iff.1 hguard).2 _ h
    cases hauthority
  unfold joinForms joinSequences joinShapes joinVariants joinChoices
  rw [heach sequenceElements rfl, heach shapeFields rfl, heach variantPayload rfl, heach choiceCases rfl, hregions]
  rfl

theorem foldl_merge_storeParameter (source : PatternId) (path : List String) (shareable : Bool) (access : StoreAccess)
    (values : List Produced) :
    ∃ access', values.foldl mergeStoreAccessRequirements (.storeParameter source path shareable access) =
      .storeParameter source path shareable access' := by
  induction values generalizing access with
  | nil => exact ⟨access, rfl⟩
  | cons value rest ih =>
    rw [List.foldl_cons]
    cases value with
    | storeParameter source' path' shareable' access' =>
      rw [mergeStoreAccessRequirements]
      split
      · exact ih _
      · exact ih _
    | _ => exact ih _

theorem foldl_combine_irrelevant {found : Produced} (hfound : found.relevant = false)
    (hall : ∀ value ∈ values, value.relevant = false) : (values.foldl combine found).relevant = false := by
  induction values generalizing found with
  | nil => exact hfound
  | cons value rest ih =>
    refine ih ?_ fun value hvalue => hall value (List.mem_cons_of_mem _ hvalue)
    unfold combine
    split
    · exact hfound
    · rw [hfound]
      exact hall value List.mem_cons_self

/-- **When a join is an owned Store**: all alternatives are owned Stores or empty ones, or all that are relevant are one
owned Store. -/
theorem joinAlternatives_eq_store :
    (∃ elements, joinAlternatives values = .store elements) ↔
      ∃ elements, .store elements ∈ values ∧
        ((∀ value ∈ values, value.isStore = true) ∨
          ∀ value ∈ values, value = .store elements ∨ value.relevant = false) := by
  rw [joinAlternatives_eq]
  cases values with
  | nil =>
    constructor
    · rintro ⟨elements, h⟩
      cases h
    · rintro ⟨elements, h, -⟩
      cases h
  | cons first rest =>
    unfold joinStep
    dsimp only
    constructor
    · rintro ⟨elements, h⟩
      split at h
      · cases h
      · split at h
        · next hsame =>
          have hfirst := List.all_eq_true.1 hsame first List.mem_cons_self
          cases first with
          | storeParameter source path shareable access =>
            obtain ⟨access', heq⟩ := foldl_merge_storeParameter source path shareable access rest
            rw [heq] at h
            cases h
          | _ => cases hfirst
        · split at h
          · next hall =>
            refine ⟨elements, h ▸ List.mem_cons_self, .inr fun value hvalue => .inl ?_⟩
            exact (of_decide_eq_true (List.all_eq_true.1 hall value hvalue)).trans h
          · next hdiffer =>
            by_cases hstores : (first :: rest).all isStore = true
            · rw [List.all_eq_true] at hstores
              have hstore : ∃ elements, Produced.store elements ∈ first :: rest := by
                by_contra hnone
                have hempty : ∀ value ∈ first :: rest, value = .emptyStore := by
                  intro value hvalue
                  have hisStore := hstores value hvalue
                  cases value with
                  | emptyStore => rfl
                  | store elements => exact absurd ⟨elements, hvalue⟩ hnone
                  | _ => cases hisStore
                refine hdiffer (List.all_eq_true.2 fun value hvalue => decide_eq_true ?_)
                exact (hempty value hvalue).trans (hempty first List.mem_cons_self).symm
              obtain ⟨elements, hmem⟩ := hstore
              exact ⟨elements, hmem, .inl hstores⟩
            · have hjoinStores : joinStores joinAlternatives (first :: rest) = Option.none := if_neg hstores
              rw [hjoinStores, Option.orElse_eq_orElse, Option.orElse_none] at h
              cases hcase : joinForms joinAlternatives (first :: rest) with
              | some p =>
                rw [hcase] at h
                exact absurd h (joinForms_ne_store hcase)
              | none =>
                rw [hcase] at h
                obtain ⟨-, hall⟩ := of_foldl_combine_store h
                refine ⟨elements, ?_, .inr hall⟩
                by_contra hmem
                have hirrelevant : ((first :: rest).foldl combine .none).relevant = false := by
                  refine foldl_combine_irrelevant rfl fun value hvalue => ?_
                  exact (hall value hvalue).resolve_left fun heq => hmem (heq ▸ hvalue)
                have hjoin : (first :: rest).foldl combine .none = .store elements := h
                rw [hjoin, relevant_store] at hirrelevant
                cases hirrelevant
    · rintro ⟨elements, hmem, hcase⟩
      split
      · next hall => cases of_decide_eq_true (List.all_eq_true.1 hall _ hmem)
      · split
        · next hsame =>
          have hfirst := List.all_eq_true.1 hsame _ hmem
          cases first <;> cases hfirst
        · split
          · next hall => exact ⟨elements, (of_decide_eq_true (List.all_eq_true.1 hall _ hmem)).symm⟩
          · by_cases hstores : (first :: rest).all isStore = true
            · have hjoinStores : joinStores joinAlternatives (first :: rest) = some _ := if_pos hstores
              rw [hjoinStores]
              exact ⟨_, rfl⟩
            · have hjoinStores : joinStores joinAlternatives (first :: rest) = Option.none := if_neg hstores
              rw [hjoinStores, Option.orElse_eq_orElse, Option.orElse_none, joinForms_of_store hmem]
              refine ⟨elements, foldl_combine_store (.inr rfl) (hcase.resolve_left fun hall => ?_) (.inr hmem)⟩
              exact hstores (List.all_eq_true.2 hall)

end Store

end Produced

end Blot.Ownership
