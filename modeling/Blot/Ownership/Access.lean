import Blot.Ownership.Join

/-!
# Merging the access of symbolic Stores (`ownership.rs`)

`merge_store_access_requirements` keeps one tree and raises the access of its symbolic Stores where another tree asks
for a unique one.

* `Produced.partAt` — what stands at a position of a tree;
* `partAt_merge_shared`, `partAt_merge_unique` — what merging changes;
* `foldl_merge_eq_iff` — when two trees come out the same.
-/

namespace Blot.Ownership

namespace Produced

/-! ### Positions -/

/-- A step from a tree to a part of it; the entries of a map are named. -/
inductive Step where
  | nth (index : ℕ)
  | named (name : String)

def child : Produced → Step → Option Produced
  | .shape fields, .named name => fields.lookup name
  | .choice cases, .named name => cases.lookup name
  | .shape _, .nth _ | .choice _, .nth _ => Option.none
  | p, .nth index => p.children[index]?
  | _, .named _ => Option.none

def partAt : Produced → List Step → Option Produced
  | p, [] => some p
  | p, step :: rest => (p.child step).bind (·.partAt rest)

def rowOf (length : ℕ) (row : Option (List Produced)) : List Produced :=
  match row with
  | some row => if length = row.length then row else []
  | Option.none => []

def manyValues : Produced → Option (List Produced)
  | .many values => some values
  | _ => Option.none

def counterpart : Produced → Produced → Step → Option Produced
  | .sequence primary, alternative, .nth index => (rowOf primary.length alternative.sequenceElements)[index]?
  | .many primary, alternative, .nth index => (rowOf primary.length alternative.manyValues)[index]?
  | .shape _, alternative, .named name => (alternative.shapeFields.getD []).lookup name
  | .choice _, alternative, .named name => (alternative.choiceCases.getD []).lookup name
  | .variant _, alternative, .nth 0 => alternative.variantPayload
  | _, _, _ => Option.none

def mergeWith (p : Produced) : Option Produced → Produced
  | some c => p.mergeStoreAccessRequirements c
  | Option.none => p

/-- The position is one of a symbolic Store that both trees have there and that a merge reaches. -/
def Aligned : Produced → Produced → List Step → Prop
  | p, a, [] => sameParameter p a = true
  | p, a, step :: rest => ∃ c c', p.child step = some c ∧ counterpart p a step = some c' ∧ Aligned c c' rest

/-! ### One merge -/

section Positions

variable {p a : Produced} {step : Step} {rest : List Step}

theorem partAt_nil : p.partAt [] = some p := rfl

theorem partAt_cons : p.partAt (step :: rest) = (p.child step).bind (·.partAt rest) := rfl

theorem counterpart_sequence {primary : List Produced} {index : ℕ} :
    counterpart (.sequence primary) a (.nth index) = (rowOf primary.length a.sequenceElements)[index]? := rfl

theorem counterpart_many {primary : List Produced} {index : ℕ} :
    counterpart (.many primary) a (.nth index) = (rowOf primary.length a.manyValues)[index]? := rfl

theorem aligned_nil : Aligned p a [] ↔ sameParameter p a = true := Iff.rfl

theorem aligned_cons : Aligned p a (step :: rest) ↔
    ∃ c c', p.child step = some c ∧ counterpart p a step = some c' ∧ Aligned c c' rest := Iff.rfl

end Positions

section Forms

variable {a : Produced}

theorem mergeAll_nil (primary : List Produced) : mergeAll primary [] = primary := by
  cases primary <;> rfl

theorem mergeFields_nil (primary : List (String × Produced)) : mergeFields primary [] = primary := by
  induction primary with
  | nil => rfl
  | cons field rest ih =>
    obtain ⟨name, value⟩ := field
    rw [mergeFields, ih]
    rfl

theorem merge_storeParameter {source : PatternId} {path : List String} {shareable : Bool} {access : StoreAccess} :
    (storeParameter source path shareable access).mergeStoreAccessRequirements a =
      .storeParameter source path shareable
        (if a = .storeParameter source path shareable .unique then .unique else access) := by
  cases a with
  | storeParameter source' path' shareable' access' =>
    rw [mergeStoreAccessRequirements]
    by_cases h : source = source' ∧ path = path' ∧ shareable = shareable'
    · obtain ⟨rfl, rfl, rfl⟩ := h
      cases access <;> cases access' <;> simp [StoreAccess.merge]
    · have hne : ¬ Produced.storeParameter source' path' shareable' access' =
          .storeParameter source path shareable .unique := by
        rintro heq
        obtain ⟨rfl, rfl, rfl, -⟩ := Produced.storeParameter.inj heq
        exact h ⟨rfl, rfl, rfl⟩
      rw [if_neg h, if_neg hne]
  | _ => rfl

theorem merge_sequence {primary : List Produced} :
    (sequence primary).mergeStoreAccessRequirements a =
      .sequence (mergeAll primary (rowOf primary.length a.sequenceElements)) := by
  cases a with
  | sequence alternative =>
    rw [mergeStoreAccessRequirements, sequenceElements, rowOf]
    split
    · rfl
    · rw [mergeAll_nil]
  | _ =>
    rw [sequenceElements, rowOf, mergeAll_nil]
    · rfl
    · intros; contradiction

theorem merge_many {primary : List Produced} :
    (many primary).mergeStoreAccessRequirements a =
      .many (mergeAll primary (rowOf primary.length a.manyValues)) := by
  cases a with
  | many alternative =>
    rw [mergeStoreAccessRequirements, manyValues, rowOf]
    split
    · rfl
    · rw [mergeAll_nil]
  | _ =>
    rw [manyValues, rowOf, mergeAll_nil]
    · rfl
    · intros; contradiction

theorem merge_shape {primary : List (String × Produced)} :
    (shape primary).mergeStoreAccessRequirements a = .shape (mergeFields primary (a.shapeFields.getD [])) := by
  cases a with
  | shape alternative => rfl
  | _ =>
    rw [shapeFields, Option.getD_none, mergeFields_nil]
    · rfl
    · nofun

theorem merge_choice {primary : List (String × Produced)} :
    (choice primary).mergeStoreAccessRequirements a = .choice (mergeFields primary (a.choiceCases.getD [])) := by
  cases a with
  | choice alternative => rfl
  | _ =>
    rw [choiceCases, Option.getD_none, mergeFields_nil]
    · rfl
    · nofun

theorem merge_variant {primary : Produced} :
    (variant primary).mergeStoreAccessRequirements a = .variant (primary.mergeWith a.variantPayload) := by
  cases a <;> rfl

end Forms

section Merge

variable {p a b : Produced}

theorem getElem?_mergeAll (primary alternative : List Produced) (index : ℕ) :
    (mergeAll primary alternative)[index]? = (primary[index]?).map fun c => c.mergeWith alternative[index]? := by
  induction primary generalizing alternative index with
  | nil => cases alternative <;> rfl
  | cons primary rest ih =>
    cases alternative with
    | nil =>
      rw [mergeAll_nil]
      simp [mergeWith]
    | cons alternative rest' =>
      rw [mergeAll]
      cases index with
      | zero => rfl
      | succ index => exact ih rest' index

theorem length_mergeAll (primary alternative : List Produced) :
    (mergeAll primary alternative).length = primary.length := by
  induction primary generalizing alternative with
  | nil => cases alternative <;> rfl
  | cons primary rest ih =>
    cases alternative with
    | nil => rfl
    | cons alternative rest' => rw [mergeAll, List.length_cons, List.length_cons, ih]

theorem lookup_mergeFields (primary alternative : List (String × Produced)) (name : String) :
    (mergeFields primary alternative).lookup name =
      (primary.lookup name).map fun c => c.mergeWith (alternative.lookup name) := by
  induction primary with
  | nil => rfl
  | cons field rest ih =>
    obtain ⟨name', primary⟩ := field
    rw [mergeFields, List.lookup_cons, List.lookup_cons]
    split
    · next heq =>
      obtain rfl := eq_of_beq heq
      rw [Option.map_some]
      cases alternative.lookup name <;> rfl
    · exact ih

theorem child_of_unmerged {step : Step} (hmerge : p.mergeStoreAccessRequirements a = p)
    (hnone : counterpart p a step = Option.none) :
    (p.mergeStoreAccessRequirements a).child step = (p.child step).map fun c => c.mergeWith (counterpart p a step) := by
  rw [hmerge, hnone]
  exact Option.map_id'.symm

/-- **A part of a merged tree** is a part of the primary one, merged with its counterpart. -/
theorem child_merge (p a : Produced) (step : Step) :
    (p.mergeStoreAccessRequirements a).child step = (p.child step).map fun c => c.mergeWith (counterpart p a step) := by
  cases p with
  | storeParameter source path shareable access =>
    rw [merge_storeParameter]
    cases step <;> rfl
  | sequence primary =>
    rw [merge_sequence]
    cases step with
    | nth index => exact getElem?_mergeAll _ _ index
    | named name => rfl
  | many primary =>
    rw [merge_many]
    cases step with
    | nth index => exact getElem?_mergeAll _ _ index
    | named name => rfl
  | shape primary =>
    rw [merge_shape]
    cases step with
    | nth index => rfl
    | named name => exact lookup_mergeFields _ _ name
  | choice primary =>
    rw [merge_choice]
    cases step with
    | nth index => rfl
    | named name => exact lookup_mergeFields _ _ name
  | variant primary =>
    rw [merge_variant]
    cases step with
    | nth index => cases index <;> rfl
    | named name => rfl
  | _ => exact child_of_unmerged rfl (by cases step <;> rfl)

theorem child_of_counterpart {step : Step} {c : Produced} (h : counterpart p a step = some c) :
    a.child step = some c := by
  have hrow : ∀ {length : ℕ} {row : Option (List Produced)} {index : ℕ}, (rowOf length row)[index]? = some c →
      ∃ values, row = some values ∧ values[index]? = some c := by
    intro length row index h
    unfold rowOf at h
    split at h
    · split at h
      · exact ⟨_, rfl, h⟩
      · cases h
    · cases h
  unfold counterpart at h
  split at h
  · obtain ⟨values, hvalues, h⟩ := hrow h
    cases a with
    | sequence _ =>
      obtain rfl := Option.some.inj hvalues
      exact h
    | _ => cases hvalues
  · obtain ⟨values, hvalues, h⟩ := hrow h
    cases a with
    | many _ =>
      obtain rfl := Option.some.inj hvalues
      exact h
    | _ => cases hvalues
  · cases a with
    | shape _ => exact h
    | _ => cases h
  · cases a with
    | choice _ => exact h
    | _ => cases h
  · cases a with
    | variant _ => exact h
    | _ => cases h
  · cases h

theorem counterpart_merge (p a b : Produced) (step : Step) :
    counterpart (p.mergeStoreAccessRequirements b) a step = counterpart p a step := by
  cases p with
  | storeParameter source path shareable access =>
    rw [merge_storeParameter]
    cases step <;> rfl
  | sequence primary =>
    rw [merge_sequence]
    cases step with
    | nth index =>
      rw [counterpart_sequence, counterpart_sequence, length_mergeAll]
    | named name => rfl
  | many primary =>
    rw [merge_many]
    cases step with
    | nth index => rw [counterpart_many, counterpart_many, length_mergeAll]
    | named name => rfl
  | shape primary =>
    rw [merge_shape]
    cases step <;> rfl
  | choice primary =>
    rw [merge_choice]
    cases step <;> rfl
  | variant primary =>
    rw [merge_variant]
    rcases step with (_ | _) | _ <;> rfl
  | _ => rfl

theorem sameParameter_merge (p a b : Produced) :
    sameParameter (p.mergeStoreAccessRequirements b) a = sameParameter p a := by
  cases p with
  | storeParameter source path shareable access =>
    rw [merge_storeParameter]
    exact sameParameter_access _ _ a
  | sequence primary => rw [merge_sequence]; cases a <;> rfl
  | many primary => rw [merge_many]; cases a <;> rfl
  | shape primary => rw [merge_shape]; cases a <;> rfl
  | choice primary => rw [merge_choice]; cases a <;> rfl
  | variant primary => rw [merge_variant]; cases a <;> rfl
  | _ => rfl

theorem aligned_merge {path : List Step} :
    Aligned (p.mergeStoreAccessRequirements b) a path ↔ Aligned p a path := by
  induction path generalizing p a b with
  | nil =>
    simp only [aligned_nil]
    rw [sameParameter_merge]
  | cons step rest ih =>
    simp only [aligned_cons, child_merge, counterpart_merge, Option.map_eq_some_iff]
    constructor
    · rintro ⟨_, c', ⟨c, hc, rfl⟩, hc', h⟩
      refine ⟨c, c', hc, hc', ?_⟩
      cases hb : counterpart p b step with
      | none => rwa [hb] at h
      | some b' =>
        rw [hb] at h
        exact ih.1 h
    · rintro ⟨c, c', hc, hc', h⟩
      refine ⟨_, c', ⟨c, hc, rfl⟩, hc', ?_⟩
      cases hb : counterpart p b step with
      | none => exact h
      | some b' => exact ih.2 h

/-- **Merging shares nothing** and makes nothing unshared. -/
theorem partAt_merge_shared {path : List Step} :
    (p.mergeStoreAccessRequirements a).partAt path = some .sharedStore ↔ p.partAt path = some .sharedStore := by
  induction path generalizing p a with
  | nil =>
    simp only [partAt_nil]
    cases p with
    | storeParameter source path shareable access => rw [merge_storeParameter]; simp
    | sequence primary => rw [merge_sequence]; simp
    | many primary => rw [merge_many]; simp
    | shape primary => rw [merge_shape]; simp
    | choice primary => rw [merge_choice]; simp
    | variant primary => rw [merge_variant]; simp
    | _ => rfl
  | cons step rest ih =>
    simp only [partAt_cons]
    rw [child_merge]
    cases hc : p.child step with
    | none => rfl
    | some c =>
      cases counterpart p a step with
      | none => rfl
      | some c' => exact ih

/-- **A merge demands unique access** where the primary tree does, or where the alternative does at a position that both
have. -/
theorem partAt_merge_unique {path : List Step} {source : PatternId} {names : List String} {shareable : Bool} :
    (p.mergeStoreAccessRequirements a).partAt path = some (.storeParameter source names shareable .unique) ↔
      p.partAt path = some (.storeParameter source names shareable .unique) ∨
        Aligned p a path ∧ a.partAt path = some (.storeParameter source names shareable .unique) := by
  induction path generalizing p a with
  | nil =>
    simp only [partAt_nil, aligned_nil]
    cases p with
    | storeParameter source' path' shareable' access' =>
      rw [merge_storeParameter]
      by_cases h : a = .storeParameter source' path' shareable' .unique
      · subst h
        simp [sameParameter]
        tauto
      · rw [if_neg h]
        refine (or_iff_left ?_).symm
        rintro ⟨hsame, heq⟩
        obtain rfl := Option.some.inj heq
        obtain ⟨rfl, rfl, rfl⟩ : source' = source ∧ path' = names ∧ shareable' = shareable := of_decide_eq_true hsame
        exact h rfl
    | sequence primary => rw [merge_sequence]; cases a <;> simp [sameParameter]
    | many primary => rw [merge_many]; cases a <;> simp [sameParameter]
    | shape primary => rw [merge_shape]; cases a <;> simp [sameParameter]
    | choice primary => rw [merge_choice]; cases a <;> simp [sameParameter]
    | variant primary => rw [merge_variant]; cases a <;> simp [sameParameter]
    | _ => exact (or_iff_left fun h => nomatch h.1).symm
  | cons step rest ih =>
    simp only [partAt_cons, aligned_cons]
    rw [child_merge]
    cases hc : p.child step with
    | none => simp
    | some c =>
      cases hc' : counterpart p a step with
      | none => simp [mergeWith]
      | some c' =>
        rw [child_of_counterpart hc']
        simp only [Option.map_some, Option.bind_some, Option.some.injEq, mergeWith]
        rw [ih]
        simp

end Merge

/-! ### Merges in any order -/

mutual
/-- A tree with unique access at every symbolic Store that a merge reaches. -/
def raised : Produced → Produced
  | .storeParameter source path shareable _ => .storeParameter source path shareable .unique
  | .sequence values => .sequence (raisedAll values)
  | .many values => .many (raisedAll values)
  | .shape fields => .shape (raisedFields fields)
  | .choice cases => .choice (raisedFields cases)
  | .variant payload => .variant (raised payload)
  | p => p
def raisedAll : List Produced → List Produced
  | [] => []
  | value :: rest => raised value :: raisedAll rest
def raisedFields : List (String × Produced) → List (String × Produced)
  | [] => []
  | (name, value) :: rest => (name, raised value) :: raisedFields rest
end

section Order

variable {p a b : Produced}

def merges : Produced → Bool
  | .storeParameter _ _ _ _ | .sequence _ | .many _ | .shape _ | .choice _ | .variant _ => true
  | _ => false

theorem raised_of_not_merges (h : p.merges = false) : p.raised = p := by
  cases p <;> first | rfl | cases h

theorem raisedAll_eq_map (values : List Produced) : raisedAll values = values.map raised := by
  induction values with
  | nil => rfl
  | cons value rest ih => rw [raisedAll, ih, List.map_cons]

theorem raisedFields_eq_map (fields : List (String × Produced)) :
    raisedFields fields = fields.map fun field => (field.1, field.2.raised) := by
  induction fields with
  | nil => rfl
  | cons field rest ih =>
    obtain ⟨name, value⟩ := field
    rw [raisedFields, ih, List.map_cons]

/-! #### What a merge keeps -/

section Rows

theorem raised_mergeWith {c : Produced} (h : ∀ a, (c.mergeStoreAccessRequirements a).raised = c.raised)
    (a : Option Produced) : (c.mergeWith a).raised = c.raised := by
  cases a with
  | none => rfl
  | some a => exact h a

theorem raised_mergeAll (primary : List Produced)
    (ih : ∀ c ∈ primary, ∀ a, (c.mergeStoreAccessRequirements a).raised = c.raised)
    (row : List Produced) : raisedAll (mergeAll primary row) = raisedAll primary := by
  induction primary generalizing row with
  | nil => cases row <;> rfl
  | cons c rest ihl =>
    cases row with
    | nil => rfl
    | cons a row =>
      rw [mergeAll, raisedAll, raisedAll, ih c List.mem_cons_self,
        ihl fun c hc => ih c (List.mem_cons_of_mem _ hc)]

theorem mergeFields_eq_map (fields alternatives : List (String × Produced)) :
    mergeFields fields alternatives =
      fields.map fun field => (field.1, field.2.mergeWith (alternatives.lookup field.1)) := by
  induction fields with
  | nil => rfl
  | cons field rest ih =>
    obtain ⟨name, value⟩ := field
    rw [mergeFields, ih, List.map_cons]
    cases alternatives.lookup name <;> rfl

theorem raised_mergeFields {fields : List (String × Produced)}
    (ih : ∀ c ∈ fields.map Prod.snd, ∀ a, (c.mergeStoreAccessRequirements a).raised = c.raised)
    (alternatives : List (String × Produced)) :
    raisedFields (mergeFields fields alternatives) = raisedFields fields := by
  rw [mergeFields_eq_map, raisedFields_eq_map, raisedFields_eq_map, List.map_map]
  refine List.map_congr_left fun field hfield => ?_
  exact Prod.ext rfl (raised_mergeWith (ih _ (List.mem_map_of_mem hfield)) _)

end Rows

theorem raised_merge (p a : Produced) : (p.mergeStoreAccessRequirements a).raised = p.raised := by
  induction p using ind generalizing a with
  | h p ih =>
    cases p with
    | storeParameter source path shareable access => rw [merge_storeParameter]; rfl
    | sequence primary => rw [merge_sequence, raised, raised, raised_mergeAll primary ih]
    | many primary => rw [merge_many, raised, raised, raised_mergeAll primary ih]
    | shape fields => rw [merge_shape, raised, raised, raised_mergeFields ih]
    | choice cases' => rw [merge_choice, raised, raised, raised_mergeFields ih]
    | variant payload =>
      rw [merge_variant, raised, raised, raised_mergeWith (ih payload List.mem_cons_self)]
    | _ => rfl

/-! #### Commuting merges -/

theorem mergeWith_comm {c : Produced} (h : ∀ a b, (c.mergeStoreAccessRequirements a).mergeStoreAccessRequirements b =
      (c.mergeStoreAccessRequirements b).mergeStoreAccessRequirements a) (a b : Option Produced) :
    (c.mergeWith a).mergeWith b = (c.mergeWith b).mergeWith a := by
  cases a with
  | none => rfl
  | some a =>
    cases b with
    | none => rfl
    | some b => exact h a b

theorem mergeAll_comm (primary : List Produced)
    (ih : ∀ c ∈ primary, ∀ a b, (c.mergeStoreAccessRequirements a).mergeStoreAccessRequirements b =
      (c.mergeStoreAccessRequirements b).mergeStoreAccessRequirements a) (row row' : List Produced) :
    mergeAll (mergeAll primary row) row' = mergeAll (mergeAll primary row') row := by
  refine List.ext_getElem? fun index => ?_
  rw [getElem?_mergeAll, getElem?_mergeAll, getElem?_mergeAll, getElem?_mergeAll, Option.map_map, Option.map_map]
  cases hc : primary[index]? with
  | none => rfl
  | some c => exact congrArg some (mergeWith_comm (ih c (List.mem_of_getElem? hc)) _ _)

theorem mergeFields_comm {fields : List (String × Produced)}
    (ih : ∀ c ∈ fields.map Prod.snd, ∀ a b, (c.mergeStoreAccessRequirements a).mergeStoreAccessRequirements b =
      (c.mergeStoreAccessRequirements b).mergeStoreAccessRequirements a) (row row' : List (String × Produced)) :
    mergeFields (mergeFields fields row) row' = mergeFields (mergeFields fields row') row := by
  rw [mergeFields_eq_map, mergeFields_eq_map, mergeFields_eq_map, mergeFields_eq_map, List.map_map, List.map_map]
  refine List.map_congr_left fun field hfield => ?_
  exact Prod.ext rfl (mergeWith_comm (ih _ (List.mem_map_of_mem hfield)) _ _)

/-- **Merges commute.** -/
theorem merge_comm (p a b : Produced) :
    (p.mergeStoreAccessRequirements a).mergeStoreAccessRequirements b =
      (p.mergeStoreAccessRequirements b).mergeStoreAccessRequirements a := by
  induction p using ind generalizing a b with
  | h p ih =>
    cases p with
    | storeParameter source path shareable access =>
      rw [merge_storeParameter, merge_storeParameter, merge_storeParameter, merge_storeParameter]
      congr 1
      split <;> split <;> rfl
    | sequence primary =>
      rw [merge_sequence, merge_sequence, merge_sequence, merge_sequence, length_mergeAll, length_mergeAll,
        mergeAll_comm primary ih]
    | many primary =>
      rw [merge_many, merge_many, merge_many, merge_many, length_mergeAll, length_mergeAll, mergeAll_comm primary ih]
    | shape fields => rw [merge_shape, merge_shape, merge_shape, merge_shape, mergeFields_comm ih]
    | choice cases' => rw [merge_choice, merge_choice, merge_choice, merge_choice, mergeFields_comm ih]
    | variant payload =>
      rw [merge_variant, merge_variant, merge_variant, merge_variant,
        mergeWith_comm (ih payload List.mem_cons_self)]
    | _ => rfl

instance : RightCommutative mergeStoreAccessRequirements := ⟨merge_comm⟩

/-- **A second merge** of a tree changes nothing. -/
theorem merge_idem (p a : Produced) :
    (p.mergeStoreAccessRequirements a).mergeStoreAccessRequirements a = p.mergeStoreAccessRequirements a := by
  have hwith : ∀ {c : Produced}, (∀ a, (c.mergeStoreAccessRequirements a).mergeStoreAccessRequirements a =
      c.mergeStoreAccessRequirements a) → ∀ a, (c.mergeWith a).mergeWith a = c.mergeWith a := by
    intro c h a
    cases a with
    | none => rfl
    | some a => exact h a
  have hall : ∀ (primary : List Produced) {row : List Produced}, (∀ c ∈ primary, ∀ a,
      (c.mergeStoreAccessRequirements a).mergeStoreAccessRequirements a = c.mergeStoreAccessRequirements a) →
      mergeAll (mergeAll primary row) row = mergeAll primary row := by
    intro primary row ih
    refine List.ext_getElem? fun index => ?_
    rw [getElem?_mergeAll, getElem?_mergeAll, Option.map_map]
    cases hc : primary[index]? with
    | none => rfl
    | some c => exact congrArg some (hwith (ih c (List.mem_of_getElem? hc)) _)
  have hfields : ∀ {fields row : List (String × Produced)}, (∀ c ∈ fields.map Prod.snd, ∀ a,
      (c.mergeStoreAccessRequirements a).mergeStoreAccessRequirements a = c.mergeStoreAccessRequirements a) →
      mergeFields (mergeFields fields row) row = mergeFields fields row := by
    intro fields row ih
    rw [mergeFields_eq_map, mergeFields_eq_map, List.map_map]
    refine List.map_congr_left fun field hfield => ?_
    exact Prod.ext rfl (hwith (ih _ (List.mem_map_of_mem hfield)) _)
  induction p using ind generalizing a with
  | h p ih =>
    cases p with
    | storeParameter source path shareable access =>
      rw [merge_storeParameter, merge_storeParameter]
      congr 1
      split <;> rfl
    | sequence primary => rw [merge_sequence, merge_sequence, length_mergeAll, hall primary ih]
    | many primary => rw [merge_many, merge_many, length_mergeAll, hall primary ih]
    | shape fields => rw [merge_shape, merge_shape, hfields ih]
    | choice cases' => rw [merge_choice, merge_choice, hfields ih]
    | variant payload => rw [merge_variant, merge_variant, hwith (ih payload List.mem_cons_self)]
    | _ => rfl

/-! #### Trees that differ in access only -/

theorem merges_raised (p : Produced) : p.raised.merges = p.merges := by
  cases p <;> rfl

theorem eq_of_raised_eq (h : p.merges = false) (hraised : p.raised = a.raised) : p = a := by
  have ha : a.merges = false := by rw [← merges_raised, ← hraised, merges_raised, h]
  rwa [raised_of_not_merges h, raised_of_not_merges ha] at hraised

theorem mergeAll_swap (primary : List Produced) {row : List Produced}
    (ih : ∀ c ∈ primary, ∀ a, c.raised = a.raised → c.mergeStoreAccessRequirements a = a.mergeStoreAccessRequirements c)
    (h : raisedAll primary = raisedAll row) : mergeAll primary row = mergeAll row primary := by
  induction primary generalizing row with
  | nil =>
    cases row with
    | nil => rfl
    | cons a row => cases h
  | cons c rest ihl =>
    cases row with
    | nil => cases h
    | cons a row =>
      obtain ⟨hc, hrest⟩ := List.cons.inj h
      rw [mergeAll, mergeAll, ih c List.mem_cons_self a hc, ihl (fun c hc => ih c (List.mem_cons_of_mem _ hc)) hrest]

theorem mergeFields_cons {fields row : List (String × Produced)} {name : String} {a : Produced}
    (h : name ∉ fields.map Prod.fst) : mergeFields fields ((name, a) :: row) = mergeFields fields row := by
  rw [mergeFields_eq_map, mergeFields_eq_map]
  refine List.map_congr_left fun field hfield => ?_
  have hne : field.1 ≠ name := fun heq => h (heq ▸ List.mem_map_of_mem hfield)
  rw [List.lookup_cons, beq_eq_false_iff_ne.2 hne]

theorem mergeFields_swap {fields row : List (String × Produced)} (hkeys : (fields.map Prod.fst).Nodup)
    (ih : ∀ c ∈ fields.map Prod.snd, ∀ a, c.raised = a.raised →
      c.mergeStoreAccessRequirements a = a.mergeStoreAccessRequirements c)
    (h : raisedFields fields = raisedFields row) : mergeFields fields row = mergeFields row fields := by
  have hnames : fields.map Prod.fst = row.map Prod.fst := by
    have hmap := congrArg (List.map Prod.fst) h
    rw [raisedFields_eq_map, raisedFields_eq_map, List.map_map, List.map_map] at hmap
    exact hmap
  induction fields generalizing row with
  | nil =>
    cases row with
    | nil => rfl
    | cons a row => cases h
  | cons field rest ihl =>
    cases row with
    | nil => cases h
    | cons field' row =>
      obtain ⟨name, c⟩ := field
      obtain ⟨name', a⟩ := field'
      obtain ⟨hfield, hrest⟩ := List.cons.inj h
      obtain ⟨rfl, hc⟩ := Prod.mk.inj hfield
      obtain ⟨-, hnames⟩ := List.cons.inj hnames
      rw [List.map_cons, List.nodup_cons] at hkeys
      have hmerge := ih c List.mem_cons_self a hc
      have hrest' := ihl hkeys.2 (fun c hc => ih c (List.mem_cons_of_mem _ hc)) hrest hnames
      rw [mergeFields, mergeFields, mergeFields_cons hkeys.1, mergeFields_cons (hnames ▸ hkeys.1),
        List.lookup_cons_self,
        List.lookup_cons_self, hrest']
      exact congrArg (fun value => (name, value) :: mergeFields row rest) hmerge

/-- **Two trees that differ in access only** come out the same, whichever is merged into the other. -/
theorem merge_swap (hkeyed : p.Keyed) (h : p.raised = a.raised) :
    p.mergeStoreAccessRequirements a = a.mergeStoreAccessRequirements p := by
  induction p using ind generalizing a with
  | h p ih =>
    have ih : ∀ c ∈ p.children, ∀ a, c.raised = a.raised →
        c.mergeStoreAccessRequirements a = a.mergeStoreAccessRequirements c :=
      fun c hc a => ih c hc (hkeyed.child hc)
    have hlength : ∀ {primary row}, raisedAll primary = raisedAll row → primary.length = row.length := by
      intro primary row hrow
      have hmap := congrArg List.length hrow
      rwa [raisedAll_eq_map, raisedAll_eq_map, List.length_map, List.length_map] at hmap
    cases p with
    | storeParameter source path shareable access =>
      cases a with
      | storeParameter source' path' shareable' access' =>
        obtain ⟨rfl, rfl, rfl, -⟩ := Produced.storeParameter.inj h
        rw [merge_storeParameter, merge_storeParameter]
        cases access <;> cases access' <;> simp
      | _ => cases h
    | sequence primary =>
      cases a with
      | sequence row =>
        have hrow := Produced.sequence.inj h
        rw [mergeStoreAccessRequirements, mergeStoreAccessRequirements, if_pos (hlength hrow),
          if_pos (hlength hrow).symm, mergeAll_swap primary ih hrow]
      | _ => cases h
    | many primary =>
      cases a with
      | many row =>
        have hrow := Produced.many.inj h
        rw [mergeStoreAccessRequirements, mergeStoreAccessRequirements, if_pos (hlength hrow),
          if_pos (hlength hrow).symm, mergeAll_swap primary ih hrow]
      | _ => cases h
    | shape fields =>
      cases a with
      | shape row =>
        rw [mergeStoreAccessRequirements, mergeStoreAccessRequirements,
          mergeFields_swap hkeyed.keys ih (Produced.shape.inj h)]
      | _ => cases h
    | choice fields =>
      cases a with
      | choice row =>
        rw [mergeStoreAccessRequirements, mergeStoreAccessRequirements,
          mergeFields_swap hkeyed.keys ih (Produced.choice.inj h)]
      | _ => cases h
    | variant payload =>
      cases a with
      | variant payload' =>
        rw [mergeStoreAccessRequirements, mergeStoreAccessRequirements,
          ih payload List.mem_cons_self payload' (Produced.variant.inj h)]
      | _ => cases h
    | _ =>
      obtain rfl := eq_of_raised_eq rfl h
      rfl

/-! #### Merging many trees -/

theorem keys_merge (p a : Produced) : (p.mergeStoreAccessRequirements a).keys = p.keys := by
  have hfields : ∀ fields row : List (String × Produced),
    (mergeFields fields row).map Prod.fst = fields.map Prod.fst := by
    intro fields row
    rw [mergeFields_eq_map, List.map_map]
    rfl
  cases p with
  | storeParameter source path shareable access => rw [merge_storeParameter]; rfl
  | sequence primary => rw [merge_sequence]; rfl
  | many primary => rw [merge_many]; rfl
  | shape fields => rw [merge_shape]; exact hfields _ _
  | choice fields => rw [merge_choice]; exact hfields _ _
  | variant payload => rw [merge_variant]; rfl
  | _ => rfl

theorem mem_children_merge {c : Produced} (h : c ∈ (p.mergeStoreAccessRequirements a).children) :
    ∃ c' ∈ p.children, ∃ a', c = c'.mergeWith a' := by
  have hall : ∀ (primary : List Produced) {row : List Produced}, c ∈ mergeAll primary row →
      ∃ c' ∈ primary, ∃ a', c = c'.mergeWith a' := by
    intro primary row hc
    obtain ⟨index, hindex⟩ := List.mem_iff_getElem?.1 hc
    rw [getElem?_mergeAll] at hindex
    obtain ⟨c', hc', rfl⟩ := Option.map_eq_some_iff.1 hindex
    exact ⟨c', List.mem_of_getElem? hc', _, rfl⟩
  have hfields : ∀ {fields row : List (String × Produced)}, c ∈ (mergeFields fields row).map Prod.snd →
      ∃ c' ∈ fields.map Prod.snd, ∃ a', c = c'.mergeWith a' := by
    intro fields row hc
    rw [mergeFields_eq_map, List.map_map] at hc
    obtain ⟨field, hfield, rfl⟩ := List.mem_map.1 hc
    exact ⟨field.2, List.mem_map_of_mem hfield, _, rfl⟩
  cases p with
  | storeParameter source path shareable access =>
    rw [merge_storeParameter] at h
    cases h
  | sequence primary =>
    rw [merge_sequence] at h
    exact hall primary h
  | many primary =>
    rw [merge_many] at h
    exact hall primary h
  | shape fields =>
    rw [merge_shape] at h
    exact hfields h
  | choice fields =>
    rw [merge_choice] at h
    exact hfields h
  | variant payload =>
    rw [merge_variant] at h
    exact ⟨payload, List.mem_cons_self, _, List.mem_singleton.1 h⟩
  | _ => exact ⟨c, h, Option.none, rfl⟩

theorem keyed_merge (h : p.Keyed) (a : Produced) : (p.mergeStoreAccessRequirements a).Keyed := by
  induction p using ind generalizing a with
  | h p ih =>
    refine .intro (keys_merge p a ▸ h.keys) fun c hc => ?_
    obtain ⟨c', hc', a', rfl⟩ := mem_children_merge hc
    cases a' with
    | none => exact h.child hc'
    | some a' => exact ih c' hc' (h.child hc') a'

theorem keyed_foldl_merge (h : p.Keyed) (values : List Produced) :
    (values.foldl mergeStoreAccessRequirements p).Keyed := by
  induction values generalizing p with
  | nil => exact h
  | cons value rest ih => exact ih (keyed_merge h value)

theorem raised_foldl_merge (values : List Produced) :
    (values.foldl mergeStoreAccessRequirements p).raised = p.raised := by
  induction values generalizing p with
  | nil => rfl
  | cons value rest ih => rw [List.foldl_cons, ih, raised_merge]

theorem foldl_merge_of_mem {values : List Produced} (h : a ∈ values) :
    values.foldl mergeStoreAccessRequirements (p.mergeStoreAccessRequirements a) =
      values.foldl mergeStoreAccessRequirements p := by
  obtain ⟨before, after, rfl⟩ := List.append_of_mem h
  have hperm : (before ++ a :: after).Perm (a :: (before ++ after)) := List.perm_middle
  rw [hperm.foldl_eq, hperm.foldl_eq, List.foldl_cons, List.foldl_cons, merge_idem]

/-- **When two of the merged trees come out the same**: they differ in access only. -/
theorem foldl_merge_eq_iff {values : List Produced} (hp : p ∈ values) (ha : a ∈ values) (hkeyed : p.Keyed) :
    values.foldl mergeStoreAccessRequirements p = values.foldl mergeStoreAccessRequirements a ↔
      p.raised = a.raised := by
  constructor
  · intro h
    rw [← raised_foldl_merge values, h, raised_foldl_merge]
  · intro h
    rw [← foldl_merge_of_mem ha, merge_swap hkeyed h, foldl_merge_of_mem hp]

/-- **Unique access after merging** is that of the primary tree, or of one of the others at a position that both
have. -/
theorem partAt_foldl_unique {values : List Produced} {path : List Step} {source : PatternId} {names : List String}
    {shareable : Bool} :
    (values.foldl mergeStoreAccessRequirements p).partAt path = some (.storeParameter source names shareable .unique) ↔
      p.partAt path = some (.storeParameter source names shareable .unique) ∨ ∃ a ∈ values, Aligned p a path ∧
        a.partAt path = some (.storeParameter source names shareable .unique) := by
  induction values generalizing p with
  | nil => simp
  | cons value rest ih =>
    rw [List.foldl_cons, ih, partAt_merge_unique, List.exists_mem_cons_iff, or_assoc]
    simp only [aligned_merge]

theorem partAt_foldl_shared {values : List Produced} {path : List Step} :
    (values.foldl mergeStoreAccessRequirements p).partAt path = some .sharedStore ↔
    p.partAt path = some .sharedStore := by
  induction values generalizing p with
  | nil => rfl
  | cons value rest ih => rw [List.foldl_cons, ih, partAt_merge_shared]

end Order

end Produced

end Blot.Ownership
