import Blot.Typecheck.Unions

/-!
# The parts of a join (`join_types`, `merge_fields`, `union_types`)

* `joinParts_eq`, `lookup_mergeFields`, `appendAll_eq` — what the three loops have gathered at their end;
* `Hereditary` — a property of types that unions and variants take from their parts is kept by joins;
* `joinTypes_eq` — the equation of `join_types`, whose depth bound is never met.
-/

namespace Blot.Typecheck

open Blot.Support

namespace Ty

def isRange : Ty → Bool
  | .range _ _ _ => true
  | _ => false

def isOther : Ty → Bool
  | .range _ _ _ => false
  | .variant _ _ => false
  | .effects _ => false
  | .bottom => false
  | _ => true

def entries : Ty → List (String × Ty)
  | .variant entries _ => entries
  | _ => []

def labels : Ty → Finset String
  | .effects labels => labels
  | _ => ∅

mutual
def flat : Ty → List Ty
  | .bottom => []
  | .union members => flatAll members
  | t => [t]
termination_by structural t => t
def flatAll : List Ty → List Ty
  | [] => []
  | t :: rest => t.flat ++ flatAll rest
termination_by structural types => types
end

theorem mem_flatAll {types : List Ty} {m : Ty} : m ∈ flatAll types ↔ ∃ t ∈ types, m ∈ t.flat := by
  induction types with
  | nil => simp [flatAll]
  | cons t types ih => simp [flatAll, ih]

end Ty

theorem forall_pair {P : Ty → Prop} {a b : Ty} (ha : P a) (hb : P b) : ∀ t ∈ [a, b], P t := by
  intro t ht
  rcases List.mem_cons.1 ht with rfl | ht
  · exact ha
  · obtain rfl := List.mem_singleton.1 ht
    exact hb

def rowLabels : List Ty → Finset String
  | [] => ∅
  | t :: rest => t.labels ∪ rowLabels rest

theorem mem_rowLabels {types : List Ty} {l : String} : l ∈ rowLabels types ↔ ∃ t ∈ types, l ∈ t.labels := by
  induction types with
  | nil => simp [rowLabels]
  | cons t types ih => simp [rowLabels, ih]

def casesOf (types : List Ty) : List (String × Ty) := types.flatMap Ty.entries

theorem foldl_add (types : List Ty) (parts : JoinParts) :
    types.foldl JoinParts.add parts =
      ⟨parts.ranges ++ types.filter Ty.isRange, parts.variants ++ casesOf types, parts.effects ∪ rowLabels types,
        parts.other ++ types.filter Ty.isOther⟩ := by
  induction types generalizing parts with
  | nil => simp [casesOf, rowLabels]
  | cons t types ih =>
    rw [List.foldl_cons, ih]
    cases t <;>
      simp [JoinParts.add, casesOf, rowLabels, List.filter_cons, Ty.isRange, Ty.isOther, Ty.entries, Ty.labels]

/-- **The parts of a list.** -/
theorem joinParts_eq (types : List Ty) :
    joinParts types = ⟨types.filter Ty.isRange, casesOf types, rowLabels types, types.filter Ty.isOther⟩ := by
  simp [joinParts, foldl_add]

/-! ### The members of a union -/

/-- Adds a type that is neither a union nor `bottom`. -/
def UnionMembers.addMember (σ : Ty.Sharing) (u : UnionMembers) (t : Ty) : Option UnionMembers :=
  if t = .top then none
  else match t.closedTypeKey with
    | some key => if key ∈ u.closed then some u else some ⟨u.members ++ [t], key :: u.closed⟩
    | none => if u.members.any (fun existing => existing.sameClosedType σ t) then some u
      else some { u with members := u.members ++ [t] }

mutual
theorem UnionMembers.append_eq (σ : Ty.Sharing) (u : UnionMembers) (t : Ty) :
    u.append σ t = t.flat.foldlM (UnionMembers.addMember σ) u := by
  match t with
  | .bottom => rfl
  | .top => rfl
  | .union nested => exact UnionMembers.appendAll_eq σ u nested
  | .var _ | .rigid _ | .range _ _ _ | .unit | .function _ _ _ _ | .record _ | .recordUpdate _ _ | .array _ | .region _
  | .scratch _ | .resource _ _ | .variant _ _ | .effects _ | .openEffects _ _ | .opaqueType _ | .forallType _ _
  | .qualified _ _ =>
    simp only [Ty.flat, List.foldlM_cons, List.foldlM_nil, bind_pure]
    exact (if_neg (by simp)).symm
termination_by structural t

/-- **Appended types**: what each of them adds is added in turn. -/
theorem UnionMembers.appendAll_eq (σ : Ty.Sharing) (u : UnionMembers) (types : List Ty) :
    u.appendAll σ types = (Ty.flatAll types).foldlM (UnionMembers.addMember σ) u := by
  match types with
  | [] => rfl
  | t :: rest =>
    rw [appendAll, UnionMembers.append_eq σ u t, Ty.flatAll, List.foldlM_append]
    cases t.flat.foldlM (UnionMembers.addMember σ) u with
    | none => rfl
    | some u' => exact UnionMembers.appendAll_eq σ u' rest
termination_by structural types
end

theorem UnionMembers.members_of_addMember {σ : Ty.Sharing} {u u' : UnionMembers} {t : Ty}
    (h : u.addMember σ t = some u') :
    u'.members = u.members ∨ u'.members = u.members ++ [t] := by
  unfold addMember at h
  split at h
  · cases h
  · split at h
    all_goals
      split at h
      · obtain rfl := Option.some.inj h
        exact .inl rfl
      · obtain rfl := Option.some.inj h
        exact .inr rfl

theorem UnionMembers.mem_of_foldlM {σ : Ty.Sharing} {types : List Ty} {u u' : UnionMembers}
    (h : types.foldlM (UnionMembers.addMember σ) u = some u') : ∀ m ∈ u'.members, m ∈ u.members ∨ m ∈ types := by
  induction types generalizing u with
  | nil =>
    obtain rfl := Option.some.inj h
    exact fun m hm => .inl hm
  | cons t types ih =>
    rw [List.foldlM_cons, Option.bind_eq_bind, Option.bind_eq_some_iff] at h
    obtain ⟨v, hv, h⟩ := h
    intro m hm
    rcases ih h m hm with hm | hm
    · rcases members_of_addMember hv with heq | heq
      · exact .inl (heq ▸ hm)
      · rw [heq] at hm
        rcases List.mem_append.1 hm with hm | hm
        · exact .inl hm
        · exact .inr (List.mem_cons.2 (.inl (List.mem_singleton.1 hm)))
    · exact .inr (List.mem_cons_of_mem _ hm)

/-! ### Merged fields -/

/-- The types under a name, in order. -/
def payloads (name : String) (fields : List (String × Ty)) : List Ty :=
  (fields.filter fun p => decide (p.1 = name)).map Prod.snd

def joinInTurn (join : List Ty → Ty) : List Ty → Option Ty
  | [] => none
  | t :: rest => some (rest.foldl (fun previous t => join [previous, t]) t)

section Merge

variable {join join' : List Ty → Ty} {fields : List (String × Ty)}

/-- One step of `merge_fields`. -/
def mergeField (join : List Ty → Ty) (merged : Table String Ty) (p : String × Ty) : Table String Ty :=
  match merged.lookup p.1 with
  | some previous => merged.insert p.1 (join [previous, p.2])
  | none => merged.insert p.1 p.2

theorem mergeFields_eq (join : List Ty → Ty) (fields : List (String × Ty)) :
    mergeFields join fields = fields.foldl (mergeField join) [] := rfl

theorem lookup_foldl_mergeField (name : String) (merged : Table String Ty) :
    (fields.foldl (mergeField join) merged).lookup name =
      match merged.lookup name with
      | some t => some ((payloads name fields).foldl (fun previous t => join [previous, t]) t)
      | none => joinInTurn join (payloads name fields) := by
  induction fields generalizing merged with
  | nil => cases h : merged.lookup name <;> simp [payloads, joinInTurn, h]
  | cons p fields ih =>
    rw [List.foldl_cons, ih]
    have hstep : (mergeField join merged p).lookup name =
        if name = p.1 then some (match merged.lookup p.1 with
          | some previous => join [previous, p.2]
          | none => p.2) else merged.lookup name := by
      unfold mergeField
      cases hp : merged.lookup p.1 with
      | some previous | none => exact Table.lookup_insert merged p.1 name _
    rw [hstep]
    by_cases hname : name = p.1
    · subst hname
      have hpay : payloads p.1 (p :: fields) = p.2 :: payloads p.1 fields := by simp [payloads]
      rw [if_pos rfl, hpay]
      cases merged.lookup p.1 <;> rfl
    · have hpay : payloads name (p :: fields) = payloads name fields := by simp [payloads, Ne.symm hname]
      rw [if_neg hname, hpay]

/-- **Merged fields**: under each name stands the join of its types in turn. -/
theorem lookup_mergeFields (name : String) :
    (mergeFields join fields).lookup name = joinInTurn join (payloads name fields) := by
  rw [mergeFields_eq, lookup_foldl_mergeField]
  rfl

theorem nodup_mergeFields : ((mergeFields join fields).map (·.1)).Nodup := by
  have hfold : ∀ merged : Table String Ty, (merged.map (·.1)).Nodup →
      ((fields.foldl (mergeField join) merged).map (·.1)).Nodup := by
    induction fields with
    | nil => exact fun _ h => h
    | cons p fields ih =>
      intro merged h
      refine ih _ ?_
      unfold mergeField
      split
      · exact Table.nodup_insert h _ _
      · exact Table.nodup_insert h _ _
  exact hfold [] List.nodup_nil

theorem mem_payloads {name : String} {t : Ty} : t ∈ payloads name fields ↔ (name, t) ∈ fields := by
  simp only [payloads, List.mem_map, List.mem_filter, decide_eq_true_eq]
  constructor
  · rintro ⟨p, ⟨hp, rfl⟩, rfl⟩
    exact hp
  · intro h
    exact ⟨(name, t), ⟨h, rfl⟩, rfl⟩

theorem joinInTurn_of_mem_mergeFields {p : String × Ty} (h : p ∈ mergeFields join fields) :
    joinInTurn join (payloads p.1 fields) = some p.2 := by
  rw [← lookup_mergeFields]
  exact Table.lookup_of_mem nodup_mergeFields h

theorem exists_mem_mergeFields (join : List Ty → Ty) {p : String × Ty} (h : p ∈ fields) :
    ∃ t, (p.1, t) ∈ mergeFields join fields ∧ joinInTurn join (payloads p.1 fields) = some t := by
  obtain ⟨t, ht⟩ : ∃ t, joinInTurn join (payloads p.1 fields) = some t := by
    have hmem : p.2 ∈ payloads p.1 fields := mem_payloads.2 h
    cases hpay : payloads p.1 fields with
    | nil =>
      rw [hpay] at hmem
      cases hmem
    | cons t rest => exact ⟨_, rfl⟩
  have hlookup : (mergeFields join fields).lookup p.1 = some t := (lookup_mergeFields p.1).trans ht
  obtain ⟨before, after, heq, -⟩ := List.lookup_eq_some_iff.1 hlookup
  refine ⟨t, ?_, ht⟩
  rw [heq]
  exact List.mem_append_right _ List.mem_cons_self

theorem mergeFields_ne_nil (h : fields ≠ []) : mergeFields join fields ≠ [] := by
  obtain ⟨p, rest, rfl⟩ := List.exists_cons_of_ne_nil h
  obtain ⟨t, ht, -⟩ := exists_mem_mergeFields join (List.mem_cons_self : p ∈ p :: rest)
  exact List.ne_nil_of_mem ht

theorem joinInTurn_keeps {P : Ty → Prop} (hjoin : ∀ a b, P a → P b → P (join [a, b])) {types : List Ty} {t : Ty}
    (h : joinInTurn join types = some t) (htypes : ∀ a ∈ types, P a) : P t := by
  cases types with
  | nil => cases h
  | cons a types =>
    obtain rfl := Option.some.inj h
    refine List.foldlRecOn types _ (htypes a List.mem_cons_self) fun b hb c hc => ?_
    exact hjoin b c hb (htypes c (List.mem_cons_of_mem _ hc))

theorem mergeFields_keeps {P : Ty → Prop} (hjoin : ∀ a b, P a → P b → P (join [a, b]))
    (h : ∀ p ∈ fields, P p.2) : ∀ p ∈ mergeFields join fields, P p.2 := by
  intro p hp
  refine joinInTurn_keeps hjoin (joinInTurn_of_mem_mergeFields hp) fun a ha => ?_
  exact h (p.1, a) (mem_payloads.1 ha)

theorem mergeFields_congr {P : Ty → Prop} (hsame : ∀ a b, P a → P b → join [a, b] = join' [a, b])
    (hjoin : ∀ a b, P a → P b → P (join [a, b])) (h : ∀ p ∈ fields, P p.2) :
    mergeFields join fields = mergeFields join' fields := by
  have hfold : ∀ merged : Table String Ty, (∀ p ∈ merged, P p.2) →
      fields.foldl (mergeField join) merged = fields.foldl (mergeField join') merged := by
    induction fields with
    | nil => exact fun _ _ => rfl
    | cons q fields ih =>
      intro merged hmerged
      have hq : P q.2 := h q List.mem_cons_self
      have hprevious : ∀ t, merged.lookup q.1 = some t → P t := by
        intro t ht
        obtain ⟨before, after, heq, -⟩ := List.lookup_eq_some_iff.1 ht
        exact hmerged (q.1, t) (heq ▸ List.mem_append_right _ List.mem_cons_self)
      have hstep : mergeField join merged q = mergeField join' merged q ∧ ∀ p ∈ mergeField join merged q, P p.2 := by
        unfold mergeField
        cases hl : merged.lookup q.1 with
        | some t =>
          refine ⟨?_, fun p hp => ?_⟩
          · show merged.insert q.1 (join [t, q.2]) = merged.insert q.1 (join' [t, q.2])
            rw [hsame t q.2 (hprevious t hl) hq]
          · rcases Table.mem_insert hp with rfl | hp
            · exact hjoin t q.2 (hprevious t hl) hq
            · exact hmerged p hp
        | none =>
          refine ⟨rfl, fun p hp => ?_⟩
          rcases Table.mem_insert hp with rfl | hp
          · exact hq
          · exact hmerged p hp
      rw [List.foldl_cons, List.foldl_cons, ← hstep.1]
      exact ih (fun p hp => h p (List.mem_cons_of_mem _ hp)) _ hstep.2
  exact hfold [] fun _ hp => absurd hp List.not_mem_nil

end Merge

/-! ### Properties that joins keep -/

/-- A property of types, at each depth of payloads, that unions and variants take from their parts. -/
structure Hereditary (P : ℕ → Ty → Prop) : Prop where
  bottom : ∀ {n}, P n .bottom
  top : ∀ {n}, P n .top
  effects : ∀ {n l m}, P n (.effects l) → P n (.effects m)
  union : ∀ {n members}, P n (.union members) ↔ ∀ m ∈ members, P n m
  payload : ∀ {n entries isOpen}, P n (.variant entries isOpen) → ∀ p ∈ entries, P (n - 1) p.2
  variant : ∀ {n entries isOpen merged}, P n (.variant entries isOpen) → merged ≠ [] →
    (∀ p ∈ merged, P (n - 1) p.2) → P n (.variant merged false)

namespace Hereditary

variable {P : ℕ → Ty → Prop} {n : ℕ} {σ : Ty.Sharing} {types : List Ty}

theorem flat (h : Hereditary P) {t : Ty} (ht : P n t) : ∀ m ∈ t.flat, P n m := by
  induction t using Ty.ind with
  | h t ih =>
  cases t
  case bottom => exact fun m hm => absurd hm List.not_mem_nil
  case union members =>
    intro m hm
    obtain ⟨a, ha, hm⟩ := Ty.mem_flatAll.1 hm
    exact ih a ha (h.union.1 ht a ha) m hm
  all_goals
    intro m hm
    obtain rfl := List.mem_singleton.1 hm
    exact ht

theorem unionTypes (h : Hereditary P) (htypes : ∀ t ∈ types, P n t) : P n (unionTypes σ types) := by
  unfold Blot.Typecheck.unionTypes
  rw [UnionMembers.appendAll_eq]
  have hmembers : ∀ u, (Ty.flatAll types).foldlM (UnionMembers.addMember σ) ⟨[], []⟩ = some u →
      ∀ m ∈ u.members, P n m := by
    intro u hu m hm
    rcases UnionMembers.mem_of_foldlM hu m hm with hm | hm
    · cases hm
    · obtain ⟨t, ht, hm⟩ := Ty.mem_flatAll.1 hm
      exact h.flat (htypes t ht) m hm
  split
  · exact h.top
  · exact h.bottom
  · rename_i hu
    exact hmembers _ hu _ List.mem_cons_self
  · rename_i hu
    exact h.union.2 (hmembers _ hu)

theorem entries (h : Hereditary P) (htypes : ∀ t ∈ types, P n t) : ∀ p ∈ casesOf types, P (n - 1) p.2 := by
  intro p hp
  obtain ⟨t, ht, hp⟩ := List.mem_flatMap.1 hp
  cases t
  case variant entries isOpen => exact h.payload (htypes _ ht) p hp
  all_goals cases hp

/-- One level of a join. -/
theorem joinOnce {join : List Ty → Ty} (h : Hereditary P) (hjoin : ∀ n a b, P n a → P n b → P n (join [a, b]))
    (htypes : ∀ t ∈ types, P n t) : P n (joinOnce σ join types) := by
  have hother : ∀ t ∈ types.filter Ty.isOther ++ types.filter Ty.isRange, P n t := by
    intro t ht
    rcases List.mem_append.1 ht with ht | ht
    · exact htypes t (List.mem_filter.1 ht).1
    · exact htypes t (List.mem_filter.1 ht).1
  have hvariant : casesOf types ≠ [] → P n (.variant (mergeFields join (casesOf types)) false) := by
    intro hne
    obtain ⟨p, hp⟩ := List.exists_mem_of_ne_nil _ hne
    obtain ⟨t, ht, hp⟩ := List.mem_flatMap.1 hp
    cases t
    case variant entries isOpen =>
      exact h.variant (htypes _ ht) (mergeFields_ne_nil hne) (mergeFields_keeps (hjoin (n - 1)) (h.entries htypes))
    all_goals cases hp
  unfold Blot.Typecheck.joinOnce
  simp only [joinParts_eq]
  split
  · rename_i hrows
    obtain ⟨l, hl⟩ := Finset.nonempty_iff_ne_empty.2 hrows.1
    obtain ⟨t, ht, hl⟩ := mem_rowLabels.1 hl
    cases t
    case effects labels => exact h.effects (htypes _ ht)
    all_goals simp [Ty.labels] at hl
  · split
    · rename_i hvariants
      exact hvariant hvariants.1
    · split
      · rename_i hvariants
        refine h.unionTypes fun t ht => ?_
        rcases List.mem_append.1 ht with ht | ht
        · exact hother t ht
        · obtain rfl := List.mem_singleton.1 ht
          exact hvariant hvariants
      · exact h.unionTypes hother

theorem joinWithin (h : Hereditary P) (depth : ℕ) (htypes : ∀ t ∈ types, P n t) : P n (joinWithin σ depth types) := by
  induction depth generalizing n types with
  | zero => exact h.joinOnce (fun _ _ _ _ _ => h.bottom) htypes
  | succ depth ih => exact h.joinOnce (fun _ _ _ ha hb => ih (forall_pair ha hb)) htypes

/-- **Joins keep what unions and variants take from their parts.** -/
theorem joinTypes (h : Hereditary P) (htypes : ∀ t ∈ types, P n t) : P n (joinTypes σ types) :=
  h.joinWithin _ htypes

end Hereditary

/-! ### The depth of a join -/

namespace Ty

theorem membersCaseDepth_le {types : List Ty} {n : ℕ} :
    membersCaseDepth types ≤ n ↔ ∀ t ∈ types, t.caseDepth ≤ n := by
  induction types with
  | nil => simp [membersCaseDepth]
  | cons t types ih => simp [membersCaseDepth, ih]

theorem rowCaseDepth_le {fields : List (String × Ty)} {n : ℕ} :
    rowCaseDepth fields ≤ n ↔ ∀ p ∈ fields, p.2.caseDepth ≤ n := by
  induction fields with
  | nil => simp [rowCaseDepth]
  | cons p fields ih => simp [rowCaseDepth, ih]

end Ty

theorem hereditary_caseDepth : Hereditary fun n t => t.caseDepth ≤ n where
  bottom := Nat.zero_le _
  top := Nat.zero_le _
  effects _ := Nat.zero_le _
  union := Ty.membersCaseDepth_le
  payload h := Ty.rowCaseDepth_le.1 (by simp only [Ty.caseDepth] at h; omega)
  variant h _ hmerged := by
    have hrow := Ty.rowCaseDepth_le.2 hmerged
    simp only [Ty.caseDepth] at h ⊢
    omega

theorem joinOnce_congr {σ : Ty.Sharing} {join join' : List Ty → Ty} {types : List Ty}
    (h : mergeFields join (casesOf types) = mergeFields join' (casesOf types)) :
    joinOnce σ join types = joinOnce σ join' types := by
  unfold joinOnce
  simp only [joinParts_eq, h]

theorem casesOf_eq_nil {types : List Ty} (h : ∀ t ∈ types, t.caseDepth ≤ 0) : casesOf types = [] := by
  refine List.flatMap_eq_nil_iff.2 fun t ht => ?_
  have hdepth := h t ht
  cases t
  case variant => exact absurd hdepth (by simp [Ty.caseDepth])
  all_goals rfl

theorem joinWithin_eq {σ : Ty.Sharing} {depth depth' : ℕ} {types : List Ty} (h : ∀ t ∈ types, t.caseDepth ≤ depth)
    (h' : ∀ t ∈ types, t.caseDepth ≤ depth') : joinWithin σ depth types = joinWithin σ depth' types := by
  induction depth generalizing depth' types with
  | zero =>
    cases depth' with
    | zero => rfl
    | succ depth' => exact joinOnce_congr (by rw [casesOf_eq_nil h]; rfl)
  | succ depth ih =>
    cases depth' with
    | zero => exact joinOnce_congr (by rw [casesOf_eq_nil h']; rfl)
    | succ depth' =>
      have hmin : ∀ t ∈ types, t.caseDepth ≤ min depth depth' + 1 := by
        intro t ht
        have hd := h t ht
        have hd' := h' t ht
        omega
      refine joinOnce_congr (mergeFields_congr (P := fun t => t.caseDepth ≤ min depth depth') ?_ ?_ ?_)
      · intro a b ha hb
        refine ih (forall_pair ?_ ?_) (forall_pair ?_ ?_)
        all_goals omega
      · exact fun a b ha hb => hereditary_caseDepth.joinWithin depth (forall_pair ha hb)
      · exact hereditary_caseDepth.entries hmin

/-- **The equation of `join_types`.** -/
theorem joinTypes_eq (σ : Ty.Sharing) (types : List Ty) : joinTypes σ types = joinOnce σ (joinTypes σ) types := by
  have hdepth := Ty.membersCaseDepth_le.1 (le_refl (Ty.membersCaseDepth types))
  unfold joinTypes
  cases hd : Ty.membersCaseDepth types with
  | zero =>
    refine joinOnce_congr ?_
    rw [casesOf_eq_nil (hd ▸ hdepth)]
    rfl
  | succ depth =>
    rw [hd] at hdepth
    refine joinOnce_congr (mergeFields_congr (P := fun t => t.caseDepth ≤ depth) ?_ ?_ ?_)
    · intro a b ha hb
      exact joinWithin_eq (forall_pair ha hb) (Ty.membersCaseDepth_le.1 (le_refl _))
    · exact fun a b ha hb => hereditary_caseDepth.joinWithin depth (forall_pair ha hb)
    · exact hereditary_caseDepth.entries hdepth

end Blot.Typecheck
