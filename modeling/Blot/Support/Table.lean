import Mathlib.Data.List.Basic

/-!
# Ordered tables

A table is a list of entries, its keys in the order they were first inserted (`OrderedFields`; also `BTreeMap`, where
the order does not matter).
-/

namespace Blot.Support

variable {K A B : Type} [DecidableEq K]

abbrev Table (K A : Type) := List (K × A)

namespace Table

/-- The value of a key is replaced in its place, or the entry is added at the end. -/
def insert (t : Table K A) (k : K) (a : A) : Table K A :=
  if (t.lookup k).isSome then t.map fun p => if p.1 = k then (k, a) else p else t ++ [(k, a)]

def extend (t more : Table K A) : Table K A := more.foldl (fun t p => t.insert p.1 p.2) t

/-- Adds the entries of another table under the keys that are missing (`entry(..).or_insert(..)`). -/
def fill (t more : Table K A) : Table K A :=
  more.foldl (fun t p => if (t.lookup p.1).isSome then t else t.insert p.1 p.2) t

theorem lookup_cons (k k' : K) (a : A) (t : Table K A) :
    List.lookup k ((k', a) :: t) = if k = k' then some a else t.lookup k := by
  rw [List.lookup_cons]
  by_cases h : k = k'
  · rw [if_pos h, beq_iff_eq.2 h]
  · rw [if_neg h, beq_eq_false_iff_ne.2 h]

theorem lookup_replace (t : Table K A) (k k' : K) (a : A) :
    List.lookup k' (t.map fun p => if p.1 = k then (k, a) else p) =
      if k' = k then (t.lookup k).map fun _ => a else t.lookup k' := by
  induction t with
  | nil => simp
  | cons p t ih =>
    obtain ⟨key, b⟩ := p
    rw [List.map_cons, lookup_cons, lookup_cons]
    by_cases hkey : key = k
    · subst hkey
      rw [if_pos rfl, lookup_cons, ih, if_pos rfl]
      by_cases h : k' = key
      · simp [h]
      · simp [h]
    · rw [if_neg hkey, lookup_cons, ih, if_neg (Ne.symm hkey)]
      by_cases h : k' = key
      · simp [h, hkey]
      · simp [h]

/-- An inserted key is read back; the other keys are as before. -/
@[simp] theorem lookup_insert (t : Table K A) (k k' : K) (a : A) :
    (t.insert k a).lookup k' = if k' = k then some a else t.lookup k' := by
  unfold insert
  cases h : t.lookup k with
  | some b =>
    rw [if_pos (show (some b).isSome = true from rfl), lookup_replace, h]
    rfl
  | none =>
    rw [if_neg (by simp), List.lookup_append, lookup_cons]
    by_cases hk : k' = k
    · rw [if_pos hk, if_pos hk, hk, h]
      rfl
    · rw [if_neg hk, if_neg hk]
      cases t.lookup k' <;> rfl

theorem mem_insert {t : Table K A} {k : K} {a : A} {p : K × A} (h : p ∈ t.insert k a) : p = (k, a) ∨ p ∈ t := by
  unfold insert at h
  split at h
  · obtain ⟨q, hq, rfl⟩ := List.mem_map.1 h
    by_cases hk : q.1 = k
    · rw [if_pos hk]
      exact .inl rfl
    · rw [if_neg hk]
      exact .inr hq
  · rcases List.mem_append.1 h with h | h
    · exact .inr h
    · exact .inl (List.mem_singleton.1 h)

theorem mem_extend {t more : Table K A} {p : K × A} (h : p ∈ t.extend more) : p ∈ more ∨ p ∈ t := by
  unfold extend at h
  induction more generalizing t with
  | nil => exact .inr h
  | cons q more ih =>
    rcases ih h with h | h
    · exact .inl (List.mem_cons_of_mem _ h)
    · rcases mem_insert h with rfl | h
      · exact .inl List.mem_cons_self
      · exact .inr h

theorem nodup_insert {t : Table K A} (h : (t.map (·.1)).Nodup) (k : K) (a : A) : ((t.insert k a).map (·.1)).Nodup := by
  unfold insert
  split
  · have hkeys : (t.map fun p => if p.1 = k then (k, a) else p).map (·.1) = t.map (·.1) := by
      rw [List.map_map]
      refine List.map_congr_left fun p _ => ?_
      by_cases hp : p.1 = k
      · simp [hp]
      · simp [hp]
    rwa [hkeys]
  · rename_i hnone
    have hnone : t.lookup k = none := Option.not_isSome_iff_eq_none.1 hnone
    rw [List.map_append, List.nodup_append]
    refine ⟨h, List.pairwise_singleton _ k, ?_⟩
    intro key hkey key' hkey'
    obtain ⟨p, hp, rfl⟩ := List.mem_map.1 hkey
    obtain rfl := List.mem_singleton.1 hkey'
    have hne := List.lookup_eq_none_iff.1 hnone p hp
    rw [bne_iff_ne] at hne
    exact Ne.symm hne

/-- Lookup by decidable equality of keys, also where the keys have another `BEq`. -/
def find (t : Table K A) (k : K) : Option A := t.lookup k

theorem find_insert (t : Table K A) (k k' : K) (a : A) :
    (t.insert k a).find k' = if k' = k then some a else t.find k' := lookup_insert t k k' a

/-- **Last wins**: an extended table answers as the last entry of what was added, or as before. -/
theorem lookup_extend (t more : Table K A) (k : K) :
    (t.extend more).lookup k = (more.reverse.lookup k).or (t.lookup k) := by
  unfold extend
  induction more generalizing t with
  | nil => simp
  | cons p more ih =>
    rw [List.foldl_cons, ih, lookup_insert, List.reverse_cons, List.lookup_append, lookup_cons]
    cases more.reverse.lookup k with
    | some a => rfl
    | none =>
      by_cases h : k = p.1
      · simp [h]
      · simp [h]

theorem extend_of_nodup (t more : Table K A) (h : ((t ++ more).map Prod.fst).Nodup) : t.extend more = t ++ more := by
  unfold extend
  induction more generalizing t with
  | nil => rw [List.foldl_nil, List.append_nil]
  | cons p more ih =>
    have hnone : t.lookup p.1 = none := by
      rw [List.lookup_eq_none_iff]
      intro q hq
      rw [bne_iff_ne]
      intro heq
      rw [List.map_append, List.nodup_append] at h
      exact h.2.2 q.1 (List.mem_map_of_mem hq) p.1 (by simp) heq.symm
    have hinsert : t.insert p.1 p.2 = t ++ [p] := by
      unfold insert
      rw [hnone, if_neg (by simp)]
    rw [List.foldl_cons, hinsert, ih (t ++ [p]) (by rwa [List.append_assoc]), List.append_assoc]
    rfl

/-- **First wins**: a filled table answers as before, or as the first entry of what was added. -/
theorem lookup_fill (t more : Table K A) (k : K) : (t.fill more).lookup k = (t.lookup k).or (more.lookup k) := by
  unfold fill
  induction more generalizing t with
  | nil => simp
  | cons p more ih =>
    rw [List.foldl_cons, ih, lookup_cons]
    cases hp : t.lookup p.1 with
    | some a =>
      rw [if_pos (show (some a).isSome = true from rfl)]
      by_cases h : k = p.1
      · rw [h, hp]
        rfl
      · rw [if_neg h]
    | none =>
      rw [if_neg (by simp), lookup_insert]
      by_cases h : k = p.1
      · rw [if_pos h, if_pos h, h, hp]
        rfl
      · rw [if_neg h, if_neg h]

theorem lookup_filterMap (keys : List K) (f : K → Option A) (k : K) :
    List.lookup k (keys.filterMap fun key => (f key).map fun a => (key, a)) = if k ∈ keys then f k else none := by
  induction keys with
  | nil => simp
  | cons key keys ih =>
    rw [List.filterMap_cons]
    cases hf : f key with
    | none =>
      rw [Option.map_none]
      refine ih.trans ?_
      by_cases h : k = key
      · rw [h, hf]
        simp
      · simp [h]
    | some a =>
      rw [Option.map_some]
      refine (lookup_cons k key a _).trans ?_
      by_cases h : k = key
      · simp [h, hf]
      · rw [if_neg h, ih]
        simp [h]

theorem mem_of_lookup {t : Table K A} {k : K} {a : A} (h : t.lookup k = some a) : (k, a) ∈ t := by
  obtain ⟨before, after, rfl, -⟩ := List.lookup_eq_some_iff.1 h
  exact List.mem_append_right _ List.mem_cons_self

theorem lookup_of_mem {t : Table K A} (h : (t.map (·.1)).Nodup) {k : K} {a : A} (hmem : (k, a) ∈ t) :
    t.lookup k = some a := by
  induction t with
  | nil => cases hmem
  | cons p t ih =>
    obtain ⟨hnew, hrest⟩ := List.nodup_cons.1 h
    rw [lookup_cons]
    rcases List.mem_cons.1 hmem with rfl | hmem
    · rw [if_pos rfl]
    · have hne : k ≠ p.1 := by
        rintro rfl
        exact hnew (List.mem_map.2 ⟨(p.1, a), hmem, rfl⟩)
      rw [if_neg hne, ih hrest hmem]

/-- A table made of entries that agree with a function of the keys answers as that function. -/
theorem lookup_extend_of_agree {f : K → Option A} {entries : Table K A} (h : ∀ p ∈ entries, f p.1 = some p.2) {k : K}
    (hk : k ∈ entries.map (·.1)) : (Table.extend [] entries).lookup k = f k := by
  obtain ⟨p, hp, rfl⟩ := List.mem_map.1 hk
  rw [lookup_extend, List.lookup_nil, Option.or_none, h p hp]
  -- the entry that the reversed table finds is one of the entries
  cases hl : entries.reverse.lookup p.1 with
  | none => exact absurd (List.lookup_eq_none_iff.1 hl p (List.mem_reverse.2 hp)) (by simp)
  | some a =>
    obtain ⟨before, after, he, _⟩ := List.lookup_eq_some_iff.1 hl
    have hmem : (p.1, a) ∈ entries := List.mem_reverse.1 (by rw [he]; simp)
    exact (h _ hmem).symm.trans (h p hp)

end Table

end Blot.Support
