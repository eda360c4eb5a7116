import Mathlib.Data.List.Perm.Basic
import Mathlib.Data.List.Range
import Blot.Support.Checks

/-!
# Accounts of references

Keys hold references.  A reference is made once, moves from holder to holder, and is dropped.  An account is balanced when
each reference that was made has been dropped once, or is held once, here or elsewhere.
-/

namespace Blot.Support

/-- References under keys, how many references have been made, and those that have been dropped. -/
structure Account (K : Type) where
  held : List (K × ℕ)
  supply : ℕ
  dropped : List ℕ

namespace Account

variable {K ε : Type} [DecidableEq K] (missing : K → ε)

def keys (a : Account K) : List K := a.held.map (·.1)

def references (a : Account K) : List ℕ := a.held.map (·.2)

def read (a : Account K) (k : K) : Except ε ℕ := demand (a.held.lookup k) (missing k)

def release (a : Account K) (k : K) : Except ε (Account K) := do
  let r ← a.read missing k
  pure ⟨a.held.filter (·.1 ≠ k), a.supply, r :: a.dropped⟩

def put (a : Account K) (k : K) : Account K :=
  ⟨(k, a.supply) :: a.held.filter (·.1 ≠ k), a.supply + 1, a.dropped⟩

def take (a : Account K) (k : K) : Except ε (ℕ × Account K) := do
  let r ← a.read missing k
  pure (r, { a with held := a.held.filter (·.1 ≠ k) })

/-- References for some destinations: the first one of a key gets its reference, each further one a new reference. -/
def allot (held : List (K × ℕ)) : List K → List K → ℕ → Except ε (List ℕ × ℕ)
  | _, [], supply => .ok ([], supply)
  | seen, k :: rest, supply => do
    let r ← demand (held.lookup k) (missing k)
    if k ∈ seen then do
      let (rs, supply') ← allot held seen rest (supply + 1)
      .ok (supply :: rs, supply')
    else do
      let (rs, supply') ← allot held (k :: seen) rest supply
      .ok (r :: rs, supply')

/-- The references under some of the keys move to destinations, those under the others are dropped. -/
def transfer (a : Account K) (keys destinations : List K) : Except ε (List ℕ × Account K) := do
  let (rs, supply) ← allot missing a.held [] destinations a.supply
  let a ← (keys.filter (· ∉ destinations)).foldlM (release missing) { a with supply }
  pure (rs, { a with held := a.held.filter (·.1 ∉ destinations) })

def enter (a : Account K) (keys : List K) (references : List ℕ) : Account K := { a with held := keys.zip references }

/-- **Each reference that was made has been dropped once, or is held once**, here under a key of its own, or
elsewhere. -/
structure Balanced (a : Account K) (elsewhere : List ℕ) : Prop where
  keys : a.keys.Nodup
  references : (a.dropped ++ a.references ++ elsewhere).Perm (List.range a.supply)

/-! ### Held references -/

section Held

variable {held : List (K × ℕ)}

/-- A key that is held has one entry. -/
theorem held_perm : ∀ {held : List (K × ℕ)} {k : K}, (held.map (·.1)).Nodup → k ∈ held.map (·.1) →
    ∃ r, held.lookup k = some r ∧ held.Perm ((k, r) :: held.filter (·.1 ≠ k))
  | [], _, _, h => nomatch h
  | (k', r') :: held, k, hnodup, h => by
    obtain ⟨hnot, hnodup⟩ := List.nodup_cons.mp hnodup
    by_cases hk : k = k'
    · subst hk
      refine ⟨r', by rw [List.lookup_cons, beq_self_eq_true], ?_⟩
      have hsame : held.filter (·.1 ≠ k) = held := by
        rw [List.filter_eq_self]
        intro p hp
        exact decide_eq_true fun he => hnot (he ▸ List.mem_map.mpr ⟨p, hp, rfl⟩)
      rw [List.filter_cons_of_neg (by simp), hsame]
    · obtain ⟨r, hr, hperm⟩ := held_perm hnodup ((List.mem_cons.mp h).resolve_left hk)
      refine ⟨r, by rw [List.lookup_cons, beq_eq_false_iff_ne.mpr hk, hr], ?_⟩
      rw [List.filter_cons_of_pos (by simpa using Ne.symm hk)]
      exact (hperm.cons _).trans (List.Perm.swap _ _ _)

end Held

omit [DecidableEq K] in
theorem keys_of_held {a a' : Account K} {p : K → Bool} (h : a'.held = a.held.filter fun entry => p entry.1) :
    a'.keys = a.keys.filter p := by
  rw [keys, keys, h, List.filter_map]
  rfl

/-! ### The operations -/

section Operations

variable {a : Account K} {elsewhere : List ℕ}

theorem Balanced.read (h : a.Balanced elsewhere) {k : K} (hk : k ∈ a.keys) :
    ∃ r, a.read missing k = .ok r ∧ r ∈ a.references ∧ r ∉ a.dropped := by
  obtain ⟨r, hr, hperm⟩ := held_perm h.keys hk
  have hmem : r ∈ a.references := List.mem_map.mpr ⟨(k, r), hperm.mem_iff.mpr List.mem_cons_self, rfl⟩
  refine ⟨r, demand_eq_ok.mpr hr, hmem, fun hdropped => ?_⟩
  have hnodup := h.references.nodup_iff.mpr List.nodup_range
  rw [List.append_assoc] at hnodup
  exact (List.nodup_append.mp hnodup).2.2 r hdropped r (List.mem_append_left _ hmem) rfl

theorem Balanced.release (h : a.Balanced elsewhere) {k : K} (hk : k ∈ a.keys) :
    ∃ a', a.release missing k = .ok a' ∧ a'.Balanced elsewhere ∧ a'.supply = a.supply ∧
      a'.held = a.held.filter fun entry => entry.1 ≠ k := by
  obtain ⟨r, hr, hperm⟩ := held_perm h.keys hk
  refine ⟨⟨a.held.filter (·.1 ≠ k), a.supply, r :: a.dropped⟩, ?_, ⟨?_, ?_⟩, rfl, rfl⟩
  · rw [Account.release, Account.read, demand_eq_ok.mpr hr]
    rfl
  · rw [keys_of_held (a := a) (p := fun k' => k' ≠ k) rfl]
    exact h.keys.filter _
  · refine List.Perm.trans ?_ h.references
    have hreferences : a.references.Perm (r :: (a.held.filter (·.1 ≠ k)).map (·.2)) := hperm.map _
    refine List.Perm.append_right elsewhere ?_
    show (r :: (a.dropped ++ (a.held.filter (·.1 ≠ k)).map (·.2))).Perm (a.dropped ++ a.references)
    exact (List.perm_middle.symm.trans (hreferences.symm.append_left a.dropped))

theorem Balanced.releaseAll : ∀ {ks : List K} {a : Account K}, a.Balanced elsewhere → ks.Nodup → (∀ k ∈ ks, k ∈ a.keys) →
    ∃ a', ks.foldlM (Account.release missing) a = .ok a' ∧ a'.Balanced elsewhere ∧ a'.supply = a.supply ∧
      a'.held = a.held.filter fun entry => entry.1 ∉ ks
  | [], a, h, _, _ => ⟨a, rfl, h, rfl, by simp⟩
  | k :: ks, a, h, hnodup, hkeys => by
    obtain ⟨hnot, hnodup⟩ := List.nodup_cons.mp hnodup
    obtain ⟨hk, hkeys⟩ := List.forall_mem_cons.mp hkeys
    obtain ⟨next, hnext, hbalanced, hsupply, hheld⟩ := h.release missing hk
    obtain ⟨a', ha', hbalanced', hsupply', hheld'⟩ := hbalanced.releaseAll hnodup fun k' hk' => by
      rw [keys_of_held (p := fun k' => k' ≠ k) hheld, List.mem_filter]
      exact ⟨hkeys k' hk', decide_eq_true fun he => hnot (he ▸ hk')⟩
    refine ⟨a', by rw [List.foldlM_cons, hnext, ok_bind, ha'], hbalanced', hsupply'.trans hsupply, ?_⟩
    rw [hheld', hheld, List.filter_filter]
    refine List.filter_congr fun entry _ => ?_
    rw [← Bool.decide_and, decide_eq_decide, List.mem_cons, not_or]
    exact and_comm

theorem Balanced.put (h : a.Balanced elsewhere) {k : K} (hk : k ∉ a.keys) :
    (a.put k).Balanced elsewhere ∧ (a.put k).keys = k :: a.keys := by
  have hsame : a.held.filter (·.1 ≠ k) = a.held := by
    rw [List.filter_eq_self]
    intro p hp
    exact decide_eq_true fun he => hk (he ▸ List.mem_map_of_mem hp)
  have hkeys : (a.put k).keys = k :: a.keys := by
    show k :: (a.held.filter (·.1 ≠ k)).map (·.1) = _
    rw [hsame]
    rfl
  refine ⟨⟨hkeys ▸ List.nodup_cons.mpr ⟨hk, h.keys⟩, ?_⟩, hkeys⟩
  show (a.dropped ++ a.supply :: (a.held.filter (·.1 ≠ k)).map (·.2) ++ elsewhere).Perm (List.range (a.supply + 1))
  rw [hsame, List.range_succ]
  refine List.Perm.trans ?_ (h.references.append_right [a.supply])
  rw [List.append_assoc, List.cons_append]
  refine List.perm_middle.trans ?_
  rw [← List.append_assoc]
  exact (List.perm_append_singleton _ _).symm

theorem Balanced.take (h : a.Balanced elsewhere) {k : K} (hk : k ∈ a.keys) :
    ∃ r a', a.take missing k = .ok (r, a') ∧ a'.Balanced (r :: elsewhere) ∧
      a'.held = a.held.filter fun entry => entry.1 ≠ k := by
  obtain ⟨r, hr, hperm⟩ := held_perm h.keys hk
  refine ⟨r, { a with held := a.held.filter (·.1 ≠ k) }, ?_, ⟨?_, ?_⟩, rfl⟩
  · rw [Account.take, Account.read, demand_eq_ok.mpr hr]
    rfl
  · rw [keys_of_held (a := a) (p := fun k' => k' ≠ k) rfl]
    exact h.keys.filter _
  · refine List.Perm.trans ?_ h.references
    have hreferences : a.references.Perm (r :: (a.held.filter (·.1 ≠ k)).map (·.2)) := hperm.map _
    show (a.dropped ++ (a.held.filter (·.1 ≠ k)).map (·.2) ++ r :: elsewhere).Perm _
    refine List.perm_middle.trans ?_
    rw [← List.cons_append]
    refine List.Perm.append_right elsewhere ?_
    exact (List.perm_middle.symm.trans (hreferences.symm.append_left a.dropped))

end Operations

/-! ### Transfers -/

section Transfer

variable {held : List (K × ℕ)}

/-- The references of keys that move. -/
def moved (held : List (K × ℕ)) (seen destinations : List K) : List ℕ :=
  (held.filter fun p => p.1 ∈ destinations ∧ p.1 ∉ seen).map (·.2)

theorem moved_of_seen {seen rest : List K} {k : K} (h : k ∈ seen) : moved held seen (k :: rest) = moved held seen rest := by
  unfold moved
  congr 1
  refine List.filter_congr fun p _ => ?_
  rw [decide_eq_decide, List.mem_cons]
  constructor
  · rintro ⟨rfl | hp, hnot⟩
    · exact absurd h hnot
    · exact ⟨hp, hnot⟩
  · exact fun ⟨hp, hnot⟩ => ⟨.inr hp, hnot⟩

/-- A key that has not moved moves now. -/
theorem moved_of_not_seen (hnodup : (held.map (·.1)).Nodup) {seen rest : List K} {k : K} {r : ℕ}
    (hr : held.lookup k = some r) (hk : k ∈ held.map (·.1)) (h : k ∉ seen) :
    (moved held seen (k :: rest)).Perm (r :: moved held (k :: seen) rest) := by
  obtain ⟨r', hr', hperm⟩ := held_perm hnodup hk
  obtain rfl : r' = r := Option.some.inj (hr'.symm.trans hr)
  unfold moved
  refine ((hperm.filter _).map _).trans ?_
  rw [List.filter_cons_of_pos (by simp [h]), List.map_cons, List.filter_filter]
  refine List.Perm.of_eq ?_
  congr 2
  refine List.filter_congr fun p _ => ?_
  rw [← Bool.decide_and, decide_eq_decide, List.mem_cons, List.mem_cons, not_or]
  constructor
  · rintro ⟨⟨rfl | hp, hnot⟩, hne⟩
    · exact absurd rfl hne
    · exact ⟨hp, hne, hnot⟩
  · exact fun ⟨hp, hne, hnot⟩ => ⟨⟨.inr hp, hnot⟩, hne⟩

/-- **The destinations get the references of their keys, and new ones where a key repeats.** -/
theorem allot_spec (hnodup : (held.map (·.1)).Nodup) : ∀ {destinations seen : List K} {supply : ℕ},
    (∀ k ∈ destinations, k ∈ held.map (·.1)) →
    ∃ rs more, allot missing held seen destinations supply = .ok (rs, supply + more) ∧
      rs.length = destinations.length ∧
      rs.Perm (moved held seen destinations ++ List.range' supply more)
  | [], seen, supply, _ => ⟨[], 0, rfl, rfl, by simp [moved]⟩
  | k :: rest, seen, supply, h => by
    obtain ⟨hk, hrest⟩ := List.forall_mem_cons.mp h
    obtain ⟨r, hr, -⟩ := held_perm hnodup hk
    rw [allot, demand_eq_ok.mpr hr, ok_bind]
    by_cases hseen : k ∈ seen
    · obtain ⟨rs, more, hrs, hlength, hperm⟩ := allot_spec hnodup hrest
      refine ⟨supply :: rs, more + 1, ?_, congrArg Nat.succ hlength, ?_⟩
      · rw [if_pos hseen, hrs, Nat.add_right_comm, Nat.add_assoc]
        rfl
      · rw [moved_of_seen hseen, List.range'_succ]
        exact (hperm.cons supply).trans List.perm_middle.symm
    · obtain ⟨rs, more, hrs, hlength, hperm⟩ := allot_spec hnodup hrest
      refine ⟨r :: rs, more, ?_, congrArg Nat.succ hlength, ?_⟩
      · rw [if_neg hseen, hrs]
        rfl
      · refine (hperm.cons r).trans ?_
        rw [← List.cons_append]
        exact (moved_of_not_seen hnodup hr hk hseen).symm.append_right _

/-- **A transfer of everything that is held**: the destinations get a reference each, the other keys are dropped, and
nothing stays. -/
theorem Balanced.transfer {a : Account K} {elsewhere : List ℕ} (h : a.Balanced elsewhere) {ks destinations : List K}
    (hnodup : ks.Nodup) (hkeys : ∀ k, k ∈ a.keys ↔ k ∈ ks) (hdestinations : ∀ k ∈ destinations, k ∈ ks) :
    ∃ rs a', a.transfer missing ks destinations = .ok (rs, a') ∧ rs.length = destinations.length ∧
      a'.held = [] ∧ a'.Balanced (rs ++ elsewhere) := by
  obtain ⟨rs, more, hrs, hlength, hperm⟩ := allot_spec missing h.keys
    fun k hk => (hkeys k).mpr (hdestinations k hk)
  -- the new references are held by the destinations already
  have hmade : (Account.mk a.held (a.supply + more) a.dropped).Balanced (List.range' a.supply more ++ elsewhere) := by
    refine ⟨h.keys, ?_⟩
    show (a.dropped ++ a.references ++ (List.range' a.supply more ++ elsewhere)).Perm (List.range (a.supply + more))
    have hrange : List.range (a.supply + more) = List.range a.supply ++ List.range' a.supply more := by
      rw [List.range_eq_range', List.range_eq_range', ← List.range'_append_1, Nat.zero_add]
    rw [hrange]
    refine List.Perm.trans ?_ (h.references.append_right _)
    rw [List.append_assoc (a.dropped ++ a.references)]
    exact List.perm_append_comm.append_left _
  obtain ⟨a', ha', hbalanced, hsupply, hheld⟩ := hmade.releaseAll missing (hnodup.filter (· ∉ destinations)) fun k hk =>
    (hkeys k).mpr (List.mem_filter.mp hk).1
  -- what is left are the keys that move
  have hleft : a'.held = a.held.filter fun entry => entry.1 ∈ destinations ∧ entry.1 ∉ ([] : List K) := by
    rw [hheld]
    refine List.filter_congr fun entry he => ?_
    have hentry : entry.1 ∈ ks := (hkeys entry.1).mp (List.mem_map.mpr ⟨entry, he, rfl⟩)
    rw [decide_eq_decide, List.mem_filter, decide_eq_true_eq]
    constructor
    · exact fun hnot => ⟨by_contra fun hd => hnot ⟨hentry, hd⟩, List.not_mem_nil⟩
    · exact fun hd hn => hn.2 hd.1
  have hnone : a'.held.filter (·.1 ∉ destinations) = [] := by
    rw [List.filter_eq_nil_iff]
    intro entry he
    rw [hleft] at he
    simpa using (of_decide_eq_true (List.mem_filter.mp he).2).1
  refine ⟨rs, { a' with held := [] }, ?_, hlength, rfl, List.nodup_nil, ?_⟩
  · rw [Account.transfer, hrs, ok_bind]
    show (do let a ← (ks.filter (· ∉ destinations)).foldlM (Account.release missing) _; _) = _
    rw [ha', ok_bind, hnone]
    rfl
  · refine List.Perm.trans ?_ hbalanced.references
    show (a'.dropped ++ [] ++ (rs ++ elsewhere)).Perm _
    rw [List.append_nil, List.append_assoc, ← List.append_assoc a'.references]
    refine List.Perm.append_left a'.dropped (List.Perm.append_right elsewhere ?_)
    rw [Account.references, hleft]
    exact hperm

end Transfer

end Account

end Blot.Support
