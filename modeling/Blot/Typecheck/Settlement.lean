import Blot.Typecheck.Traversal
import Blot.Typecheck.Unions

/-!
# Settlement (`typecheck.rs`, `spec/TYPECHECKING.md`, section 9)

`settle` replaces the variables of a type by the join of their lower or the meet of their upper bounds, along
polarity.  A cycle is cut at the variable; what a variable settled to is kept for later queries.
-/

namespace Blot.Typecheck

open Blot.Support Checker Relation

/-! ### The code -/

/-- `settled_variables` and the `uncacheable` set of a `SettleTraversal`. -/
structure Settlement where
  settledVariables : Table (ℕ × Bool) Ty
  uncacheable : Finset (ℕ × Bool)

def cutType (positive : Bool) : Ty := if positive then .bottom else .top

def readDirection (positive : Bool) : BoundDirection := if positive then .lower else .upper

def combineBounds (σ : Ty.Sharing) (positive : Bool) : List Ty → Ty
  | [] => cutType positive
  | [settled] => settled
  | settled => if positive then joinTypes σ settled else meetTypes σ settled

def flattenEffects (labels : Finset String) : Ty → Ty
  | .openEffects nested next => flattenEffects (labels ∪ nested) next
  | .effects nested => .effects (labels ∪ nested)
  | tail => .openEffects labels tail

def rebuildSettled (σ : Ty.Sharing) : Ty → Ty
  | .recordUpdate base fields => recordUpdateType σ fields base
  | .openEffects labels tail => flattenEffects labels tail
  | .union members => unionTypes σ members
  | t => t

/-- A back edge to the active variable `id`: what became active after it is not to be kept, and neither are the two
occurrences of `id` when their polarities differ. -/
def Settlement.backEdge (k : Settlement) (active : List (ℕ × Bool)) (id : ℕ) (start positive : Bool) : Settlement :=
  let marked := k.uncacheable ∪ (active.takeWhile fun a => a.1 ≠ id).toFinset
  { k with uncacheable := if start ≠ positive then insert (id, positive) (insert (id, start) marked) else marked }

/-- The end of an active variable: its type is kept unless it is marked, and the mark goes. -/
def Settlement.leave (k : Settlement) (occurrence : ℕ × Bool) (settled : Ty) : Settlement :=
  if occurrence ∈ k.uncacheable then { k with uncacheable := k.uncacheable.erase occurrence }
  else { k with settledVariables := k.settledVariables.insert occurrence settled }

/-- `settle_seen`.  `active` lists the active variables with their polarities, innermost first; the source finds the
position of a variable in it by `positions`. -/
def settleSeen (σ : Ty.Sharing) : ℕ → List (ℕ × Bool) → Bool → Ty → Settlement → Solve (Ty × Settlement)
  | 0, _, _, _, _ => Attempt.stop .fuel
  | fuel + 1, active, positive, .var id, k =>
    match k.settledVariables.find (id, positive) with
    | some settled => pure (settled, k)
    | none =>
      match active.lookup id with
      | some start => pure (cutType positive, k.backEdge active id start positive)
      | none => do
        let s ← Attempt.get
        let (settled, k) ← mapTypes (settleSeen σ fuel ((id, positive) :: active) positive)
          (s.bounds id (readDirection positive)) k
        let settled := combineBounds σ positive settled
        return (settled, k.leave (id, positive) settled)
  | fuel + 1, active, positive, t, k => do
    let (t, k) ← mapChildren (fun isParameter => settleSeen σ fuel active (positive != isParameter)) t k
    return (rebuildSettled σ t, k)

/-- `settle`, over the entries kept so far -/
def settle (σ : Ty.Sharing) (fuel : ℕ) (positive : Bool) (t : Ty) (entries : Table (ℕ × Bool) Ty) :
    Solve (Ty × Table (ℕ × Bool) Ty) := do
  let (t, k) ← settleSeen σ fuel [] positive t ⟨entries, ∅⟩
  return (t, k.settledVariables)

/-- The entries that queries leave, with whatever at one address in each of them. -/
inductive Checker.Queried (s : Checker) : Table (ℕ × Bool) Ty → Prop where
  | start : Queried s []
  | query {σ : Ty.Sharing} {entries entries' : Table (ℕ × Bool) Ty} {fuel : ℕ} {positive : Bool} {t settled : Ty}
    (h : Queried s entries) (run : settle σ fuel positive t entries s = (.ok (settled, entries'), s)) :
    Queried s entries'

/-! ### What a settlement reads -/

/-- One step of reading: from a type to a child, from a variable to a bound. -/
inductive Checker.Reads (s : Checker) : Ty × Bool → Ty × Bool → Prop where
  | child {t c : Ty} {q b : Bool} (h : (b, c) ∈ t.parts) : Reads s (t, q) (c, q != b)
  | bound {x : ℕ} {t : Ty} {q : Bool} (h : t ∈ s.bounds x (readDirection q)) : Reads s (.var x, q) (t, q)

def Checker.ReadsTo (s : Checker) : Ty × Bool → Ty × Bool → Prop := ReflTransGen s.Reads

/-- **No cycle but a variable's own**: where reading comes from an occurrence of a variable to a variable and from
there back to the first, it has come to the first occurrence itself. -/
def Checker.OwnCycles (s : Checker) (positive : Bool) (t : Ty) : Prop :=
  ∀ x q y q' q'', s.ReadsTo (t, positive) (.var x, q) → s.ReadsTo (.var x, q) (.var y, q') →
    s.ReadsTo (.var y, q') (.var x, q'') → (y, q') = (x, q)

/-- The reading of a type without memo: at an occurrence of a variable its own cycles are cut, and what is put together
is the same whatever stands at one address.  `n` bounds the depth, and `own` is the occurrence whose bounds are being
read. -/
def Checker.Reading (s : Checker) : ℕ → Option (ℕ × Bool) → Bool → Ty → Ty → Prop
  | 0, _, _, _, _ => False
  | n + 1, own, q, .var x, v =>
    if own = some (x, q) then v = cutType q
    else ∃ vs, List.Forall₂ (s.Reading n (some (x, q)) q) (s.bounds x (readDirection q)) vs ∧
      ∀ σ, v = combineBounds σ q vs
  | n + 1, own, q, t, v =>
    ∃ t', Mapped (fun b c c' => s.Reading n own (q != b) c c') t t' ∧ ∀ σ, v = rebuildSettled σ t'

/-- No union, join or meet on the way depends on what stands at one address. -/
def Checker.Legible (s : Checker) (positive : Bool) (t : Ty) : Prop := ∃ n v, s.Reading n none positive t v

section Reading

variable {s : Checker} {n m x : ℕ} {own own' : Option (ℕ × Bool)} {q : Bool} {t v w : Ty}

theorem Checker.reading_succ_var : s.Reading (n + 1) own q (.var x) v ↔ if own = some (x, q) then v = cutType q
    else ∃ vs, List.Forall₂ (s.Reading n (some (x, q)) q) (s.bounds x (readDirection q)) vs ∧
      ∀ σ, v = combineBounds σ q vs := Iff.rfl

theorem Checker.reading_structural (hvar : ∀ id, t ≠ .var id) : s.Reading (n + 1) own q t v ↔
    ∃ t', Mapped (fun b c c' => s.Reading n own (q != b) c c') t t' ∧ ∀ σ, v = rebuildSettled σ t' := by
  cases t with
  | var id => exact absurd rfl (hvar id)
  | _ => rfl

theorem Checker.reading_var (hown : own ≠ some (x, q)) : s.Reading (n + 1) own q (.var x) v ↔
    ∃ vs, List.Forall₂ (s.Reading n (some (x, q)) q) (s.bounds x (readDirection q)) vs ∧
      ∀ σ, v = combineBounds σ q vs := by
  rw [reading_succ_var, if_neg hown]

theorem Checker.reading_own : s.Reading (n + 1) (some (x, q)) q (.var x) (cutType q) := by
  rw [reading_succ_var, if_pos rfl]

/-- A reading of a variable from outside is the same everywhere. -/
theorem Checker.Reading.outside (h : s.Reading n own q (.var x) v) (hown : own ≠ some (x, q))
    (hown' : own' ≠ some (x, q)) : s.Reading n own' q (.var x) v := by
  cases n with
  | zero => exact h.elim
  | succ n => exact (reading_var hown').2 ((reading_var hown).1 h)

/-- **A type has one reading.** -/
theorem Checker.Reading.unique (h : s.Reading n own q t v) (h' : s.Reading m own q t w) : v = w := by
  induction n generalizing m own q t v w with
  | zero => exact h.elim
  | succ n ih =>
    cases m with
    | zero => exact h'.elim
    | succ m =>
      by_cases hvar : ∃ x, t = .var x
      · obtain ⟨x, rfl⟩ := hvar
        by_cases hown : own = some (x, q)
        · rw [reading_succ_var, if_pos hown] at h h'
          rw [h, h']
        · obtain ⟨vs, hvs, hv⟩ := (reading_var hown).1 h
          obtain ⟨ws, hws, hw⟩ := (reading_var hown).1 h'
          rw [hv .nowhere, hw .nowhere, eq_of_forall₂ hvs hws fun _ _ _ => ih]
      · have hvar : ∀ id, t ≠ .var id := fun id heq => hvar ⟨id, heq⟩
        obtain ⟨u, hu, hv⟩ := (reading_structural hvar).1 h
        obtain ⟨u', hu', hw⟩ := (reading_structural hvar).1 h'
        rw [hv .nowhere, hw .nowhere, hu.unique hu' fun _ _ _ _ => ih]

end Reading

/-! ### The invariant of a settlement -/

section Settle

variable {s : Checker} {σ : Ty.Sharing} {active : List (ℕ × Bool)} {q : Bool} {t v : Ty}
  {p p' : Settlement × Checker} {x : ℕ}

theorem Checker.OwnCycles.of_readsTo {u : Ty} {q' : Bool} (h : s.OwnCycles q t) (hr : s.ReadsTo (t, q) (u, q')) :
    s.OwnCycles q' u := fun x p y p' p'' hx hy hback => h x p y p' p'' (hr.trans hx) hy hback

/-- The active variables: distinct, each reading to those that became active later and to where the traversal is. -/
structure Checker.Active (s : Checker) (active : List (ℕ × Bool)) (o : Ty × Bool) : Prop where
  distinct : (active.map Prod.fst).Nodup
  chain : active.Pairwise fun a b => s.ReadsTo (.var b.1, b.2) (.var a.1, a.2)
  leads : ∀ a ∈ active, s.ReadsTo (.var a.1, a.2) o

/-- What is kept for an occurrence with own cycles only is its reading, if it has one; nothing is kept for an active
one. -/
structure Checker.Sound (s : Checker) (active : List (ℕ × Bool)) (p : Settlement × Checker) : Prop where
  state : p.2 = s
  entries : ∀ x q v, p.1.settledVariables.find (x, q) = some v → s.OwnCycles q (.var x) →
    ∀ n w, s.Reading n none q (.var x) w → v = w
  unkept : ∀ a ∈ active, p.1.settledVariables.find a = none

def MarksStay (active : List (ℕ × Bool)) (p p' : Settlement × Checker) : Prop :=
  ∀ a ∈ active, a ∈ p.1.uncacheable → a ∈ p'.1.uncacheable

theorem progressing_marksStay (active : List (ℕ × Bool)) : Progressing (MarksStay active) :=
  ⟨fun _ _ _ h => h, fun h h' a ha hmark => h' a ha (h a ha hmark)⟩

/-- Reading from here comes to an active variable at its other polarity, and all that became active after it is
marked. -/
def Checker.Tainted (s : Checker) (active : List (ℕ × Bool)) (marked : Finset (ℕ × Bool)) (o : Ty × Bool) : Prop :=
  ∃ front a back, active = front ++ a :: back ∧ (∀ b ∈ front, b ∈ marked) ∧ s.ReadsTo o (.var a.1, !a.2)

/-- What the traversal makes of a type with own cycles only: its reading, if it has one, unless a cut at the other
polarity spoilt it, and then nothing on the way to the cut is kept. -/
def Checker.Settles (s : Checker) (active : List (ℕ × Bool)) (marked : Finset (ℕ × Bool)) (q : Bool) (t v : Ty) :
    Prop :=
  s.OwnCycles q t → ∀ n w, s.Reading n active.head? q t w → v = w ∨ s.Tainted active marked (t, q)

theorem Checker.Tainted.stay {o : Ty × Bool} (h : s.Tainted active p.1.uncacheable o) (hstay : MarksStay active p p') :
    s.Tainted active p'.1.uncacheable o := by
  obtain ⟨front, a, back, rfl, hmarked, hreads⟩ := h
  exact ⟨front, a, back, rfl, fun b hb => hstay b (List.mem_append_left _ hb) (hmarked b hb), hreads⟩

theorem Checker.Settles.stay (h : s.Settles active p.1.uncacheable q t v) (hstay : MarksStay active p p') :
    s.Settles active p'.1.uncacheable q t v := fun hown n w hw => (h hown n w hw).imp_right fun h => h.stay hstay

theorem Checker.Tainted.of_readsTo {o o' : Ty × Bool} {marked : Finset (ℕ × Bool)} (h : s.Tainted active marked o')
    (hr : s.ReadsTo o o') : s.Tainted active marked o := by
  obtain ⟨front, a, back, heq, hmarked, hreads⟩ := h
  exact ⟨front, a, back, heq, hmarked, hr.trans hreads⟩

theorem not_mem_of_lookup_eq_none {active : List (ℕ × Bool)} (h : active.lookup x = none) :
    x ∉ active.map Prod.fst := by
  intro hx
  obtain ⟨a, ha, rfl⟩ := List.mem_map.1 hx
  have := List.lookup_eq_none_iff.1 h a ha
  simp at this

/-- **A kept entry.** -/
theorem Checker.Sound.settles_kept (hI : s.Sound active p) (h : p.1.settledVariables.find (x, q) = some v) :
    s.Settles active p.1.uncacheable q (.var x) v := by
  intro hown n w hw
  refine .inl (hI.entries x q v h hown n w (hw.outside (fun hhead => ?_) (by simp)))
  have hnone := hI.unkept (x, q) (List.mem_of_mem_head? (by rw [hhead]; rfl))
  rw [h] at hnone
  cases hnone

/-- **A back edge**: at the polarity of the active occurrence it is a cycle of that occurrence alone; at the other one
the result is spoilt and all on the way is marked. -/
theorem Checker.Active.settles_backEdge {k : Settlement} (hA : s.Active active (.var x, q)) {start : Bool}
    (h : active.lookup x = some start) :
    s.Settles active (k.backEdge active x start q).uncacheable q (.var x) (cutType q) := by
  intro hown n w hw
  obtain ⟨front, back, rfl, hfront⟩ := List.lookup_eq_some_iff.1 h
  have htake : (front ++ (x, start) :: back).takeWhile (fun a => decide (a.1 ≠ x)) = front := by
    rw [List.takeWhile_append_of_pos]
    · simp
    · intro a ha
      have hne : x ≠ a.1 := by simpa using hfront a ha
      exact decide_eq_true hne.symm
  by_cases hq : start = q
  · subst hq
    have hnil : front = [] := by
      by_contra hne
      obtain ⟨z, hz⟩ := List.exists_mem_of_ne_nil front hne
      have hreads : s.ReadsTo (.var x, start) (.var z.1, z.2) :=
        (List.pairwise_append.1 hA.chain).2.2 z hz (x, start) List.mem_cons_self
      have hback : s.ReadsTo (.var z.1, z.2) (.var x, start) := hA.leads z (List.mem_append_left _ hz)
      have heq := hown x start z.1 z.2 start .refl hreads hback
      exact absurd (Prod.mk.inj heq).1.symm (by simpa using hfront z hz)
    subst hnil
    exact .inl (reading_own.unique (n := 1) hw)
  · refine .inr ⟨front, (x, start), back, rfl, fun b hb => ?_, ?_⟩
    · unfold Settlement.backEdge
      simp only [htake, if_pos hq]
      exact Finset.mem_insert_of_mem (Finset.mem_insert_of_mem
        (Finset.mem_union_right _ (List.mem_toFinset.2 hb)))
    · have hflip : (!start) = q := by cases start <;> cases q <;> simp_all
      rw [hflip]
      exact .refl

theorem marksStay_backEdge {k : Settlement} {start : Bool} :
    MarksStay active (k, s) (k.backEdge active x start q, s) := by
  intro a _ hmark
  unfold Settlement.backEdge
  simp only
  split
  · exact Finset.mem_insert_of_mem (Finset.mem_insert_of_mem (Finset.mem_union_left _ hmark))
  · exact Finset.mem_union_left _ hmark

/-- The variables that can still become active. -/
def Checker.inactive (s : Checker) (active : List (ℕ × Bool)) : Finset ℕ :=
  (Finset.range s.arena.length).filter fun x => x ∉ active.map Prod.fst

theorem card_inactive_lt (hx : x ∉ active.map Prod.fst) (hlt : x < s.arena.length) :
    (s.inactive ((x, q) :: active)).card < (s.inactive active).card := by
  have hmem : x ∈ s.inactive active := Finset.mem_filter.2 ⟨Finset.mem_range.2 hlt, hx⟩
  refine Finset.card_lt_card ((Finset.ssubset_iff_of_subset fun y hy => ?_).2 ⟨x, hmem, fun h => ?_⟩)
  · obtain ⟨hrange, hnot⟩ := Finset.mem_filter.1 hy
    exact Finset.mem_filter.2 ⟨hrange, fun h => hnot (List.mem_cons_of_mem _ h)⟩
  · exact (Finset.mem_filter.1 h).2 List.mem_cons_self

theorem Checker.Active.child {c : Ty} {b : Bool} (hA : s.Active active (t, q)) (hc : (b, c) ∈ t.parts) :
    s.Active active (c, q != b) :=
  ⟨hA.distinct, hA.chain, fun a ha => (hA.leads a ha).tail (.child hc)⟩

theorem Checker.Active.enter (hA : s.Active active (.var x, q)) (hx : x ∉ active.map Prod.fst)
    (ht : t ∈ s.bounds x (readDirection q)) : s.Active ((x, q) :: active) (t, q) where
  distinct := List.nodup_cons.2 ⟨hx, hA.distinct⟩
  chain := List.pairwise_cons.2 ⟨hA.leads, hA.chain⟩
  leads a ha := by
    rcases List.mem_cons.1 ha with rfl | ha
    · exact .single (.bound ht)
    · exact (hA.leads a ha).tail (.bound ht)

theorem Checker.Sound.enter (hI : s.Sound active p) (h : p.1.settledVariables.find (x, q) = none) :
    s.Sound ((x, q) :: active) p :=
  ⟨hI.state, hI.entries, fun a ha => by
    rcases List.mem_cons.1 ha with rfl | ha
    · exact h
    · exact hI.unkept a ha⟩

/-- **The end of a variable**: a spoilt bound has marked the variable; otherwise its bounds make its reading. -/
theorem Checker.Active.settles_bounds {marked : Finset (ℕ × Bool)} {vs : List Ty} (hx : x ∉ active.map Prod.fst)
    (hvs : List.Forall₂ (s.Settles ((x, q) :: active) marked q) (s.bounds x (readDirection q)) vs)
    (hown : s.OwnCycles q (.var x)) {n : ℕ} {own : Option (ℕ × Bool)} {w : Ty} (hne : own ≠ some (x, q))
    (hw : s.Reading n own q (.var x) w) :
    combineBounds σ q vs = w ∨ (x, q) ∈ marked ∧ s.Tainted active (marked.erase (x, q)) (.var x, q) := by
  by_cases htaint : ∃ b ∈ s.bounds x (readDirection q), s.Tainted ((x, q) :: active) marked (b, q)
  · obtain ⟨b, hb, front, a, back, heq, hmarked, hreads⟩ := htaint
    have hx' : s.ReadsTo (.var x, q) (.var a.1, !a.2) := .head (.bound hb) hreads
    cases front with
    | nil =>
      obtain ⟨rfl, rfl⟩ := List.cons.inj heq
      have h := hown x q x (!q) (!q) .refl hx' .refl
      exact absurd (Prod.mk.inj h).2 (by simp)
    | cons first front =>
      obtain ⟨rfl, rfl⟩ := List.cons.inj heq
      refine .inr ⟨hmarked _ List.mem_cons_self, front, a, back, rfl, fun b hb => ?_, hx'⟩
      refine Finset.mem_erase.2 ⟨fun h => hx ?_, hmarked b (List.mem_cons_of_mem _ hb)⟩
      exact List.mem_map.2 ⟨b, List.mem_append_left _ hb, by rw [h]⟩
  · left
    cases n with
    | zero => exact hw.elim
    | succ n =>
      obtain ⟨ws, hws, hw⟩ := (reading_var hne).1 hw
      have hread : List.Forall₂ (fun b v => ∀ w, s.Reading n (some (x, q)) q b w → v = w)
          (s.bounds x (readDirection q)) vs := by
        refine forall₂_imp_of_mem hvs fun b v hb h w hw => ?_
        exact (h (hown.of_readsTo (.single (.bound hb))) n w hw).resolve_right fun h => htaint ⟨b, hb, h⟩
      rw [hw σ, eq_of_forall₂ hread hws fun _ _ _ h => h _]

theorem marksStay_leave {k : Settlement} {occurrence : ℕ × Bool} (h : occurrence ∉ active) :
    MarksStay active (k, s) (k.leave occurrence v, s) := by
  intro a ha hmark
  unfold Settlement.leave
  split
  · exact Finset.mem_erase.2 ⟨fun heq => h (heq ▸ ha), hmark⟩
  · exact hmark

theorem Checker.Sound.leave {k : Settlement} (hI : s.Sound ((x, q) :: active) (k, s)) (hx : x ∉ active.map Prod.fst)
    (hread : (x, q) ∉ k.uncacheable → s.OwnCycles q (.var x) → ∀ n w, s.Reading n none q (.var x) w → v = w) :
    s.Sound active (k.leave (x, q) v, s) := by
  have hne : ∀ a ∈ active, a ≠ (x, q) := fun a ha heq => hx (List.mem_map.2 ⟨a, ha, by rw [heq]⟩)
  unfold Settlement.leave
  split
  · exact ⟨rfl, hI.entries, fun a ha => hI.unkept a (List.mem_cons_of_mem _ ha)⟩
  · rename_i hmark
    refine ⟨rfl, fun y q' w hl hown => ?_, fun a ha => ?_⟩
    · have hl : (k.settledVariables.insert (x, q) v).find (y, q') = some w := hl
      rw [Table.find_insert] at hl
      by_cases heq : (y, q') = (x, q)
      · rw [if_pos heq] at hl
        obtain rfl := Option.some.inj hl
        obtain ⟨rfl, rfl⟩ := Prod.mk.inj heq
        exact hread hmark hown
      · rw [if_neg heq] at hl
        exact hI.entries y q' w hl hown
    · show (k.settledVariables.insert (x, q) v).find a = none
      rw [Table.find_insert, if_neg (hne a ha)]
      exact hI.unkept a (List.mem_cons_of_mem _ ha)

/-- **Settlement finishes**, keeps sound entries, and reads what has own cycles only. -/
theorem settleSeen_finishes {size : ℕ} (hsize : ∀ x d, ∀ b ∈ s.bounds x d, sizeOf b ≤ size) (fuel : ℕ)
    (hI : s.Sound active p) (hA : s.Active active (t, q))
    (hfuel : (s.inactive active).card * (size + 1) + sizeOf t < fuel) :
    Finishes (MarksStay active) (s.Sound active) (settleSeen σ fuel active q t) p
      fun p' v => s.Settles active p'.1.uncacheable q t v := by
  induction fuel generalizing active q t p with
  | zero => omega
  | succ fuel ih =>
    obtain ⟨k, s'⟩ := p
    obtain rfl : s' = s := hI.state
    by_cases hvar : ∃ x, t = .var x
    · obtain ⟨x, rfl⟩ := hvar
      cases hkept : k.settledVariables.find (x, q) with
      | some v =>
        refine ⟨v, (k, s'), ?_, hI, fun _ _ h => h, hI.settles_kept hkept⟩
        rw [settleSeen, hkept]
        rfl
      | none =>
        cases hl : active.lookup x with
        | some start =>
          refine ⟨cutType q, (k.backEdge active x start q, s'), ?_, ⟨rfl, hI.entries, hI.unkept⟩, marksStay_backEdge,
            hA.settles_backEdge hl⟩
          rw [settleSeen, hkept, hl]
          rfl
        | none =>
          have hx := not_mem_of_lookup_eq_none hl
          obtain ⟨vs, p₁, hrun, hI₁, hstay, hvs⟩ := mapTypes_finishes (progressing_marksStay ((x, q) :: active))
            (f := settleSeen σ fuel ((x, q) :: active) q) (R := fun p => s'.Settles ((x, q) :: active) p.1.uncacheable q)
            (fun hstay h => h.stay hstay)
            (fun b hb p hI => ih hI (hA.enter hx hb) (by
              have hlt : (s'.inactive ((x, q) :: active)).card < (s'.inactive active).card :=
                card_inactive_lt hx (lt_of_mem_bounds hb)
              have hb := hsize x _ b hb
              have hmul := Nat.mul_le_mul_right (size + 1) hlt
              rw [Nat.succ_mul] at hmul
              omega)) (hI.enter hkept)
          obtain ⟨k₁, s₁⟩ := p₁
          obtain rfl : s₁ = s' := hI₁.state
          have hnot : (x, q) ∉ active := fun h => hx (List.mem_map.2 ⟨_, h, rfl⟩)
          refine ⟨combineBounds σ q vs, (k₁.leave (x, q) (combineBounds σ q vs), s₁), ?_, ?_, ?_, ?_⟩
          · rw [settleSeen, hkept, hl]
            refine (Attempt.bind_run_ok (Attempt.get_run _)).trans ?_
            exact (Attempt.bind_run_ok hrun).trans rfl
          · refine hI₁.leave hx fun hmark hown n w hw => ?_
            exact (Active.settles_bounds hx hvs hown (by simp) hw).resolve_right fun h => hmark h.1
          · exact (progressing_marksStay active).trans (fun a ha => hstay a (List.mem_cons_of_mem _ ha))
              (marksStay_leave (s := s₁) hnot)
          · intro hown n w hw
            have hhead : active.head? ≠ some (x, q) := fun h => hnot (List.mem_of_mem_head? (by rw [h]; rfl))
            rcases Active.settles_bounds (σ := σ) hx hvs hown hhead hw with heq | ⟨hmarked, htaint⟩
            · exact .inl heq
            · refine .inr ?_
              unfold Settlement.leave
              rw [if_pos hmarked]
              exact htaint
    · have hvar : ∀ id, t ≠ .var id := fun id heq => hvar ⟨id, heq⟩
      obtain ⟨t', p', hrun, hI', hstay, hmapped⟩ := mapChildren_finishes (progressing_marksStay active)
        (g := fun b => settleSeen σ fuel active (q != b))
        (R := fun p b c c' => (b, c) ∈ t.parts ∧ s'.Settles active p.1.uncacheable (q != b) c c')
        (fun hstay h => ⟨h.1, h.2.stay hstay⟩)
        (fun b c hc p hI => by
          have hlt := Ty.sizeOf_child_lt (Ty.child_of_part hc)
          obtain ⟨v, p', hrun, hI', hstay, hv⟩ := ih hI (hA.child hc) (by omega)
          exact ⟨v, p', hrun, hI', hstay, hc, hv⟩) hI
      refine ⟨rebuildSettled σ t', p', ?_, hI', hstay, fun hown n w hw => ?_⟩
      · have hrun' : (do
            let (t, k) ← mapChildren (fun b => settleSeen σ fuel active (q != b)) t k
            return (rebuildSettled σ t, k) : Solve (Ty × Settlement)) s' = (.ok (rebuildSettled σ t', p'.1), p'.2) :=
          (Attempt.bind_run_ok hrun).trans rfl
        cases t with
        | var id => exact absurd rfl (hvar id)
        | _ => exact hrun'
      · by_cases htaint : s'.Tainted active p'.1.uncacheable (t, q)
        · exact .inr htaint
        cases n with
        | zero => exact hw.elim
        | succ n =>
          obtain ⟨u, hu, hw⟩ := (reading_structural hvar).1 hw
          refine .inl ?_
          rw [hw σ, hmapped.unique hu]
          rintro b c c' c'' ⟨hc, h⟩ hread
          have hstep : s'.ReadsTo (t, q) (c, q != b) := .single (.child hc)
          exact (h (hown.of_readsTo hstep) n c'' hread).resolve_right fun h => htaint (h.of_readsTo hstep)

end Settle

/-! ### Histories -/

theorem settleSeen_refines (σ : Ty.Sharing) (fuel : ℕ) (active : List (ℕ × Bool)) (q : Bool) (t : Ty) (k : Settlement) :
    Attempt.Refines (settleSeen σ fuel active q t k) (settleSeen σ (fuel + 1) active q t k) := by
  induction fuel generalizing active q t k with
  | zero => exact fun s a s' h => absurd h Attempt.stop_ne_ok
  | succ fuel ih =>
    cases t with
    | var x =>
      rw [settleSeen, settleSeen]
      cases k.settledVariables.find (x, q) with
      | some v => exact Attempt.refines_refl _
      | none =>
        cases active.lookup x with
        | some start => exact Attempt.refines_refl _
        | none =>
          exact Attempt.refines_bind (Attempt.refines_refl _) fun s =>
            Attempt.refines_bind (refines_mapTypes (fun t k => ih _ _ t k) _ _) fun _ => Attempt.refines_refl _
    | _ =>
      exact Attempt.refines_bind (refines_mapChildren (fun b t k => ih active (q != b) t k) _ _) fun _ =>
        Attempt.refines_refl _

theorem settle_run_more {σ : Ty.Sharing} {s s' : Checker} {fuel more : ℕ} {q : Bool} {t v : Ty} {entries entries' : Table (ℕ × Bool) Ty}
    (h : settle σ fuel q t entries s = (.ok (v, entries'), s')) (hle : fuel ≤ more) :
    settle σ more q t entries s = (.ok (v, entries'), s') := by
  induction hle with
  | refl => exact h
  | step _ ih =>
    exact Attempt.refines_bind (settleSeen_refines _ _ _ _ _ _) (fun _ => Attempt.refines_refl _) _ _ _ ih

section Histories

variable {s : Checker} {t : Ty} {q : Bool} {entries : Table (ℕ × Bool) Ty}

theorem settle_finishes (s : Checker) (q : Bool) (t : Ty) : ∃ enough, ∀ fuel ≥ enough, ∀ σ entries,
    s.Sound [] (⟨entries, ∅⟩, s) → ∃ v entries', settle σ fuel q t entries s = (.ok (v, entries'), s) ∧
      s.Sound [] (⟨entries', ∅⟩, s) ∧ (s.OwnCycles q t → ∀ n w, s.Reading n none q t w → v = w) := by
  obtain ⟨size, hsize⟩ := s.exists_size
  refine ⟨(s.inactive []).card * (size + 1) + sizeOf t + 1, fun fuel hfuel σ entries hI => ?_⟩
  have hA : s.Active [] (t, q) := ⟨List.nodup_nil, .nil, fun a ha => absurd ha List.not_mem_nil⟩
  obtain ⟨v, ⟨k, s'⟩, hrun, hI', -, hv⟩ := settleSeen_finishes (σ := σ) hsize fuel hI hA (by omega)
  obtain rfl : s' = s := hI'.state
  refine ⟨v, k.settledVariables, (Attempt.bind_run_ok hrun).trans rfl,
    ⟨rfl, hI'.entries, fun a ha => absurd ha List.not_mem_nil⟩, fun hown n w hw => ?_⟩
  refine (hv hown n w hw).resolve_right ?_
  rintro ⟨front, a, back, heq, -⟩
  cases front <;> cases heq

/-- Whatever the queries so far, what is kept for occurrences with own cycles only is their reading. -/
theorem Checker.Queried.sound (h : s.Queried entries) : s.Sound [] (⟨entries, ∅⟩, s) := by
  induction h with
  | start => exact ⟨rfl, fun x q v hl => absurd hl (by simp [Table.find]), fun a ha => absurd ha List.not_mem_nil⟩
  | @query σ entries entries' fuel q t v _ run ih =>
    obtain ⟨enough, h⟩ := settle_finishes s q t
    obtain ⟨w, entries'', hrun, hsound, -⟩ := h (max enough fuel) (le_max_left _ _) σ entries ih
    have hmore := settle_run_more run (le_max_right enough fuel)
    obtain ⟨heq, -⟩ := Prod.mk.inj (hmore.symm.trans hrun)
    obtain ⟨-, rfl⟩ := Prod.mk.inj (Except.ok.inj heq)
    exact hsound

/-- The variables that a reading comes to have readings. -/
theorem Checker.Legible.of_readsTo {x : ℕ} {q' : Bool} (h : s.Legible q t) (hr : s.ReadsTo (t, q) (.var x, q')) :
    s.Legible q' (.var x) := by
  -- On the way the reading is inside the bounds of an occurrence that has a reading itself.
  have hon : ∀ o o' : Ty × Bool, s.ReadsTo o o' → ∀ own, (∃ n v, s.Reading n own o.2 o.1 v) →
      (∀ y p, own = some (y, p) → s.Legible p (.var y)) → ∀ y p, o' = (.var y, p) → s.Legible p (.var y) := by
    intro o o' hr
    induction hr using ReflTransGen.head_induction_on with
    | refl =>
      rintro own ⟨n, v, hv⟩ howner y p rfl
      by_cases hself : own = some (y, p)
      · exact howner y p hself
      · exact ⟨n, v, hv.outside hself (by simp)⟩
    | head hstep _ ih =>
      rintro own ⟨n, v, hv⟩ howner
      cases hstep with
      | @child t c q b hc =>
        have hvar : ∀ id, t ≠ .var id := by
          rintro id rfl
          cases hc
        cases n with
        | zero => exact hv.elim
        | succ n =>
          obtain ⟨t', hmapped, -⟩ := (reading_structural hvar).1 hv
          obtain ⟨cs, hcs, -⟩ := hmapped.exists_parts
          obtain ⟨c', -, hc'⟩ := exists_right_of_forall₂ hcs hc
          exact ih own ⟨n, c', hc'⟩ howner
      | @bound y b q hb =>
        obtain ⟨n, v, hv⟩ : s.Legible q (.var y) := by
          by_cases hself : own = some (y, q)
          · exact howner y q hself
          · exact ⟨n, v, hv.outside hself (by simp)⟩
        cases n with
        | zero => exact hv.elim
        | succ n =>
          obtain ⟨vs, hvs, -⟩ := (reading_var (by simp)).1 hv
          obtain ⟨w, -, hw⟩ := exists_right_of_forall₂ hvs hb
          refine ih (some (y, q)) ⟨n, w, hw⟩ fun z p heq => ?_
          obtain ⟨rfl, rfl⟩ := Prod.mk.inj (Option.some.inj heq)
          exact ⟨n + 1, v, hv⟩
  obtain ⟨n, v, hv⟩ := h
  exact hon _ _ hr none ⟨n, v, hv⟩ (by simp) x q' rfl

end Histories

/-- Two variables, each with the array of the other below it. -/
def mutualArrays : Checker :=
  (constrain .none 9 (.array (.var 0)) (.var 1) ⟨0, 0⟩
    (constrain .none 9 (.array (.var 1)) (.var 0) ⟨0, 0⟩ ((Checker.empty.allocate 0).allocate 0)).2).2

/-- One variable that is an array of itself: its own cycle is cut the same way whenever it is asked for. -/
def selfArray : Checker := (constrain .none 9 (.array (.var 0)) (.var 0) ⟨0, 0⟩ (Checker.empty.allocate 0)).2

end Blot.Typecheck
