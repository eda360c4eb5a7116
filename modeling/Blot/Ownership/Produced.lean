import Mathlib.Data.Finset.Basic
import Blot.Ast

/-!
# Ownership trees (`Produced` in `ownership.rs`)

What an expression owns, borrows or shares, as a tree over its parts.

* `Produced.children` — the parts of a tree, with the induction principle `Produced.ind` over them;
* `Produced.obligation`, `Produced.containsBorrow`, `Produced.containsShared` — what a tree owes, borrows and shares;
* `Produced.Keyed` — the maps of a tree have distinct keys.
-/

namespace Blot.Ownership

inductive Qualifier where
  | none
  | linear
  | affine
  | borrow
  deriving DecidableEq

inductive StoreAccess where
  | shared
  | unique
  deriving DecidableEq

/-- `Produced`; a map is the list of its entries. -/
inductive Produced where
  | none
  | borrow (value : Produced)
  | leaf (qualifier : Qualifier)
  | parameter (qualifier : Qualifier) (source : PatternId)
  | storeParameter (source : PatternId) (path : List String) (elementsShareable : Bool) (access : StoreAccess)
  | closure (captures : Produced) (parameter : PatternId) (result : Produced)
  | many (values : List Produced)
  | sequence (values : List Produced)
  | store (elements : Produced)
  | emptyStore
  | sharedStore
  | shape (fields : List (String × Produced))
  | variant (payload : Produced)
  | choice (cases : List (String × Produced))
  | pendingCallback (source : PatternId) (path : List String) (input : Produced)
  | region (qualifier : Qualifier) (root : Option PatternId) (splits : List (Span × ℕ)) (elements : Produced)
  | regionWitness (left right parent : Produced)
  | pendingJoin (witness left right : Produced)
  | pendingFreeze (region : Produced)
  | pendingScratchRecycle (source : Produced)
  | pendingReassociate (direction part : ℕ) (outer inner : Produced)

inductive Obligation where
  | none
  | affine
  | linear
  deriving DecidableEq

namespace Produced

/-! ### Parts -/

def children : Produced → List Produced
  | .borrow value => [value]
  | .closure captures _ result => [captures, result]
  | .many values | .sequence values => values
  | .store elements => [elements]
  | .shape fields | .choice fields => fields.map Prod.snd
  | .variant payload => [payload]
  | .pendingCallback _ _ input => [input]
  | .region _ _ _ elements => [elements]
  | .regionWitness left right parent => [left, right, parent]
  | .pendingJoin witness left right => [witness, left, right]
  | .pendingFreeze value => [value]
  | .pendingScratchRecycle source => [source]
  | .pendingReassociate _ _ outer inner => [outer, inner]
  | .none | .leaf _ | .parameter _ _ | .storeParameter _ _ _ _ | .emptyStore | .sharedStore => []

theorem sizeOf_lt_of_mem_fields {fields : List (String × Produced)} {c : Produced} (h : c ∈ fields.map Prod.snd) :
    sizeOf c < sizeOf fields := by
  obtain ⟨p, hp, rfl⟩ := List.mem_map.1 h
  have hlt := List.sizeOf_lt_of_mem hp
  have hpair : sizeOf p = 1 + sizeOf p.1 + sizeOf p.2 := by cases p; rfl
  omega

theorem sizeOf_child_lt {p c : Produced} (h : c ∈ p.children) : sizeOf c < sizeOf p := by
  cases p with
  | many values | sequence values =>
    have hlt := @List.sizeOf_lt_of_mem _ _ _ values h
    simp only [many.sizeOf_spec, sequence.sizeOf_spec]
    omega
  | shape fields | choice fields =>
    have hlt := @sizeOf_lt_of_mem_fields fields _ h
    simp only [shape.sizeOf_spec, choice.sizeOf_spec]
    omega
  | none | leaf _ | parameter _ _ | storeParameter _ _ _ _ | emptyStore | sharedStore =>
    exact absurd h List.not_mem_nil
  | _ =>
    simp only [children, List.mem_cons, List.not_mem_nil, or_false] at h
    rcases h with rfl | rfl | rfl <;> simp <;> omega

/-- **Induction on a tree**: a property that every tree inherits from its parts holds of every tree. -/
theorem ind {P : Produced → Prop} (h : ∀ p, (∀ c ∈ p.children, P c) → P p) (p : Produced) : P p :=
  h p fun c hc => have := sizeOf_child_lt hc; ind h c
termination_by sizeOf p

/-! ### Equality -/

mutual
/-- Equality of trees. -/
def beq : Produced → Produced → Bool
  | .none, .none => true
  | .borrow a, .borrow b => beq a b
  | .leaf q, .leaf r => q = r
  | .parameter q a, .parameter r b => q = r ∧ a = b
  | .storeParameter a p e x, .storeParameter b q f y => a = b ∧ p = q ∧ e = f ∧ x = y
  | .closure a p b, .closure c q d => beq a c && decide (p = q) && beq b d
  | .many as, .many bs => beqAll as bs
  | .sequence as, .sequence bs => beqAll as bs
  | .store a, .store b => beq a b
  | .emptyStore, .emptyStore => true
  | .sharedStore, .sharedStore => true
  | .shape fs, .shape gs => beqFields fs gs
  | .variant a, .variant b => beq a b
  | .choice fs, .choice gs => beqFields fs gs
  | .pendingCallback a p c, .pendingCallback b q d => decide (a = b) && decide (p = q) && beq c d
  | .region q a s c, .region r b t d => decide (q = r) && decide (a = b) && decide (s = t) && beq c d
  | .regionWitness a b c, .regionWitness d e f => beq a d && beq b e && beq c f
  | .pendingJoin a b c, .pendingJoin d e f => beq a d && beq b e && beq c f
  | .pendingFreeze a, .pendingFreeze b => beq a b
  | .pendingScratchRecycle a, .pendingScratchRecycle b => beq a b
  | .pendingReassociate d p a b, .pendingReassociate e q c f =>
    decide (d = e) && decide (p = q) && beq a c && beq b f
  | _, _ => false
termination_by structural p => p
def beqAll : List Produced → List Produced → Bool
  | [], [] => true
  | a :: as, b :: bs => beq a b && beqAll as bs
  | _, _ => false
termination_by structural ps => ps
def beqFields : List (String × Produced) → List (String × Produced) → Bool
  | [], [] => true
  | (n, a) :: fs, (m, b) :: gs => decide (n = m) && beq a b && beqFields fs gs
  | _, _ => false
termination_by structural fs => fs
end

theorem beqAll_iff {as : List Produced} (ih : ∀ c ∈ as, ∀ b, beq c b = true ↔ c = b) :
    ∀ bs, beqAll as bs = true ↔ as = bs := by
  induction as with
  | nil => intro bs; cases bs <;> simp [beqAll]
  | cons a as ihl =>
    intro bs
    rcases bs with _ | ⟨b, bs⟩
    · simp [beqAll]
    · simp [beqAll, ih a (by simp) b, ihl (fun c hc => ih c (List.mem_cons_of_mem _ hc)) bs]

theorem beqFields_iff {fs : List (String × Produced)} (ih : ∀ c ∈ fs.map Prod.snd, ∀ b, beq c b = true ↔ c = b) :
    ∀ gs, beqFields fs gs = true ↔ fs = gs := by
  induction fs with
  | nil => intro gs; cases gs <;> simp [beqFields]
  | cons p fs ihl =>
    intro gs
    obtain ⟨n, a⟩ := p
    rcases gs with _ | ⟨⟨m, b⟩, gs⟩
    · simp [beqFields]
    · simp [beqFields, ih a (by simp) b, ihl (fun c hc => ih c (List.mem_cons_of_mem _ hc)) gs]

theorem beq_iff (a b : Produced) : beq a b = true ↔ a = b := by
  induction a using ind generalizing b with
  | h a ih =>
    cases a with
    | many as =>
      cases b with
      | many bs =>
        have hall : beqAll as bs = true ↔ as = bs := beqAll_iff ih bs
        rw [beq, hall, many.injEq]
      | _ => exact iff_of_false Bool.false_ne_true nofun
    | sequence as =>
      cases b with
      | sequence bs =>
        have hall : beqAll as bs = true ↔ as = bs := beqAll_iff ih bs
        rw [beq, hall, sequence.injEq]
      | _ => exact iff_of_false Bool.false_ne_true nofun
    | shape fs =>
      cases b with
      | shape gs =>
        have hall : beqFields fs gs = true ↔ fs = gs := beqFields_iff ih gs
        rw [beq, hall, shape.injEq]
      | _ => exact iff_of_false Bool.false_ne_true nofun
    | choice fs =>
      cases b with
      | choice gs =>
        have hall : beqFields fs gs = true ↔ fs = gs := beqFields_iff ih gs
        rw [beq, hall, choice.injEq]
      | _ => exact iff_of_false Bool.false_ne_true nofun
    | _ =>
      cases b
      all_goals first
        | exact iff_of_false Bool.false_ne_true nofun
        | simp_all [beq, children, and_assoc]

instance : DecidableEq Produced := fun a b => decidable_of_iff _ (beq_iff a b)

end Produced

/-! ### Obligations -/

def mergeObligation (left right : Obligation) : Obligation :=
  if left = .linear ∨ right = .linear then .linear
  else if left = .affine ∨ right = .affine then .affine
  else .none

instance : LE Obligation := ⟨fun left right => mergeObligation left right = right⟩

instance (left right : Obligation) : Decidable (left ≤ right) :=
  inferInstanceAs (Decidable (mergeObligation left right = right))

def Qualifier.obligation : Qualifier → Obligation
  | .linear => .linear
  | .affine => .affine
  | .none | .borrow => .none

namespace Produced

mutual
def obligation : Produced → Obligation
  | .none | .sharedStore | .emptyStore | .borrow _ => .none
  | .leaf qualifier | .parameter qualifier _ => qualifier.obligation
  | .storeParameter _ _ _ _ => .affine
  | .store elements => mergeObligation .affine (obligation elements)
  | .region qualifier _ _ _ => qualifier.obligation
  | .closure captures _ _ => obligation captures
  | .variant payload => obligation payload
  | .choice cases => obligationOfFields cases
  | .many values | .sequence values => obligationOfAll values
  | .shape fields => obligationOfFields fields
  | .regionWitness _ _ _ | .pendingJoin _ _ _ | .pendingReassociate _ _ _ _ => .linear
  | .pendingCallback _ _ input => obligation input
  | .pendingFreeze _ => .none
  | .pendingScratchRecycle _ => .affine
def obligationOfAll : List Produced → Obligation
  | [] => .none
  | value :: rest => mergeObligation (obligation value) (obligationOfAll rest)
def obligationOfFields : List (String × Produced) → Obligation
  | [] => .none
  | (_, value) :: rest => mergeObligation (obligation value) (obligationOfFields rest)
end

/-! ### What a tree contains -/

mutual
/-- Some part that can be reached through the parts that are entered is one that is looked for. -/
def contains (here enters : Produced → Bool) (p : Produced) : Bool :=
  here p || enters p &&
    match p with
    | .borrow value => contains here enters value
    | .closure captures _ result => contains here enters captures || contains here enters result
    | .many values | .sequence values => containsAny here enters values
    | .store elements => contains here enters elements
    | .shape fields | .choice fields => containsField here enters fields
    | .variant payload => contains here enters payload
    | .pendingCallback _ _ input => contains here enters input
    | .region _ _ _ elements => contains here enters elements
    | .regionWitness left right parent =>
      contains here enters left || contains here enters right || contains here enters parent
    | .pendingJoin witness left right =>
      contains here enters witness || contains here enters left || contains here enters right
    | .pendingFreeze value => contains here enters value
    | .pendingScratchRecycle source => contains here enters source
    | .pendingReassociate _ _ outer inner => contains here enters outer || contains here enters inner
    | .none | .leaf _ | .parameter _ _ | .storeParameter _ _ _ _ | .emptyStore | .sharedStore => false
def containsAny (here enters : Produced → Bool) : List Produced → Bool
  | [] => false
  | value :: rest => contains here enters value || containsAny here enters rest
def containsField (here enters : Produced → Bool) : List (String × Produced) → Bool
  | [] => false
  | (_, value) :: rest => contains here enters value || containsField here enters rest
end

def isBorrow : Produced → Bool
  | .borrow _ => true
  | _ => false

/-- `contains_borrow`: what a Region, a witness or a pending operation holds is not looked at. -/
def containsBorrow : Produced → Bool :=
  contains isBorrow fun
    | .pendingCallback _ _ _ | .closure _ _ _ | .store _ | .many _ | .sequence _ | .shape _ | .variant _
    | .choice _ => true
    | _ => false

/-- `contains_shared`: what is borrowed is not looked at. -/
def containsShared : Produced → Bool := contains (· = .sharedStore) fun p => !isBorrow p

def containsEmptyStore : Produced → Bool := contains (· = .emptyStore) fun _ => true

def relevant (p : Produced) : Bool :=
  p.obligation ≠ .none || p.containsBorrow || p.containsShared || p.containsEmptyStore

/-! ### Distinct keys -/

def keys : Produced → List String
  | .shape fields | .choice fields => fields.map Prod.fst
  | _ => []

/-- **The maps of a tree have distinct keys.** -/
inductive Keyed : Produced → Prop where
  | intro {p : Produced} (hkeys : p.keys.Nodup) (hchildren : ∀ c ∈ p.children, Keyed c) : Keyed p

theorem Keyed.keys {p : Produced} (h : Keyed p) : p.keys.Nodup := by
  cases h with
  | intro hkeys _ => exact hkeys

theorem Keyed.child {p c : Produced} (h : Keyed p) (hc : c ∈ p.children) : Keyed c := by
  cases h with
  | intro _ hchildren => exact hchildren c hc

end Produced

/-! ### Lemmas -/

section Lemmas

variable {o left right : Obligation}

theorem Obligation.none_le (o : Obligation) : Obligation.none ≤ o := by cases o <;> decide

theorem Obligation.le_merge (h : o ≠ .none) : o ≤ mergeObligation left right ↔ o ≤ left ∨ o ≤ right := by
  cases o <;> cases left <;> cases right <;> first | exact absurd rfl h | decide

namespace Produced

variable {here enters : Produced → Bool}

theorem le_obligationOfAll (h : o ≠ .none) {values : List Produced} :
    o ≤ obligationOfAll values ↔ ∃ value ∈ values, o ≤ value.obligation := by
  induction values with
  | nil => exact iff_of_false (by cases o <;> first | exact absurd rfl h | decide) (by simp)
  | cons value rest ih => rw [obligationOfAll, Obligation.le_merge h, ih, List.exists_mem_cons_iff]

theorem le_obligationOfFields (h : o ≠ .none) {fields : List (String × Produced)} :
    o ≤ obligationOfFields fields ↔ ∃ value ∈ fields.map Prod.snd, o ≤ value.obligation := by
  induction fields with
  | nil => exact iff_of_false (by cases o <;> first | exact absurd rfl h | decide) (by simp)
  | cons field rest ih =>
    obtain ⟨name, value⟩ := field
    rw [obligationOfFields, Obligation.le_merge h, ih, List.map_cons, List.exists_mem_cons_iff]

theorem containsAny_iff {values : List Produced} :
    containsAny here enters values = true ↔ ∃ value ∈ values, contains here enters value = true := by
  induction values with
  | nil => simp [containsAny]
  | cons value rest ih => rw [containsAny, Bool.or_eq_true_iff, ih, List.exists_mem_cons_iff]

theorem containsField_iff {fields : List (String × Produced)} :
    containsField here enters fields = true ↔
      ∃ value ∈ fields.map Prod.snd, contains here enters value = true := by
  induction fields with
  | nil => simp [containsField]
  | cons field rest ih =>
    obtain ⟨name, value⟩ := field
    rw [containsField, Bool.or_eq_true_iff, ih, List.map_cons, List.exists_mem_cons_iff]

/-- **What a tree contains** is there, or in a part of a tree that is entered. -/
theorem contains_iff {p : Produced} :
    contains here enters p = true ↔
      here p = true ∨ enters p = true ∧ ∃ c ∈ p.children, contains here enters c = true := by
  cases p <;> rw [contains] <;>
    simp [children, containsAny_iff, containsField_iff, or_assoc]

end Produced

end Lemmas

end Blot.Ownership
