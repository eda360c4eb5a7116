import Blot.Support.Conditions
import Blot.Typecheck.Alpha
import Blot.Typecheck.Declarative
import Blot.Typecheck.SameType
import Blot.Typecheck.Unions

/-!
# The comparisons of types in the source (`typecheck.rs`)

The source compares types in three places: `ConstraintTypeArena::same`, `same_type` and `same_closed_type`.  They have
one shape: constructor by constructor, a field of the left looked up in the right row, a member of the left union
searched in the right one, each test only where those before it held.  They differ in their `Manner`: how a row is
looked up, which pairs they have no branch for, and which they take for equal at once, identical types or parts at one
address.

`Manner.rules` is that shape as conditions over smaller questions.  A question that a comparison comes to is fair when
its rule, with right answers below, agrees with equality of types.  `comparisons_eq_alpha` says that fair questions are
what right answers take, and `Manner.fair_of_regular` that on regular types only the pairs taken for equal at once and
the missing branches can be unfair.
-/

namespace Blot.Typecheck

open Blot.Support

/-! ### Names under binders -/

/-- Where no name is bound twice on the left, the two rigids are compared as their binders ask. -/
theorem sameRigid_iff {pairs : List (ℕ × ℕ)} (hnodup : (pairs.map Prod.fst).Nodup) {l r : ℕ} :
    Ty.sameRigid pairs l r = true ↔ Corresponds pairs l r := by
  induction pairs with
  | nil => simp [Ty.sameRigid, Ty.boundLeft, Corresponds]
  | cons p pairs ih =>
    obtain ⟨x, y⟩ := p
    rw [List.map_cons, List.nodup_cons] at hnodup
    have ih := ih hnodup.2
    unfold Corresponds
    unfold Ty.sameRigid Ty.boundLeft at ih ⊢
    by_cases hy : y = r
    · subst hy
      rw [List.find?_cons_of_pos (by simp)]
      simp [eq_comm]
    · rw [List.find?_cons_of_neg (by simpa using hy)]
      by_cases hx : l = x
      · -- The left name is bound here, and no outer pair binds it.
        subst hx
        have hne : ∀ p ∈ pairs, p.1 ≠ l := fun p hp heq => hnodup.1 (List.mem_map.2 ⟨p, hp, heq⟩)
        refine iff_of_false ?_ (by simp [Ne.symm hy])
        cases hfind : pairs.find? fun p => decide (p.2 = r) with
        | none => simp
        | some q => simpa using hne q (List.mem_of_find?_eq_some hfind)
      · have hcons : (((x, y) :: pairs).any fun p => decide (p.1 = l ∨ p.2 = r)) =
            pairs.any fun p => decide (p.1 = l ∨ p.2 = r) := by
          rw [List.any_cons, decide_eq_false (by simp [Ne.symm hx, hy]), Bool.false_or]
        rw [hcons, ih]
        simp [hx, Ne.symm hy]

/-- A binder of the type binds a name that is bound around it, `bound` the names bound outside, innermost first. -/
inductive Ty.Shadows : List ℕ → Ty → Prop
  | here {bound vs : List ℕ} {body : Ty} (h : ¬ (vs.reverse ++ bound).Nodup) : Shadows bound (.forallType vs body)
  | body {bound vs : List ℕ} {body : Ty} (h : Shadows (vs.reverse ++ bound) body) : Shadows bound (.forallType vs body)
  | child {bound : List ℕ} {t c : Ty} (hc : c ∈ t.children) (hplain : ∀ vs body, t ≠ .forallType vs body)
      (h : Shadows bound c) : Shadows bound t

theorem map_fst_bindPairs {vs ws : List ℕ} (hlen : vs.length = ws.length) (pairs : List (ℕ × ℕ)) :
    (bindPairs vs ws pairs).map Prod.fst = vs.reverse ++ pairs.map Prod.fst := by
  unfold bindPairs
  rw [List.map_append, List.map_reverse, List.map_fst_zip hlen.le]

/-! ### Regular types -/

def Ty.MembersApart (t : Ty) : Prop := t.members.Pairwise fun m n => ¬ Alpha [] m n

/-- Two types as the checker builds them: binders are not bound again below themselves, rows name a field once, and
unions repeat no member. -/
structure Regular (pairs : List (ℕ × ℕ)) (a b : Ty) : Prop where
  bound : (pairs.map Prod.fst).Nodup
  unshadowed : ¬ a.Shadows (pairs.map Prod.fst)
  names : a.DistinctNames
  left : a.Hereditarily Ty.MembersApart
  right : b.Hereditarily Ty.MembersApart

section Regular

variable {pairs : List (ℕ × ℕ)} {a b x y : Ty}

theorem Beside.not_forall (h : Beside a b x y) (vs : List ℕ) (body : Ty) : a ≠ .forallType vs body := by
  cases h <;> nofun

theorem Regular.beside (h : Regular pairs a b) (hxy : Beside a b x y) : Regular pairs x y where
  bound := h.bound
  unshadowed hx := h.unshadowed (.child hxy.mem_left hxy.not_forall hx)
  names := h.names.child hxy.mem_left
  left := h.left.child hxy.mem_left
  right := h.right.child hxy.mem_right

theorem Regular.body {vs ws : List ℕ} (h : Regular pairs (.forallType vs x) (.forallType ws y))
    (hlen : vs.length = ws.length) : Regular (bindPairs vs ws pairs) x y where
  bound := by
    rw [map_fst_bindPairs hlen]
    by_contra hdup
    exact h.unshadowed (.here hdup)
  unshadowed := by
    rw [map_fst_bindPairs hlen]
    exact fun hx => h.unshadowed (.body hx)
  names := h.names.child (List.mem_singleton_self x)
  left := h.left.child (List.mem_singleton_self x)
  right := h.right.child (List.mem_singleton_self y)

/-- The members of equal unions, compared from the left: no two of them share a partner. -/
theorem Regular.left_apart (h : Regular pairs a b) :
    a.members.Pairwise fun m m' => ¬ Share (Alpha pairs) m m' := by
  refine h.left.here.imp ?_
  rintro m m' hne ⟨n, hm, hm'⟩
  exact hne (alpha_of_common hm hm')

theorem Regular.right_apart (h : Regular pairs a b) :
    b.members.Pairwise fun n n' => ¬ Share (fun n m => Alpha pairs m n) n n' := by
  refine h.right.here.imp ?_
  rintro n n' hne ⟨m, hn, hn'⟩
  exact hne (alpha_of_common hn.symm hn'.symm)

theorem Regular.members_length (h : Regular pairs a b) (hsame : SameMembers (Alpha pairs) a.members b.members) :
    a.members.length = b.members.length := by
  have hle := hsame.1.length_le h.left_apart
  have hback : Covers (fun n m => Alpha pairs m n) b.members a.members := hsame.2
  exact Nat.le_antisymm hle (hback.length_le h.right_apart)

theorem Regular.row_names (h : Regular pairs a b) : (a.row.map Prod.fst).Nodup := by
  have hnames := h.names.here
  cases a with
  | record fs => exact hnames
  | recordUpdate base fs => exact hnames
  | variant fs isOpen => exact hnames
  | _ => exact List.nodup_nil

end Regular

/-! ### The shape of a comparison -/

/-- The layer of a comparison of the source, with what is done at the children as a parameter. -/
def comparedBelow (get : List (String × Ty) → String → Option Ty) (R : List (ℕ × ℕ) → Ty → Ty → Prop)
    (pairs : List (ℕ × ℕ)) : Comparison where
  rigid l r := Ty.sameRigid pairs l r = true
  bind vs ws := R (bindPairs vs ws pairs)
  child := R pairs
  row fs gs := fs.length = gs.length ∧ ∀ f ∈ fs, ∃ t, get gs f.1 = some t ∧ R pairs f.2 t
  members ms ns := ms.length = ns.length ∧ Covers (R pairs) ms ns

/-! ### The questions of a comparison -/

/-- Whether two types are equal under binder pairs; at an `edge` the source has two pointers in hand. -/
structure Question where
  edge : Bool
  pairs : List (ℕ × ℕ)
  left : Ty
  right : Ty

def Question.Equal (q : Question) : Prop := Alpha q.pairs q.left q.right

/-- What tells the comparisons apart. -/
structure Manner where
  get : List (String × Ty) → String → Option Ty
  branch : Ty → Bool
  shortcut : Bool → Ty → Ty → Bool
  mem_of_get : ∀ {gs name t}, get gs name = some t → (name, t) ∈ gs
  get_of_mem : ∀ {gs name t}, (gs.map Prod.fst).Nodup → (name, t) ∈ gs → get gs name = some t
  eq_of_shortcut : ∀ {edge a b}, shortcut edge a b = true → a = b

namespace Manner

open Condition

variable (m : Manner) (pairs : List (ℕ × ℕ))

def fieldStep (gs : List (String × Ty)) (f : String × Ty) : Condition Question :=
  match m.get gs f.1 with
  | some t => ask ⟨false, pairs, f.2, t⟩
  | none => test false

def rowSteps (fs gs : List (String × Ty)) : Condition Question :=
  both (test (decide (fs.length = gs.length))) (all (fs.map (m.fieldStep pairs gs)))

def memberSteps (ms ns : List Ty) : Condition Question :=
  both (test (decide (ms.length = ns.length))) (all (ms.map fun t => any (ns.map fun u => ask ⟨false, pairs, t, u⟩)))

def requirementStep (r q : MemberRequirement Ty) : Condition Question :=
  both (test (decide (r.name = q.name)))
    (both (ask ⟨false, pairs, r.subject, q.subject⟩) (ask ⟨false, pairs, r.member, q.member⟩))

/-- What is tested and asked at a pair of constructors, in turn. -/
def steps : Ty → Ty → Condition Question
  | .qualified rs a, .qualified qs b =>
    both (test (decide (rs.length = qs.length)))
      (both (ask ⟨false, pairs, a, b⟩) (all (List.zipWith (requirementStep pairs) rs qs)))
  | .var x, .var y => test (decide (x = y))
  | .rigid l, .rigid r => test (Ty.sameRigid pairs l r)
  | .forallType vs a, .forallType ws b =>
    both (test (decide (vs.length = ws.length))) (ask ⟨true, bindPairs vs ws pairs, a, b⟩)
  | .range d l h, .range d' l' h' => test (decide (d = d') && decide (l = l') && decide (h = h'))
  | .unit, .unit => test true
  | .function d p e r, .function d' p' e' r' =>
    both (test (decide (d = d'))) (both (ask ⟨true, pairs, p, p'⟩)
      (both (ask ⟨true, pairs, e, e'⟩) (ask ⟨true, pairs, r, r'⟩)))
  | .record fs, .record gs => m.rowSteps pairs fs gs
  | .recordUpdate a fs, .recordUpdate b gs => both (ask ⟨false, pairs, a, b⟩) (m.rowSteps pairs fs gs)
  | .array a, .array b => ask ⟨true, pairs, a, b⟩
  | .region a, .region b => ask ⟨true, pairs, a, b⟩
  | .scratch a, .scratch b => ask ⟨true, pairs, a, b⟩
  | .resource f a, .resource g b => both (test (decide (f = g))) (ask ⟨true, pairs, a, b⟩)
  | .variant fs o, .variant gs o' => both (test (decide (o = o'))) (m.rowSteps pairs fs gs)
  | .effects a, .effects b => test (decide (a = b))
  | .openEffects l a, .openEffects k b => both (test (decide (l = k))) (ask ⟨true, pairs, a, b⟩)
  | .union ms, .union ns => memberSteps pairs ms ns
  | .opaqueType a, .opaqueType b => test (decide (a = b))
  | .top, .top => test true
  | .bottom, .bottom => test true
  | _, _ => test false

/-- How a question is answered. -/
def rules (q : Question) : Condition Question :=
  if m.shortcut q.edge q.left q.right then test true
  else if m.branch q.left then m.steps q.pairs q.left q.right
  else test false

variable {m pairs} {answer : Question → Prop}

theorem holds_rowSteps {fs gs : List (String × Ty)} : (m.rowSteps pairs fs gs).Holds answer ↔
    fs.length = gs.length ∧ ∀ f ∈ fs, ∃ t, m.get gs f.1 = some t ∧ answer ⟨false, pairs, f.2, t⟩ := by
  rw [rowSteps, holds_both, holds_test, decide_eq_true_iff, holds_all, List.forall_mem_map]
  refine and_congr_right fun _ => forall₂_congr fun f _ => ?_
  unfold fieldStep
  cases m.get gs f.1 <;> simp

theorem holds_memberSteps {ms ns : List Ty} : (memberSteps pairs ms ns).Holds answer ↔
    ms.length = ns.length ∧ Covers (fun t u => answer ⟨false, pairs, t, u⟩) ms ns := by
  simp [memberSteps, Covers]

theorem holds_requirementSteps {rs qs : List (MemberRequirement Ty)} (hlen : rs.length = qs.length) :
    (all (List.zipWith (requirementStep pairs) rs qs)).Holds answer ↔
      List.Forall₂ (SameRequirement fun x y => answer ⟨false, pairs, x, y⟩) rs qs := by
  induction rs generalizing qs with
  | nil =>
    obtain rfl := List.eq_nil_of_length_eq_zero hlen.symm
    simp
  | cons r rs ih =>
    cases qs with
    | nil => exact absurd hlen (Nat.succ_ne_zero _)
    | cons q qs =>
      rw [List.forall₂_cons, ← ih (Nat.succ.inj hlen)]
      simp [requirementStep, SameRequirement]

/-- The steps at a pair of constructors are one layer. -/
theorem holds_steps {R : List (ℕ × ℕ) → Ty → Ty → Prop} {a b : Ty} :
    (m.steps pairs a b).Holds (fun q => R q.pairs q.left q.right) ↔ Layer (comparedBelow m.get R pairs) a b := by
  constructor
  · intro h
    unfold steps at h
    split at h
    case h_1 rs a qs b =>
      simp only [holds_both, holds_test, decide_eq_true_iff] at h
      exact ⟨(holds_requirementSteps h.1).1 h.2.2, h.2.1⟩
    all_goals first
      | exact absurd h Bool.false_ne_true
      | exact True.intro
      | simpa [Layer, comparedBelow, holds_rowSteps, holds_memberSteps, and_assoc] using h
  · intro h
    unfold Layer at h
    split at h
    case h_4 rs a qs b =>
      have hlen := h.1.length_eq
      exact ⟨decide_eq_true hlen, h.2, (holds_requirementSteps hlen).2 h.1⟩
    all_goals first
      | exact h.elim
      | exact rfl
      | simpa [steps, comparedBelow, holds_rowSteps, holds_memberSteps, and_assoc] using h

theorem holds_rules_shortcut {edge : Bool} {a b : Ty} (h : m.shortcut edge a b = true) :
    (m.rules ⟨edge, pairs, a, b⟩).Holds answer := by
  unfold rules
  rw [if_pos h]
  exact rfl

theorem holds_rules {edge : Bool} {a b : Ty} (h : m.shortcut edge a b = false) :
    (m.rules ⟨edge, pairs, a, b⟩).Holds answer ↔ m.branch a = true ∧ (m.steps pairs a b).Holds answer := by
  have hshortcut : ¬ m.shortcut edge a b = true := by simp [h]
  unfold rules
  rw [if_neg hshortcut]
  split
  case isTrue hbranch => exact (and_iff_right hbranch).symm
  case isFalse hbranch => exact iff_of_false Bool.false_ne_true fun h => hbranch h.1

/-- A question that another one comes to is about parts that stand beside each other, or about two bodies. -/
def Below (p q : Question) : Prop :=
  (q.pairs = p.pairs ∧ Beside p.left p.right q.left q.right) ∨
    ∃ vs ws, vs.length = ws.length ∧ p.left = .forallType vs q.left ∧ p.right = .forallType ws q.right ∧
      q.pairs = bindPairs vs ws p.pairs

theorem asks_rowSteps {fs gs : List (String × Ty)} {q : Question}
    (h : (m.rowSteps pairs fs gs).Asks answer q) :
    q.pairs = pairs ∧ ∃ f ∈ fs, ∃ g ∈ gs, f.1 = g.1 ∧ q.left = f.2 ∧ q.right = g.2 := by
  rcases h with h | ⟨-, h⟩
  · exact h.elim
  obtain ⟨c, hc, h⟩ := h.of_all
  obtain ⟨f, hf, rfl⟩ := List.mem_map.1 hc
  unfold fieldStep at h
  cases hget : m.get gs f.1 with
  | none =>
    rw [hget] at h
    exact h.elim
  | some t =>
    rw [hget] at h
    obtain rfl : q = ⟨false, pairs, f.2, t⟩ := h
    exact ⟨rfl, f, hf, (f.1, t), m.mem_of_get hget, rfl, rfl, rfl⟩

theorem asks_memberSteps {ms ns : List Ty} {q : Question} (h : (memberSteps pairs ms ns).Asks answer q) :
    q.pairs = pairs ∧ q.left ∈ ms ∧ q.right ∈ ns := by
  rcases h with h | ⟨-, h⟩
  · exact h.elim
  obtain ⟨c, hc, h⟩ := h.of_all
  obtain ⟨t, ht, rfl⟩ := List.mem_map.1 hc
  obtain ⟨c, hc, h⟩ := h.of_any
  obtain ⟨u, hu, rfl⟩ := List.mem_map.1 hc
  obtain rfl : q = ⟨false, pairs, t, u⟩ := h
  exact ⟨rfl, ht, hu⟩

theorem asks_requirementSteps {rs qs : List (MemberRequirement Ty)} {a b : Ty} {q : Question}
    (h : (all (List.zipWith (requirementStep pairs) rs qs)).Asks answer q) :
    q.pairs = pairs ∧ Beside (.qualified rs a) (.qualified qs b) q.left q.right := by
  obtain ⟨c, hc, h⟩ := h.of_all
  obtain ⟨i, hi, rfl⟩ := List.mem_iff_getElem.1 hc
  rw [List.length_zipWith] at hi
  have hr : rs[i]? = some rs[i] := List.getElem?_eq_getElem (by omega)
  have hq : qs[i]? = some qs[i] := List.getElem?_eq_getElem (by omega)
  rw [List.getElem_zipWith] at h
  rcases h with h | ⟨-, h | ⟨-, h⟩⟩
  · exact h.elim
  · obtain rfl : q = ⟨false, pairs, rs[i].subject, qs[i].subject⟩ := h
    exact ⟨rfl, .subject hr hq⟩
  · obtain rfl : q = ⟨false, pairs, rs[i].member, qs[i].member⟩ := h
    exact ⟨rfl, .member hr hq⟩

/-- **What a question comes to.** -/
theorem asks_rules {p q : Question} (h : (m.rules p).Asks answer q) : Below p q := by
  obtain ⟨edge, pairs, a, b⟩ := p
  have h : (m.steps pairs a b).Asks answer q := by
    unfold rules at h
    split at h
    · exact h.elim
    · split at h
      · exact h
      · exact h.elim
  unfold steps at h
  split at h
  case h_1 =>
    rcases h with h | ⟨-, h | ⟨-, h⟩⟩
    · exact h.elim
    · obtain rfl : q = _ := h
      exact .inl ⟨rfl, .body⟩
    · exact .inl (asks_requirementSteps h)
  case h_4 =>
    rcases h with h | ⟨hlen, h⟩
    · exact h.elim
    · obtain rfl : q = _ := h
      exact .inr ⟨_, _, of_decide_eq_true hlen, rfl, rfl, rfl⟩
  case h_7 =>
    rcases h with h | ⟨-, h | ⟨-, h | ⟨-, h⟩⟩⟩
    · exact h.elim
    · obtain rfl : q = _ := h
      exact .inl ⟨rfl, .parameter⟩
    · obtain rfl : q = _ := h
      exact .inl ⟨rfl, .performed⟩
    · obtain rfl : q = _ := h
      exact .inl ⟨rfl, .result⟩
  case h_8 =>
    obtain ⟨hpairs, f, hf, g, hg, hname, hl, hr⟩ := asks_rowSteps h
    exact .inl ⟨hpairs, hl ▸ hr ▸ .field hf hg hname⟩
  case h_9 =>
    rcases h with h | ⟨-, h⟩
    · obtain rfl : q = _ := h
      exact .inl ⟨rfl, .base⟩
    · obtain ⟨hpairs, f, hf, g, hg, hname, hl, hr⟩ := asks_rowSteps h
      exact .inl ⟨hpairs, hl ▸ hr ▸ .updated hf hg hname⟩
  case h_10 =>
    obtain rfl : q = _ := h
    exact .inl ⟨rfl, .element⟩
  case h_11 =>
    obtain rfl : q = _ := h
    exact .inl ⟨rfl, .region⟩
  case h_12 =>
    obtain rfl : q = _ := h
    exact .inl ⟨rfl, .scratch⟩
  case h_13 =>
    rcases h with h | ⟨-, h⟩
    · exact h.elim
    · obtain rfl : q = _ := h
      exact .inl ⟨rfl, .payload⟩
  case h_14 =>
    rcases h with h | ⟨-, h⟩
    · exact h.elim
    · obtain ⟨hpairs, f, hf, g, hg, hname, hl, hr⟩ := asks_rowSteps h
      exact .inl ⟨hpairs, hl ▸ hr ▸ .variantCase hf hg hname⟩
  case h_16 =>
    rcases h with h | ⟨-, h⟩
    · exact h.elim
    · obtain rfl : q = _ := h
      exact .inl ⟨rfl, .tail⟩
  case h_17 =>
    obtain ⟨hpairs, hl, hr⟩ := asks_memberSteps h
    exact .inl ⟨hpairs, .unionMember hl hr⟩
  all_goals exact h.elim

theorem sizeOf_asks_lt {p q : Question} (h : (m.rules p).Asks answer q) : sizeOf q.left < sizeOf p.left := by
  rcases asks_rules h with ⟨-, hbeside⟩ | ⟨vs, ws, -, hl, -, -⟩
  · exact Ty.sizeOf_child_lt hbeside.mem_left
  · exact Ty.sizeOf_child_lt (hl ▸ List.mem_singleton_self q.left)

/-! ### Fair questions on regular types -/

theorem regular_asks {p q : Question} (hp : Regular p.pairs p.left p.right) (h : (m.rules p).Asks answer q) :
    Regular q.pairs q.left q.right := by
  rcases asks_rules h with ⟨hpairs, hbeside⟩ | ⟨vs, ws, hlen, hl, hr, hpairs⟩
  · exact hpairs ▸ hp.beside hbeside
  · rw [hl, hr] at hp
    exact hpairs ▸ hp.body hlen

/-- On regular types what a layer asks of the row and of the members is what equality asks. -/
theorem layer_iff_alpha {a b : Ty} (h : Regular pairs a b) :
    Layer (comparedBelow m.get Alpha pairs) a b ↔ Alpha pairs a b := by
  rw [alpha_iff]
  constructor
  · intro hlayer
    refine hlayer.mono (fun l r hlr => (sameRigid_iff h.bound).1 hlr) (fun _ _ _ _ _ _ _ h => h) (fun _ _ _ h => h) ?_ ?_
    · rintro ⟨hlen, hrow⟩
      refine sameRow_of_covers (fun f hf => ?_) hlen h.row_names
      obtain ⟨t, ht, hft⟩ := hrow f hf
      exact ⟨(f.1, t), m.mem_of_get ht, rfl, hft⟩
    · rintro ⟨hlen, hcovers⟩
      exact sameMembers_of_covers hcovers hlen h.left_apart
  · intro hab
    refine hab.mono (fun l r hlr => (sameRigid_iff h.bound).2 hlr) (fun _ _ _ _ _ _ _ h => h) (fun _ _ _ h => h) ?_ ?_
    · intro (hrow : SameRow (Alpha pairs) a.row b.row)
      refine ⟨hrow.length_eq, fun f hf => ?_⟩
      obtain ⟨g, hg, hname, hfg⟩ := hrow.covers f hf
      exact ⟨g.2, m.get_of_mem (hrow.names_nodup h.row_names) (hname ▸ hg), hfg⟩
    · intro (hmembers : SameMembers (Alpha pairs) a.members b.members)
      exact ⟨h.members_length hmembers, hmembers.1⟩

/-- **On regular types** a question is fair unless it is taken for equal at once, or has no branch, against its
meaning. -/
theorem fair_of_regular {q : Question} (h : Regular q.pairs q.left q.right)
    (hshortcut : m.shortcut q.edge q.left q.right = true → q.Equal) (hbranch : m.branch q.left = false → ¬ q.Equal) :
    Fair m.rules Question.Equal q := by
  unfold Fair rules
  split
  case isTrue hs => exact iff_of_true rfl (hshortcut hs)
  case isFalse =>
    split
    case isTrue => exact holds_steps.trans (layer_iff_alpha h)
    case isFalse hb => exact iff_of_false Bool.false_ne_true (hbranch (Bool.eq_false_of_not_eq_true hb))

end Manner

/-! ### The three comparisons -/

theorem sameRequirements_iff {rigids : List (ℕ × ℕ)} {rs qs : List (MemberRequirement Ty)}
    (hlen : rs.length = qs.length) : Ty.sameRequirements rigids rs qs = true ↔
      List.Forall₂ (SameRequirement fun x y => Ty.sameWithRigids rigids x y = true) rs qs := by
  induction rs generalizing qs with
  | nil =>
    obtain rfl := List.eq_nil_of_length_eq_zero hlen.symm
    simp [Ty.sameRequirements]
  | cons r rs ih =>
    cases qs with
    | nil => exact absurd hlen (Nat.succ_ne_zero _)
    | cons q qs =>
      rw [Ty.sameRequirements, List.forall₂_cons, ← ih (Nat.succ.inj hlen)]
      simp [SameRequirement, and_assoc]

theorem samePlainRequirements_iff {rigids : List (ℕ × ℕ)} {rs qs : List (MemberRequirement Ty)}
    (hlen : rs.length = qs.length) : samePlainRequirements rigids rs qs = true ↔
      List.Forall₂ (SameRequirement fun x y => samePlain rigids x y = true) rs qs := by
  induction rs generalizing qs with
  | nil =>
    obtain rfl := List.eq_nil_of_length_eq_zero hlen.symm
    simp [samePlainRequirements]
  | cons r rs ih =>
    cases qs with
    | nil => exact absurd hlen (Nat.succ_ne_zero _)
    | cons q qs =>
      rw [samePlainRequirements, List.forall₂_cons, ← ih (Nat.succ.inj hlen)]
      simp [SameRequirement, and_assoc]

theorem sameMembers_iff {rigids : List (ℕ × ℕ)} {ms ns : List Ty} :
    Ty.sameMembers rigids ms ns = true ↔ Covers (fun m n => Ty.sameWithRigids rigids m n = true) ms ns := by
  induction ms with
  | nil => simp [Ty.sameMembers, Covers]
  | cons m ms ih => simp [Ty.sameMembers, Covers, ih]

theorem samePlainMembers_iff {rigids : List (ℕ × ℕ)} {ms ns : List Ty} :
    samePlainMembers rigids ms ns = true ↔ Covers (fun m n => samePlain rigids m n = true) ms ns := by
  induction ms with
  | nil => simp [samePlainMembers, Covers]
  | cons m ms ih => simp [samePlainMembers, Covers, ih]

theorem sameClosedMembers_iff {σ : Ty.Sharing} {rigids : List (ℕ × ℕ)} {ms ns : List Ty} :
    Ty.sameClosedMembers σ rigids ms ns = true ↔ Covers (fun m n => Ty.sameClosedUnder σ rigids m n = true) ms ns := by
  induction ms with
  | nil => simp [Ty.sameClosedMembers, Covers]
  | cons m ms ih => simp [Ty.sameClosedMembers, Covers, ih]

/-- A row as a map by name: the last entry of a name counts. -/
def lastGet (fields : List (String × Ty)) (name : String) : Option Ty := fields.reverse.lookup name

theorem samePlainFields_iff {rigids : List (ℕ × ℕ)} {fs gs : List (String × Ty)} :
    samePlainFields rigids fs gs = true ↔
      ∀ f ∈ fs, ∃ t, lastGet gs f.1 = some t ∧ samePlain rigids f.2 t = true := by
  induction fs with
  | nil => simp [samePlainFields]
  | cons f fs ih =>
    obtain ⟨name, t⟩ := f
    rw [samePlainFields, List.forall_mem_cons, ← ih]
    unfold lastGet
    cases gs.reverse.lookup name <;> simp

theorem sameClosedFields_iff {σ : Ty.Sharing} {rigids : List (ℕ × ℕ)} {fs gs : List (String × Ty)} :
    Ty.sameClosedFields σ rigids fs gs = true ↔
      ∀ f ∈ fs, ∃ t, lastGet gs f.1 = some t ∧ Ty.sameClosedUnder σ rigids f.2 t = true := by
  induction fs with
  | nil => simp [Ty.sameClosedFields]
  | cons f fs ih =>
    obtain ⟨name, t⟩ := f
    rw [Ty.sameClosedFields, List.forall_mem_cons, ← ih]
    unfold lastGet
    cases gs.reverse.lookup name <;> simp

theorem mem_of_lastGet {gs : List (String × Ty)} {name : String} {t : Ty} (h : lastGet gs name = some t) :
    (name, t) ∈ gs := List.mem_reverse.1 (Table.mem_of_lookup h)

theorem lastGet_of_mem {gs : List (String × Ty)} {name : String} {t : Ty} (hnodup : (gs.map Prod.fst).Nodup)
    (h : (name, t) ∈ gs) : lastGet gs name = some t := by
  have hreverse : (gs.reverse.map Prod.fst).Nodup := by
    rw [List.map_reverse]
    exact List.nodup_reverse.2 hnodup
  exact rowGet_of_mem hreverse (List.mem_reverse.2 h)

/-! ### The three manners -/

def Ty.isRecordUpdate : Ty → Bool
  | .recordUpdate _ _ => true
  | _ => false

def Ty.isQualified : Ty → Bool
  | .qualified _ _ => true
  | _ => false

/-- The pairs that `same_closed_type` takes for equal at once. -/
def Ty.Sharing.taken (σ : Ty.Sharing) (edge : Bool) (a b : Ty) : Bool :=
  edge && σ.edge a b ||
    match a, b with
    | .record fs, .record gs => σ.row fs gs
    | .variant fs o, .variant gs o' => decide (o = o') && σ.row fs gs
    | .union ms, .union ns => σ.list ms ns
    | _, _ => false

theorem Ty.Sharing.eq_of_taken {σ : Ty.Sharing} {edge : Bool} {a b : Ty} (h : σ.taken edge a b = true) : a = b := by
  unfold Ty.Sharing.taken at h
  rcases Bool.or_eq_true_iff.1 h with h | h
  · exact σ.eq_of_edge (Bool.and_eq_true_iff.1 h).2
  · split at h
    · exact congrArg _ (σ.eq_of_row h)
    · obtain ⟨ho, hrow⟩ := Bool.and_eq_true_iff.1 h
      rw [of_decide_eq_true ho, σ.eq_of_row hrow]
    · exact congrArg _ (σ.eq_of_list h)
    · exact absurd h Bool.false_ne_true

namespace Manner

/-- `ConstraintTypeArena::same` -/
def same : Manner where
  get := rowGet
  branch _ := true
  shortcut _ a b := decide (a = b)
  mem_of_get h := Table.mem_of_lookup h
  get_of_mem hnodup h := rowGet_of_mem hnodup h
  eq_of_shortcut := of_decide_eq_true

/-- `same_type` has no branch for record updates. -/
def sameType : Manner where
  get := lastGet
  branch a := !a.isRecordUpdate
  shortcut _ _ _ := false
  mem_of_get h := mem_of_lastGet h
  get_of_mem hnodup h := lastGet_of_mem hnodup h
  eq_of_shortcut h := absurd h Bool.false_ne_true

/-- `same_closed_type` has no branch for record updates and qualified types. -/
def sameClosed (σ : Ty.Sharing) : Manner where
  get := lastGet
  branch a := !(a.isRecordUpdate || a.isQualified)
  shortcut := σ.taken
  mem_of_get h := mem_of_lastGet h
  get_of_mem hnodup h := lastGet_of_mem hnodup h
  eq_of_shortcut := Ty.Sharing.eq_of_taken

/-- **`same` answers as its rules ask.** -/
theorem same_answers (q : Question) : Ty.sameWithRigids q.pairs q.left q.right = true ↔
    (same.rules q).Holds fun q => Ty.sameWithRigids q.pairs q.left q.right = true := by
  obtain ⟨edge, pairs, a, b⟩ := q
  change Ty.sameWithRigids pairs a b = true ↔ _
  by_cases hab : a = b
  · refine iff_of_true ?_ (holds_rules_shortcut (decide_eq_true hab))
    unfold Ty.sameWithRigids
    exact if_pos hab
  rw [holds_rules (decide_eq_false hab), holds_steps (R := fun ps x y => Ty.sameWithRigids ps x y = true),
    and_iff_right (show same.branch a = true from rfl)]
  constructor
  · intro h
    unfold Ty.sameWithRigids at h
    rw [if_neg hab] at h
    split at h
    case h_1 rs s qs t =>
      rw [Bool.and_eq_true, Bool.and_eq_true, decide_eq_true_iff] at h
      exact ⟨(sameRequirements_iff h.1.1).1 h.2, h.1.2⟩
    all_goals first
      | exact absurd h Bool.false_ne_true
      | exact True.intro
      | simpa [comparedBelow, same, sameFields_iff, sameMembers_iff, bindPairs, Layer, and_assoc] using h
  · intro h
    unfold Ty.sameWithRigids
    rw [if_neg hab]
    unfold Layer at h
    split at h
    case h_4 rs s qs t =>
      have hlen := h.1.length_eq
      simpa [comparedBelow, sameRequirements_iff hlen, hlen] using h.symm
    all_goals first
      | exact h.elim
      | rfl
      | simpa [comparedBelow, same, sameFields_iff, sameMembers_iff, bindPairs, and_assoc] using h

/-- **`same_type` answers as its rules ask.** -/
theorem samePlain_answers (q : Question) : samePlain q.pairs q.left q.right = true ↔
    (sameType.rules q).Holds fun q => samePlain q.pairs q.left q.right = true := by
  obtain ⟨edge, pairs, a, b⟩ := q
  change samePlain pairs a b = true ↔ _
  rw [holds_rules rfl, holds_steps (R := fun ps x y => samePlain ps x y = true)]
  constructor
  · intro h
    unfold samePlain at h
    split at h
    case h_1 rs s qs t =>
      rw [Bool.and_eq_true, Bool.and_eq_true, decide_eq_true_iff] at h
      exact ⟨rfl, (samePlainRequirements_iff h.1).1 h.2.2, h.2.1⟩
    all_goals first
      | exact absurd h Bool.false_ne_true
      | exact ⟨rfl, True.intro⟩
      | refine ⟨rfl, ?_⟩
        simpa [comparedBelow, sameType, samePlainFields_iff, samePlainMembers_iff, bindPairs, Layer, and_assoc] using h
  · rintro ⟨hbranch, h⟩
    unfold samePlain
    unfold Layer at h
    split at h
    case h_4 rs s qs t =>
      have hlen := h.1.length_eq
      simpa [comparedBelow, samePlainRequirements_iff hlen, hlen] using h.symm
    case h_9 => exact absurd hbranch Bool.false_ne_true
    all_goals first
      | exact h.elim
      | rfl
      | simpa [comparedBelow, sameType, samePlainFields_iff, samePlainMembers_iff, bindPairs, and_assoc] using h

/-- The answer of `same_closed_type` to a question. -/
def closedAnswer (σ : Ty.Sharing) (q : Question) : Bool :=
  q.edge && σ.edge q.left q.right || Ty.sameClosedUnder σ q.pairs q.left q.right

theorem closedAnswer_of_taken {σ : Ty.Sharing} {edge : Bool} {a b : Ty} (h : σ.taken edge a b = true) :
    closedAnswer σ ⟨edge, pairs, a, b⟩ = true := by
  unfold Ty.Sharing.taken at h
  refine Bool.or_eq_true_iff.2 ((Bool.or_eq_true_iff.1 h).imp_right fun h => ?_)
  split at h
  case h_4 => exact absurd h Bool.false_ne_true
  all_goals simp_all [Ty.sameClosedUnder]

/-- **`same_closed_type` answers as its rules ask.** -/
theorem sameClosed_answers (σ : Ty.Sharing) (q : Question) : closedAnswer σ q = true ↔
    ((sameClosed σ).rules q).Holds fun q => closedAnswer σ q = true := by
  obtain ⟨edge, pairs, a, b⟩ := q
  cases htaken : σ.taken edge a b with
  | true => exact iff_of_true (closedAnswer_of_taken htaken) (holds_rules_shortcut htaken)
  | false =>
    rw [holds_rules htaken]
    obtain ⟨hedge, htaken⟩ := Bool.or_eq_false_iff.1 htaken
    have hanswer : closedAnswer σ ⟨edge, pairs, a, b⟩ = Ty.sameClosedUnder σ pairs a b := by
      unfold closedAnswer
      rw [hedge, Bool.false_or]
    rw [hanswer]
    constructor
    · intro h
      unfold Ty.sameClosedUnder at h
      split at h
      all_goals simp_all [sameClosed, steps, closedAnswer, sameClosedFields_iff, sameClosedMembers_iff,
        holds_rowSteps, holds_memberSteps, bindPairs, Ty.isRecordUpdate, Ty.isQualified]
    · rintro ⟨hbranch, h⟩
      unfold Ty.sameClosedUnder
      unfold steps at h
      split at h
      all_goals simp_all [sameClosed, closedAnswer, sameClosedFields_iff, sameClosedMembers_iff,
        holds_rowSteps, holds_memberSteps, bindPairs, Ty.isRecordUpdate, Ty.isQualified]

end Manner

/-! ### When the comparisons are equality of types -/

/-- The question whether two types are equal. -/
def Question.root (a b : Ty) : Question := ⟨false, [], a, b⟩

/-- The comparison of `a` and `b` comes to fair questions only. -/
def Manner.FairThroughout (m : Manner) (a b : Ty) : Prop :=
  ∀ q, Comes m.rules Question.Equal (.root a b) q → Fair m.rules Question.Equal q

/-- Every question that the comparison of `a` and `b` comes to is answered as equality of types does. -/
def Manner.RightThroughout (m : Manner) (answer : Question → Bool) (a b : Ty) : Prop :=
  ∀ q, Comes m.rules Question.Equal (.root a b) q → (answer q = true ↔ q.Equal)

theorem Manner.rightThroughout_iff {m : Manner} {answer : Question → Bool}
    (hanswer : ∀ q, answer q = true ↔ (m.rules q).Holds fun q => answer q = true) (a b : Ty) :
    m.RightThroughout answer a b ↔ m.FairThroughout a b :=
  right_iff_fair (m := fun q => sizeOf q.left) hanswer (fun _ _ => sizeOf_asks_lt) (.root a b)

/-- `∀ 1. 1` and `∀ 2. 2` are never one type, so that only their two layers are compared. -/
theorem Manner.fairThroughout_renamed {m : Manner} (hall : m.branch (.forallType [1] (.rigid 1)) = true)
    (hrigid : m.branch (.rigid 1) = true) :
    m.FairThroughout (.forallType [1] (.rigid 1)) (.forallType [2] (.rigid 2)) := by
  have hchild : ∀ {v : ℕ} {p : Ty → Prop}, p (.forallType [v] (.rigid v)) → p (.rigid v) →
      (Ty.forallType [v] (.rigid v)).Hereditarily p := by
    intro v p hall hrigid
    refine .intro hall fun c hc => ?_
    obtain rfl := List.mem_singleton.1 hc
    exact .intro hrigid fun c hc => absurd hc List.not_mem_nil
  have hregular : Regular [] (.forallType [1] (.rigid 1)) (.forallType [2] (.rigid 2)) := by
    refine ⟨List.nodup_nil, ?_, hchild trivial trivial, hchild .nil .nil, hchild .nil .nil⟩
    intro hshadows
    cases hshadows with
    | here hdup => exact hdup (by decide)
    | body hbody =>
      cases hbody with
      | child hc => exact absurd hc List.not_mem_nil
    | child _ hplain => exact hplain _ _ rfl
  -- The questions that come are about the two types and about their two bodies.
  have hcomes : ∀ q, Comes m.rules Question.Equal (.root (.forallType [1] (.rigid 1)) (.forallType [2] (.rigid 2))) q →
      Regular q.pairs q.left q.right ∧
        ((q.left = .forallType [1] (.rigid 1) ∧ q.right = .forallType [2] (.rigid 2)) ∨
          (q.left = .rigid 1 ∧ q.right = .rigid 2)) := by
    intro q hq
    induction hq with
    | refl => exact ⟨hregular, .inl ⟨rfl, rfl⟩⟩
    | tail _ hasks ih =>
      obtain ⟨hreg, hpair⟩ := ih
      refine ⟨regular_asks hreg hasks, ?_⟩
      rcases asks_rules hasks with ⟨-, hbeside⟩ | ⟨vs, ws, -, hl, hr, -⟩
      · rcases hpair with ⟨hl, -⟩ | ⟨hl, -⟩
        · exact absurd hl (hbeside.not_forall _ _)
        · have hmem := hbeside.mem_left
          rw [hl] at hmem
          exact absurd hmem List.not_mem_nil
      · rcases hpair with ⟨hl', hr'⟩ | ⟨hl', -⟩
        · exact .inr ⟨(Ty.forallType.inj (hl.symm.trans hl')).2, (Ty.forallType.inj (hr.symm.trans hr')).2⟩
        · exact absurd (hl.symm.trans hl') (by simp)
  intro q hq
  obtain ⟨hreg, hpair⟩ := hcomes q hq
  refine fair_of_regular hreg (fun hshortcut => ?_) fun hbranch => ?_
  · have heq := m.eq_of_shortcut hshortcut
    rcases hpair with ⟨hl, hr⟩ | ⟨hl, hr⟩
    · exact absurd (hl.symm.trans (heq.trans hr)) (by decide)
    · exact absurd (hl.symm.trans (heq.trans hr)) (by decide)
  · rcases hpair with ⟨hl, -⟩ | ⟨hl, -⟩
    · rw [hl, hall] at hbranch
      exact absurd hbranch.symm Bool.false_ne_true
    · rw [hl, hrigid] at hbranch
      exact absurd hbranch.symm Bool.false_ne_true

end Blot.Typecheck
