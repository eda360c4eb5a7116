import Blot.Boundary.Sealed
import Blot.Support.Scopes

/-!
# Boundaries that are equal (`spec/TYPECHECKING.md`)

Two types of two arenas are equal up to the names of bound rigids and the order of record fields, record-update fields,
variant cases and union members (`SameType`).  The relation looks at the nodes themselves, so it does not matter how an
arena numbers and shares them.  `SameWithin` bounds the depth of a comparison.
-/

namespace Blot.Boundary

open Blot.Support Blot.Typecheck FlatTypeNode

/-- Two nodes with the same data, and with children that `R` relates under the pairs of binders around them. -/
inductive NodeMatch (R : List (ℕ × ℕ) → ℕ → ℕ → Prop) (pairs : List (ℕ × ℕ)) : FlatTypeNode → FlatTypeNode → Prop
  | rigid {v w : ℕ} (h : Corresponds pairs v w) : NodeMatch R pairs (.rigid v) (.rigid w)
  | forallType {vs ws : List ℕ} {body body' : ℕ} (hlen : vs.length = ws.length)
      (h : R (bindPairs vs ws pairs) body body') : NodeMatch R pairs (.forallType vs body) (.forallType ws body')
  | other {a b : FlatTypeNode} (hrigid : ∀ v, a ≠ .rigid v) (hforall : ∀ vs body, a ≠ .forallType vs body)
      (hhead : a.head = b.head) (hfixed : List.Forall₂ (R pairs) a.fixed b.fixed) (hrow : SameRow (R pairs) a.row b.row)
      (hmembers : SameBag (R pairs) a.members b.members) : NodeMatch R pairs a b

def SameWithin (A B : List FlatTypeNode) : ℕ → List (ℕ × ℕ) → ℕ → ℕ → Prop
  | 0, _, _, _ => False
  | n + 1, pairs, i, j => ∃ a b, A[i]? = some a ∧ B[j]? = some b ∧ NodeMatch (SameWithin A B n) pairs a b

/-- **Equality of types** under pairs of binders, innermost first. -/
def SameType (A B : List FlatTypeNode) (pairs : List (ℕ × ℕ)) (i j : ℕ) : Prop := ∃ n, SameWithin A B n pairs i j

structure SameInterface (A B : CachedModuleInterface) : Prop where
  result : SameType A.types B.types [] A.result B.result
  effects : SameType A.types B.types [] A.effects B.effects
  parameter : Option.Rel (SameType A.types B.types []) A.parameter B.parameter

/-! ### Heads -/

theorem head_eq_rigid {a : FlatTypeNode} {v : ℕ} (h : a.head = .rigid v) : ∃ w, a = .rigid w := by
  cases a with
  | rigid w => exact ⟨w, rfl⟩
  | _ => exact nomatch h

theorem head_eq_forallType {a : FlatTypeNode} {vs : List ℕ} {body : ℕ} (h : a.head = .forallType vs body) :
    ∃ ws body', a = .forallType ws body' := by
  cases a with
  | forallType ws body' => exact ⟨ws, body', rfl⟩
  | _ => exact nomatch h

/-- A node with the head of a node that is no rigid and no quantified type is neither. -/
theorem plain_of_head {a b : FlatTypeNode} (hhead : a.head = b.head) (hrigid : ∀ v, a ≠ .rigid v)
    (hforall : ∀ vs body, a ≠ .forallType vs body) :
    (∀ v, b ≠ .rigid v) ∧ ∀ vs body, b ≠ .forallType vs body := by
  constructor
  · rintro v rfl
    obtain ⟨w, rfl⟩ := head_eq_rigid hhead
    exact hrigid w rfl
  · rintro vs body rfl
    obtain ⟨ws, body', rfl⟩ := head_eq_forallType hhead
    exact hforall ws body' rfl

theorem fixed_length_head (a : FlatTypeNode) : a.head.fixed.length = a.fixed.length := by
  cases a with
  | qualified rs body =>
    simp only [head, fixed, List.length_cons, List.flatMap_map]
    congr 1
    induction rs with
    | nil => rfl
    | cons r rs ih => simp only [List.flatMap_cons, List.length_append, ih, List.length_cons]
  | _ => rfl

/-! ### Nodes -/

section NodeMatch

variable {R S T : List (ℕ × ℕ) → ℕ → ℕ → Prop} {pairs qs rs : List (ℕ × ℕ)} {a b c : FlatTypeNode}

theorem NodeMatch.symm (h : NodeMatch R pairs a b) (hsymm : ∀ ps x y, R ps x y → S (ps.map Prod.swap) y x) :
    NodeMatch S (pairs.map Prod.swap) b a := by
  cases h with
  | rigid h => exact .rigid h.swap
  | forallType hlen h =>
    refine .forallType hlen.symm ?_
    rw [← bindPairs_swap]
    exact hsymm _ _ _ h
  | other hrigid hforall hhead hfixed hrow hmembers =>
    obtain ⟨hrigid', hforall'⟩ := plain_of_head hhead hrigid hforall
    refine .other hrigid' hforall' hhead.symm (hfixed.flip.imp fun y x => hsymm _ x y) ?_ ?_
    · exact hrow.symm fun x y hxy => hsymm _ _ _ hxy
    · exact hmembers.symm fun x y hxy => hsymm _ _ _ hxy

theorem NodeMatch.trans (hchain : Chain pairs qs rs) (h : NodeMatch R pairs a b) (h' : NodeMatch S qs b c)
    (htrans : ∀ ps ps' ps'', Chain ps ps' ps'' → ∀ x y z, R ps x y → S ps' y z → T ps'' x z) : NodeMatch T rs a c := by
  cases h with
  | rigid h =>
    cases h' with
    | rigid h' => exact .rigid (hchain _ _ _ h h')
    | other hrigid => exact absurd rfl (hrigid _)
  | forallType hlen h =>
    cases h' with
    | forallType hlen' h' =>
      exact .forallType (hlen.trans hlen') (htrans _ _ _ (hchain.bind hlen hlen') _ _ _ h h')
    | other _ hforall => exact absurd rfl (hforall _ _)
  | other hrigid hforall hhead hfixed hrow hmembers =>
    obtain ⟨hrigid', hforall'⟩ := plain_of_head hhead hrigid hforall
    cases h' with
    | rigid => exact absurd rfl (hrigid' _)
    | forallType => exact absurd rfl (hforall' _ _)
    | other _ _ hhead' hfixed' hrow' hmembers' =>
      have hstep := htrans _ _ _ hchain
      refine .other hrigid hforall (hhead.trans hhead') (forall₂_trans hfixed hfixed' fun x y z => hstep x y z) ?_ ?_
      · exact hrow.trans hrow' fun f _ y z hfy hyz => hstep _ _ _ hfy hyz
      · exact hmembers.trans hmembers' fun x _ y z hxy hyz => hstep _ _ _ hxy hyz

end NodeMatch

/-! ### Types -/

section Types

variable {A B C : List FlatTypeNode} {pairs qs rs : List (ℕ × ℕ)} {i j k n m : ℕ}

theorem SameWithin.symm (h : SameWithin A B n pairs i j) : SameWithin B A n (pairs.map Prod.swap) j i := by
  induction n generalizing pairs i j with
  | zero => exact h
  | succ n ih =>
    obtain ⟨a, b, ha, hb, hab⟩ := h
    exact ⟨b, a, hb, ha, hab.symm fun _ _ _ => ih⟩

theorem SameWithin.trans (hchain : Chain pairs qs rs) (h : SameWithin A B n pairs i j) (h' : SameWithin B C m qs j k) :
    SameWithin A C n rs i k := by
  induction n generalizing m pairs qs rs i j k with
  | zero => exact h
  | succ n ih =>
    cases m with
    | zero => exact h'.elim
    | succ m =>
      obtain ⟨a, b, ha, hb, hab⟩ := h
      obtain ⟨b', c, hb', hc, hbc⟩ := h'
      obtain rfl := Option.some.inj (hb.symm.trans hb')
      exact ⟨a, c, ha, hc, hab.trans hchain hbc fun _ _ _ hchain' _ _ _ => ih hchain'⟩

theorem SameType.symm (h : SameType A B pairs i j) : SameType B A (pairs.map Prod.swap) j i := by
  obtain ⟨n, h⟩ := h
  exact ⟨n, h.symm⟩

theorem SameType.trans (hchain : Chain pairs qs rs) (h : SameType A B pairs i j) (h' : SameType B C qs j k) :
    SameType A C rs i k := by
  obtain ⟨n, h⟩ := h
  obtain ⟨m, h'⟩ := h'
  exact ⟨n, h.trans hchain h'⟩

end Types

end Blot.Boundary
