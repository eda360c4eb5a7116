import Mathlib.Data.List.Zip

/-!
# Renamings under nested scopes

Two binding structures are compared by a stack of pairs, innermost first: the name bound on the left and the one bound
at the same place on the right.  `Corresponds pairs l r` says that the two names mean the same: they are bound at one
place, or free and equal.  A name that is rebound means its innermost binder.
-/

namespace Blot.Support

variable {X : Type}

def Corresponds : List (X × X) → X → X → Prop
  | [], l, r => l = r
  | (x, y) :: pairs, l, r => (l = x ∧ r = y) ∨ (l ≠ x ∧ r ≠ y ∧ Corresponds pairs l r)

theorem Corresponds.mem_or_free {pairs : List (X × X)} {l r : X} (h : Corresponds pairs l r) :
    (l, r) ∈ pairs ∨ (l ∉ pairs.map Prod.fst ∧ r ∉ pairs.map Prod.snd ∧ l = r) := by
  induction pairs with
  | nil => exact Or.inr ⟨List.not_mem_nil, List.not_mem_nil, h⟩
  | cons p pairs ih =>
    rcases h with ⟨rfl, rfl⟩ | ⟨hl, hr, hrest⟩
    · exact Or.inl List.mem_cons_self
    · rcases ih hrest with hmem | ⟨hfst, hsnd, heq⟩
      · exact Or.inl (List.mem_cons_of_mem _ hmem)
      · refine Or.inr ⟨fun hmem => ?_, fun hmem => ?_, heq⟩
        · exact (List.mem_cons.1 hmem).elim hl hfst
        · exact (List.mem_cons.1 hmem).elim hr hsnd

def bindPairs (vs ws : List X) (pairs : List (X × X)) : List (X × X) := (vs.zip ws).reverse ++ pairs

@[simp] theorem bindPairs_cons (v w : X) (vs ws : List X) (pairs : List (X × X)) :
    bindPairs (v :: vs) (w :: ws) pairs = bindPairs vs ws ((v, w) :: pairs) := by
  unfold bindPairs
  rw [List.zip_cons_cons, List.reverse_cons, List.append_assoc]
  rfl

/-- What corresponds on the left of a pair of names determines the right one, and conversely. -/
theorem Corresponds.swap {pairs : List (X × X)} {l r : X} (h : Corresponds pairs l r) :
    Corresponds (pairs.map Prod.swap) r l := by
  induction pairs with
  | nil => exact Eq.symm h
  | cons p pairs ih =>
    rcases h with ⟨hl, hr⟩ | ⟨hl, hr, hrest⟩
    · exact Or.inl ⟨hr, hl⟩
    · exact Or.inr ⟨hr, hl, ih hrest⟩

theorem bindPairs_swap {vs ws : List X} (pairs : List (X × X)) :
    (bindPairs vs ws pairs).map Prod.swap = bindPairs ws vs (pairs.map Prod.swap) := by
  unfold bindPairs
  rw [List.map_append, List.map_reverse]
  congr 2
  exact List.zip_swap vs ws

theorem bindPairs_zip {xs ys vs ws : List X} (hlen : xs.length = ys.length) :
    bindPairs vs ws (xs.zip ys).reverse = ((xs ++ vs).zip (ys ++ ws)).reverse := by
  unfold bindPairs
  rw [List.zip_append hlen, List.reverse_append]

/-- Correspondence along two stacks of pairs is correspondence along a third one. -/
def Chain (ps qs rs : List (X × X)) : Prop :=
  ∀ l m r, Corresponds ps l m → Corresponds qs m r → Corresponds rs l r

theorem chain_nil : Chain ([] : List (X × X)) [] [] := fun _ _ _ hlm hmr => Eq.trans hlm hmr

theorem Chain.cons {ps qs rs : List (X × X)} (h : Chain ps qs rs) (x y z : X) :
    Chain ((x, y) :: ps) ((y, z) :: qs) ((x, z) :: rs) := by
  intro l m r hlm hmr
  rcases hlm with ⟨hl, hm⟩ | ⟨hl, hm, hlm⟩
  · rcases hmr with ⟨-, hr⟩ | ⟨hm', -, -⟩
    · exact Or.inl ⟨hl, hr⟩
    · exact absurd hm hm'
  · rcases hmr with ⟨hm', -⟩ | ⟨-, hr, hmr⟩
    · exact absurd hm' hm
    · exact Or.inr ⟨hl, hr, h l m r hlm hmr⟩

theorem Chain.bind {ps qs rs : List (X × X)} (h : Chain ps qs rs) {vs ws xs : List X}
    (hvw : vs.length = ws.length) (hwx : ws.length = xs.length) :
    Chain (bindPairs vs ws ps) (bindPairs ws xs qs) (bindPairs vs xs rs) := by
  induction vs generalizing ws xs ps qs rs with
  | nil =>
    obtain rfl := List.eq_nil_of_length_eq_zero hvw.symm
    obtain rfl := List.eq_nil_of_length_eq_zero hwx.symm
    exact h
  | cons v vs ih =>
    cases ws with
    | nil => exact absurd hvw (Nat.succ_ne_zero _)
    | cons w ws =>
      cases xs with
      | nil => exact absurd hwx (Nat.succ_ne_zero _)
      | cons x xs =>
        rw [bindPairs_cons, bindPairs_cons, bindPairs_cons]
        exact ih (h.cons v w x) (Nat.succ.inj hvw) (Nat.succ.inj hwx)

/-- Names bound or free mean what they mean from both sides. -/
theorem chain_swap (pairs : List (X × X)) : Chain pairs (pairs.map Prod.swap) [] := by
  induction pairs with
  | nil => exact fun l m r hlm hmr => Eq.trans hlm hmr
  | cons p pairs ih =>
    intro l m r hlm hmr
    rcases hlm with ⟨hl, hm⟩ | ⟨hl, hm, hlm⟩
    · rcases hmr with ⟨-, hr⟩ | ⟨hm', -, -⟩
      · exact hl.trans hr.symm
      · exact absurd hm hm'
    · rcases hmr with ⟨hm', -⟩ | ⟨-, -, hmr⟩
      · exact absurd hm' hm
      · exact ih l m r hlm hmr

theorem corresponds_bind_self {vs : List X} {pairs : List (X × X)} {r : X} (h : r ∉ vs → Corresponds pairs r r) :
    Corresponds (bindPairs vs vs pairs) r r := by
  classical
  induction vs generalizing pairs with
  | nil => exact h List.not_mem_nil
  | cons v vs ih =>
    rw [bindPairs_cons]
    refine ih fun hr => ?_
    by_cases hv : r = v
    · exact Or.inl ⟨hv, hv⟩
    · refine Or.inr ⟨hv, hv, h fun hmem => ?_⟩
      rcases List.mem_cons.1 hmem with heq | hmem
      · exact hv heq
      · exact hr hmem

end Blot.Support
