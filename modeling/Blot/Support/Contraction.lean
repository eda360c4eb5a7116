import Blot.Support.Binding
import Mathlib.Logic.Relation

/-!
# Conversion of terms with bound variables

`contract` says what an operator over its terms contracts to, if anything.  Where a contraction keeps under
substitution, and under reduction of the terms below (`Orthogonal`), conversion is decided by normal forms.

* `Par` — contractions at any places at once; `par_develop` is the triangle to the complete development;
* `Converts` — the least congruence with the contractions;
* `converts_iff_join` — convertible terms have a common reduct;
* `normal_eq` — convertible normal forms are equal.
-/

namespace Blot.Support.Binding

open Relation Term

variable {O : Type}

inductive Par (contract : Term O → Option (Term O)) : Term O → Term O → Prop
  | var (i : ℕ) : Par contract (.var i) (.var i)
  | leaf (op : O) : Par contract (.leaf op) (.leaf op)
  | one (op : O) (binds : Bool) {a a' : Term O} : Par contract a a' → Par contract (.one op binds a) (.one op binds a')
  | two (op : O) (binds : Bool) {a a' b b' : Term O} : Par contract a a' → Par contract b b' →
      Par contract (.two op binds a b) (.two op binds a' b')
  | oneContract (op : O) (binds : Bool) {a a' u : Term O} : Par contract a a' →
      contract (.one op binds a') = some u → Par contract (.one op binds a) u
  | twoContract (op : O) (binds : Bool) {a a' b b' u : Term O} : Par contract a a' → Par contract b b' →
      contract (.two op binds a' b') = some u → Par contract (.two op binds a b) u

/-- Contractions keep under substitution. -/
def Stable (contract : Term O → Option (Term O)) : Prop :=
  ∀ ⦃t u : Term O⦄ (σ : ℕ → Term O), contract t = some u → contract (t.subst σ) = some (u.subst σ)

/-- Contractions do not get in each other's way. -/
structure Orthogonal (contract : Term O → Option (Term O)) : Prop where
  var (i : ℕ) : contract (.var i) = none
  leaf (op : O) : contract (.leaf op) = none
  stable : Stable contract
  one {op : O} {binds : Bool} {a a' u : Term O} : Par contract a a' → contract (.one op binds a) = some u →
    ∃ u', contract (.one op binds a') = some u' ∧ Par contract u u'
  two {op : O} {binds : Bool} {a a' b b' u : Term O} : Par contract a a' → Par contract b b' →
    contract (.two op binds a b) = some u → ∃ u', contract (.two op binds a' b') = some u' ∧ Par contract u u'

section Parallel

variable {contract : Term O → Option (Term O)} {t t' u u' : Term O} {σ σ' : ℕ → Term O}

theorem par_refl (t : Term O) : Par contract t t := by
  induction t with
  | var i => exact .var i
  | leaf op => exact .leaf op
  | one op binds a iha => exact .one op binds iha
  | two op binds a b iha ihb => exact .two op binds iha ihb

theorem Par.rename (hstable : Stable contract) {ρ : ℕ → ℕ} (h : Par contract t t') :
    Par contract (t.rename ρ) (t'.rename ρ) := by
  have hrename : ∀ {t u : Term O} (ρ : ℕ → ℕ), contract t = some u → contract (t.rename ρ) = some (u.rename ρ) := by
    intro t u ρ h
    rw [rename_eq_subst, rename_eq_subst]
    exact hstable _ h
  induction h generalizing ρ with
  | var i => exact .var _
  | leaf op => exact .leaf op
  | one op binds _ iha => exact .one op binds iha
  | two op binds _ _ iha ihb => exact .two op binds iha ihb
  | oneContract op binds _ hu iha => exact .oneContract op binds iha (hrename ρ hu)
  | twoContract op binds _ _ hu iha ihb => exact .twoContract op binds iha ihb (hrename ρ hu)

theorem par_ups (hstable : Stable contract) (binds : Bool) (h : ∀ i, Par contract (σ i) (σ' i)) (i : ℕ) :
    Par contract (ups binds σ i) (ups binds σ' i) := by
  cases binds with
  | false => exact h i
  | true =>
    cases i with
    | zero => exact .var 0
    | succ i => exact (h i).rename hstable

/-- **Reduction in a term and in what is put for its variables**, at once. -/
theorem Par.subst (hstable : Stable contract) (h : Par contract t t')
    (hσ : ∀ i, Par contract (σ i) (σ' i)) : Par contract (t.subst σ) (t'.subst σ') := by
  induction h generalizing σ σ' with
  | var i => exact hσ i
  | leaf op => exact .leaf op
  | one op binds _ iha => exact .one op binds (iha (par_ups hstable binds hσ))
  | two op binds _ _ iha ihb => exact .two op binds (iha hσ) (ihb (par_ups hstable binds hσ))
  | oneContract op binds _ hu iha =>
    exact .oneContract op binds (iha (par_ups hstable binds hσ)) (hstable σ' hu)
  | twoContract op binds _ _ hu iha ihb =>
    exact .twoContract op binds (iha hσ) (ihb (par_ups hstable binds hσ)) (hstable σ' hu)

theorem Par.inst (hstable : Stable contract) (h : Par contract t t') (hu : Par contract u u') :
    Par contract (t.inst u) (t'.inst u') := by
  refine h.subst hstable fun i => ?_
  cases i with
  | zero => exact hu
  | succ i => exact .var i

/-- The term with everything in it contracted once, from below. -/
def develop (contract : Term O → Option (Term O)) : Term O → Term O
  | .var i => .var i
  | .leaf op => .leaf op
  | .one op binds a => (contract (.one op binds (develop contract a))).getD (.one op binds (develop contract a))
  | .two op binds a b =>
    (contract (.two op binds (develop contract a) (develop contract b))).getD
      (.two op binds (develop contract a) (develop contract b))

/-- **The triangle**: every reduct goes on to the complete development. -/
theorem par_develop (horthogonal : Orthogonal contract) (h : Par contract t u) :
    Par contract u (develop contract t) := by
  induction h with
  | var i => exact .var i
  | leaf op => exact .leaf op
  | one op binds _ iha =>
    rw [develop]
    cases hw : contract (.one op binds (develop contract _)) with
    | none => exact .one op binds iha
    | some w => exact .oneContract op binds iha hw
  | two op binds _ _ iha ihb =>
    rw [develop]
    cases hw : contract (.two op binds (develop contract _) (develop contract _)) with
    | none => exact .two op binds iha ihb
    | some w => exact .twoContract op binds iha ihb hw
  | oneContract op binds _ hu iha =>
    obtain ⟨w, hw, hpar⟩ := horthogonal.one iha hu
    rw [develop, hw]
    exact hpar
  | twoContract op binds _ _ hu iha ihb =>
    obtain ⟨w, hw, hpar⟩ := horthogonal.two iha ihb hu
    rw [develop, hw]
    exact hpar

theorem join_of_reducts (horthogonal : Orthogonal contract) {t u v : Term O} (hu : ReflTransGen (Par contract) t u)
    (hv : ReflTransGen (Par contract) t v) : Join (ReflTransGen (Par contract)) u v :=
  church_rosser
    (fun t _ _ hu hv =>
      ⟨develop contract t, .single (par_develop horthogonal hu), .single (par_develop horthogonal hv)⟩)
    hu hv

end Parallel

/-! ### Conversion -/

/-- The least congruence with the contractions. -/
inductive Converts (contract : Term O → Option (Term O)) : Term O → Term O → Prop
  | refl (t : Term O) : Converts contract t t
  | symm {t u : Term O} : Converts contract t u → Converts contract u t
  | trans {t u v : Term O} : Converts contract t u → Converts contract u v → Converts contract t v
  | one (op : O) (binds : Bool) {a a' : Term O} : Converts contract a a' →
      Converts contract (.one op binds a) (.one op binds a')
  | two (op : O) (binds : Bool) {a a' b b' : Term O} : Converts contract a a' → Converts contract b b' →
      Converts contract (.two op binds a b) (.two op binds a' b')
  | contract {t u : Term O} : contract t = some u → Converts contract t u

section Conversion

variable {contract : Term O → Option (Term O)} {t u : Term O} {σ σ' : ℕ → Term O}

theorem par_contract (horthogonal : Orthogonal contract) (h : contract t = some u) : Par contract t u := by
  cases t with
  | var i => cases (horthogonal.var i).symm.trans h
  | leaf op => cases (horthogonal.leaf op).symm.trans h
  | one op binds a => exact .oneContract op binds (par_refl a) h
  | two op binds a b => exact .twoContract op binds (par_refl a) (par_refl b) h

/-- **Convertible terms have a common reduct.** -/
theorem join_of_converts (horthogonal : Orthogonal contract) (h : Converts contract t u) :
    Join (ReflTransGen (Par contract)) t u := by
  induction h with
  | refl t => exact ⟨t, .refl, .refl⟩
  | symm _ ih =>
    obtain ⟨w, ht, hu⟩ := ih
    exact ⟨w, hu, ht⟩
  | trans _ _ ih ih' =>
    obtain ⟨w, ht, hu⟩ := ih
    obtain ⟨w', hu', hv⟩ := ih'
    obtain ⟨x, hw, hw'⟩ := join_of_reducts horthogonal hu hu'
    exact ⟨x, ht.trans hw, hv.trans hw'⟩
  | one op binds _ iha =>
    obtain ⟨w, ha, ha'⟩ := iha
    exact ⟨.one op binds w, ha.lift _ fun _ _ h => .one op binds h, ha'.lift _ fun _ _ h => .one op binds h⟩
  | @two op binds a a' b b' _ _ iha ihb =>
    obtain ⟨w, ha, ha'⟩ := iha
    obtain ⟨x, hb, hb'⟩ := ihb
    have hboth : ∀ {a b w x : Term O}, ReflTransGen (Par contract) a w → ReflTransGen (Par contract) b x →
        ReflTransGen (Par contract) (.two op binds a b) (.two op binds w x) := by
      intro a b w x ha hb
      have hfirst : ReflTransGen (Par contract) (.two op binds a b) (.two op binds w b) :=
        ha.lift (Term.two op binds · b) fun _ _ h => Par.two op binds h (par_refl b)
      have hsecond : ReflTransGen (Par contract) (.two op binds w b) (.two op binds w x) :=
        hb.lift (Term.two op binds w) fun _ _ h => Par.two op binds (par_refl w) h
      exact hfirst.trans hsecond
    exact ⟨.two op binds w x, hboth ha hb, hboth ha' hb'⟩
  | contract h => exact ⟨_, .single (par_contract horthogonal h), .refl⟩

theorem Converts.subst (hstable : Stable contract) (h : Converts contract t u) :
    Converts contract (t.subst σ) (u.subst σ) := by
  induction h generalizing σ with
  | refl t => exact .refl _
  | symm _ ih => exact ih.symm
  | trans _ _ ih ih' => exact ih.trans ih'
  | one op binds _ iha => exact .one op binds iha
  | two op binds _ _ iha ihb => exact .two op binds iha ihb
  | contract h => exact .contract (hstable σ h)

theorem converts_subst_right (hstable : Stable contract) (hσ : ∀ i, Converts contract (σ i) (σ' i)) :
    Converts contract (t.subst σ) (t.subst σ') := by
  have hups : ∀ (binds : Bool) {σ σ' : ℕ → Term O}, (∀ i, Converts contract (σ i) (σ' i)) →
      ∀ i, Converts contract (ups binds σ i) (ups binds σ' i) := by
    intro binds σ σ' hσ i
    cases binds with
    | false => exact hσ i
    | true =>
      cases i with
      | zero => exact .refl _
      | succ i =>
        change Converts contract ((σ i).rename Nat.succ) ((σ' i).rename Nat.succ)
        rw [rename_eq_subst, rename_eq_subst]
        exact (hσ i).subst hstable
  induction t generalizing σ σ' with
  | var i => exact hσ i
  | leaf op => exact .refl _
  | one op binds a iha => exact .one op binds (iha (hups binds hσ))
  | two op binds a b iha ihb => exact .two op binds (iha hσ) (ihb (hups binds hσ))

/-- **Convertible terms put into convertible terms** give convertible terms. -/
theorem converts_subst (horthogonal : Orthogonal contract) (h : Converts contract t u)
    (hσ : ∀ i, Converts contract (σ i) (σ' i)) : Converts contract (t.subst σ) (u.subst σ') :=
  (h.subst horthogonal.stable).trans (converts_subst_right horthogonal.stable hσ)

/-! ### Normal forms -/

/-- Nothing in the term contracts. -/
def Normal (contract : Term O → Option (Term O)) : Term O → Prop
  | .var _ => True
  | .leaf _ => True
  | .one op binds a => Normal contract a ∧ contract (.one op binds a) = none
  | .two op binds a b => Normal contract a ∧ Normal contract b ∧ contract (.two op binds a b) = none

theorem Normal.par_eq (hnormal : Normal contract t) (h : Par contract t u) : u = t := by
  induction h with
  | var i => rfl
  | leaf op => rfl
  | one op binds _ iha => rw [iha hnormal.1]
  | two op binds _ _ iha ihb => rw [iha hnormal.1, ihb hnormal.2.1]
  | oneContract op binds _ hu iha =>
    rw [iha hnormal.1, hnormal.2] at hu
    cases hu
  | twoContract op binds _ _ hu iha ihb =>
    rw [iha hnormal.1, ihb hnormal.2.1, hnormal.2.2] at hu
    cases hu

theorem Normal.reduct_eq (hnormal : Normal contract t) (h : ReflTransGen (Par contract) t u) : u = t := by
  induction h with
  | refl => rfl
  | tail _ h ih =>
    rw [ih] at h
    exact hnormal.par_eq h

/-- **Convertible normal forms are equal.** -/
theorem normal_eq (horthogonal : Orthogonal contract) (ht : Normal contract t) (hu : Normal contract u)
    (h : Converts contract t u) : t = u := by
  obtain ⟨w, htw, huw⟩ := join_of_converts horthogonal h
  rw [← ht.reduct_eq htw, ← hu.reduct_eq huw]

end Conversion

end Blot.Support.Binding
