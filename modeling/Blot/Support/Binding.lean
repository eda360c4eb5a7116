import Mathlib.Data.Nat.Notation

/-!
# Terms with bound variables

A term is a variable or an operator over at most two terms; `binds` says that the last of them stands under a binder.
Variables are counted from the nearest binder.

* `Term.rename`, `Term.subst` — all variables at once;
* `Term.subst_subst` — one substitution after another is one substitution;
* `Term.inst` — a term for the nearest variable; `Term.subst_inst` moves a substitution inwards.
-/

namespace Blot.Support.Binding

/-- Terms over the operators `O`. -/
inductive Term (O : Type) where
  | var (i : ℕ)
  | leaf (op : O)
  | one (op : O) (binds : Bool) (a : Term O)
  | two (op : O) (binds : Bool) (a b : Term O)

namespace Term

variable {O : Type}

def lift (ρ : ℕ → ℕ) : ℕ → ℕ
  | 0 => 0
  | i + 1 => ρ i + 1

def lifts (binds : Bool) (ρ : ℕ → ℕ) : ℕ → ℕ := if binds then lift ρ else ρ

def rename (ρ : ℕ → ℕ) : Term O → Term O
  | var i => var (ρ i)
  | leaf op => leaf op
  | one op binds a => one op binds (a.rename (lifts binds ρ))
  | two op binds a b => two op binds (a.rename ρ) (b.rename (lifts binds ρ))

def up (σ : ℕ → Term O) : ℕ → Term O
  | 0 => var 0
  | i + 1 => (σ i).rename Nat.succ

def ups (binds : Bool) (σ : ℕ → Term O) : ℕ → Term O := if binds then up σ else σ

def subst (σ : ℕ → Term O) : Term O → Term O
  | var i => σ i
  | leaf op => leaf op
  | one op binds a => one op binds (a.subst (ups binds σ))
  | two op binds a b => two op binds (a.subst σ) (b.subst (ups binds σ))

/-- `v` for the nearest variable. -/
def nearest (v : Term O) : ℕ → Term O
  | 0 => v
  | i + 1 => var i

/-- The term under a binder, with `v` for the variable of that binder. -/
def inst (t v : Term O) : Term O := t.subst (nearest v)

section Laws

variable {ρ ρ' : ℕ → ℕ} {σ τ : ℕ → Term O} {t v : Term O}

/-- **What goes through a term like a substitution** is the substitution of what it makes of the variables. -/
theorem eq_subst {S : Type} (F : S → Term O → Term O) (under : Bool → S → S) (point : S → ℕ → Term O)
    (hvar : ∀ s i, F s (var i) = point s i) (hleaf : ∀ s op, F s (leaf op) = leaf op)
    (hone : ∀ s op binds a, F s (one op binds a) = one op binds (F (under binds s) a))
    (htwo : ∀ s op binds a b, F s (two op binds a b) = two op binds (F s a) (F (under binds s) b))
    (hsame : ∀ s, point (under false s) = point s) (hzero : ∀ s, point (under true s) 0 = var 0)
    (hsucc : ∀ s i, point (under true s) (i + 1) = (point s i).rename Nat.succ) (s : S) (t : Term O) :
    F s t = t.subst (point s) := by
  have hups : ∀ binds s, point (under binds s) = ups binds (point s) := by
    intro binds s
    cases binds with
    | false => exact hsame s
    | true =>
      funext i
      cases i with
      | zero => exact hzero s
      | succ i => exact hsucc s i
  induction t generalizing s with
  | var i => exact hvar s i
  | leaf op => exact hleaf s op
  | one op binds a iha => rw [hone, iha, hups, subst]
  | two op binds a b iha ihb => rw [htwo, iha, ihb, hups, subst]

theorem rename_eq_subst : t.rename ρ = t.subst fun i => var (ρ i) :=
  eq_subst rename lifts (fun ρ i => var (ρ i)) (fun _ _ => rfl) (fun _ _ => rfl) (fun _ _ _ _ => rfl)
    (fun _ _ _ _ _ => rfl) (fun _ => rfl) (fun _ => rfl) (fun _ _ => rfl) ρ t

theorem subst_rename : (t.rename ρ).subst σ = t.subst (σ ∘ ρ) :=
  eq_subst (fun s t => (t.rename s.1).subst s.2) (fun binds s => (lifts binds s.1, ups binds s.2))
    (fun s => s.2 ∘ s.1) (fun _ _ => rfl) (fun _ _ => rfl) (fun _ _ _ _ => rfl) (fun _ _ _ _ _ => rfl) (fun _ => rfl)
    (fun _ => rfl) (fun _ _ => rfl) (ρ, σ) t

theorem rename_rename : (t.rename ρ).rename ρ' = t.rename (ρ' ∘ ρ) := by
  rw [rename_eq_subst, subst_rename, rename_eq_subst]
  rfl

theorem rename_subst : (t.subst σ).rename ρ = t.subst fun i => (σ i).rename ρ := by
  refine eq_subst (fun s t => (t.subst s.2).rename s.1) (fun binds s => (lifts binds s.1, ups binds s.2))
    (fun s i => (s.2 i).rename s.1) (fun _ _ => rfl) (fun _ _ => rfl) (fun _ _ _ _ => rfl) (fun _ _ _ _ _ => rfl)
    (fun _ => rfl) (fun _ => rfl) (fun s i => ?_) (ρ, σ) t
  change ((s.2 i).rename Nat.succ).rename (lift s.1) = ((s.2 i).rename s.1).rename Nat.succ
  rw [rename_rename, rename_rename]
  rfl

theorem subst_subst : (t.subst σ).subst τ = t.subst fun i => (σ i).subst τ :=
  eq_subst (fun s t => (t.subst s.1).subst s.2) (fun binds s => (ups binds s.1, ups binds s.2))
    (fun s i => (s.1 i).subst s.2) (fun _ _ => rfl) (fun _ _ => rfl) (fun _ _ _ _ => rfl) (fun _ _ _ _ _ => rfl)
    (fun _ => rfl) (fun _ => rfl) (fun _ _ => subst_rename.trans rename_subst.symm) (σ, τ) t

theorem subst_var : t.subst var = t :=
  (eq_subst (fun _ t => t) (fun _ s => s) (fun _ => var) (fun _ _ => rfl) (fun _ _ => rfl) (fun _ _ _ _ => rfl)
    (fun _ _ _ _ _ => rfl) (fun _ => rfl) (fun _ => rfl) (fun _ _ => rfl) () t).symm

theorem rename_id : t.rename id = t := rename_eq_subst.trans subst_var

/-- **A substitution moves inwards** over a term put for the nearest variable. -/
theorem subst_inst : (t.inst v).subst σ = (t.subst (up σ)).inst (v.subst σ) := by
  have hpoint : (fun i => (nearest v i).subst σ) = fun i => (up σ i).subst (nearest (v.subst σ)) := by
    funext i
    cases i with
    | zero => rfl
    | succ i =>
      change σ i = ((σ i).rename Nat.succ).subst (nearest _)
      rw [subst_rename]
      exact subst_var.symm
  rw [inst, inst, subst_subst, subst_subst, hpoint]

end Laws

end Term

end Blot.Support.Binding
