import Blot.Support.Attempt
import Mathlib.Data.Nat.Notation
import Mathlib.Order.Defs.PartialOrder

/-!
# Computations with enough rounds

A family of runs, one for each number of rounds, settles when with enough of them the outcome is always the same, and
not that the rounds have run out.  A measure of the state does not rise on the way.

* `Attempt.Settles` — the family settles from a state;
* `Attempt.settles_bind` — one family after another.
-/

namespace Blot.Support.Attempt

variable {σ ε α β : Type} {unfinished : ε} {measure : σ → ℕ} {m : ℕ → Attempt σ ε α} {f : ℕ → α → Attempt σ ε β} {s : σ}

/-- With enough rounds the outcome is the same, and not `unfinished`; the measure does not rise. -/
def Settles (unfinished : ε) (measure : σ → ℕ) (m : ℕ → Attempt σ ε α) (s : σ) : Prop :=
  ∃ enough result, (∀ rounds, enough ≤ rounds → m rounds s = result) ∧ result.1 ≠ .error unfinished ∧
    measure result.2 ≤ measure s

theorem settles_of_run {n : Attempt σ ε α} (h : (n s).1 ≠ .error unfinished) (hmeasure : measure (n s).2 ≤ measure s) :
    Settles unfinished measure (fun _ => n) s :=
  ⟨0, n s, fun _ _ => rfl, h, hmeasure⟩

theorem settles_pure {a : α} : Settles unfinished measure (fun _ => (pure a : Attempt σ ε α)) s :=
  settles_of_run nofun (Nat.le_refl _)

theorem settles_bind (hm : Settles unfinished measure m s)
    (hf : ∀ a s', (∃ rounds, m rounds s = (.ok a, s')) → measure s' ≤ measure s →
      Settles unfinished measure (fun rounds => f rounds a) s') :
    Settles unfinished measure (fun rounds => m rounds >>= f rounds) s := by
  obtain ⟨enough, ⟨outcome, s'⟩, hrun, hfinished, hmeasure⟩ := hm
  cases outcome with
  | error e =>
    have hfinished' : (.error e : Except ε β) ≠ .error unfinished := by
      rintro heq
      cases heq
      exact hfinished rfl
    exact ⟨enough, (.error e, s'), fun rounds h => bind_run_error (hrun rounds h), hfinished', hmeasure⟩
  | ok a =>
    obtain ⟨enough', result, hrun', hfinished', hmeasure'⟩ := hf a s' ⟨enough, hrun enough (Nat.le_refl _)⟩ hmeasure
    refine ⟨max enough enough', result, fun rounds h => ?_, hfinished', Nat.le_trans hmeasure' hmeasure⟩
    have hfirst := hrun rounds (Nat.le_trans (Nat.le_max_left _ _) h)
    exact (bind_run_ok hfirst).trans (hrun' rounds (Nat.le_trans (Nat.le_max_right _ _) h))

/-- One round for the step itself. -/
theorem settles_of_succ (h : Settles unfinished measure (fun rounds => m (rounds + 1)) s) :
    Settles unfinished measure m s := by
  obtain ⟨enough, result, hrun, hresult⟩ := h
  refine ⟨enough + 1, result, fun rounds hle => ?_, hresult⟩
  cases rounds with
  | zero => exact absurd hle (Nat.not_succ_le_zero _)
  | succ rounds => exact hrun rounds (Nat.le_of_succ_le_succ hle)

end Blot.Support.Attempt
