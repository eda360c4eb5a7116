import Blot.Support.Attempt
import Mathlib.Order.Defs.PartialOrder

/-!
# Computations in a world that grows

An invariant ties the state to a world, of which it says what is known; a run that finishes leads to a larger world, in
which it holds again.

* `Attempt.Leads` — what a finished run leads to;
* `Attempt.leads_bind` — one run after the other.
-/

namespace Blot.Support.Attempt

variable {W σ ε α β : Type} [Preorder W] {Inv : W → σ → Prop} {w : W} {m : Attempt σ ε α} {f : α → Attempt σ ε β}
  {P Q : W → α → Prop} {R : W → β → Prop}

/-- From the world `w`, a run of `m` that finishes leads to a world where the invariant holds, and `P`. -/
def Leads (Inv : W → σ → Prop) (w : W) (m : Attempt σ ε α) (P : W → α → Prop) : Prop :=
  ∀ s a s', Inv w s → m s = (.ok a, s') → ∃ w', w ≤ w' ∧ Inv w' s' ∧ P w' a

theorem leads_pure {a : α} (h : P w a) : Leads Inv w (pure a : Attempt σ ε α) P := by
  intro s b s' hs hrun
  obtain ⟨rfl, rfl⟩ := pure_eq_ok.1 hrun
  exact ⟨w, le_refl w, hs, h⟩

theorem leads_stop {e : ε} : Leads Inv w (stop e : Attempt σ ε α) P :=
  fun _ _ _ _ hrun => absurd hrun stop_ne_ok

theorem leads_bind (hm : Leads Inv w m P) (hf : ∀ w' a, w ≤ w' → P w' a → Leads Inv w' (f a) R) :
    Leads Inv w (m >>= f) R := by
  intro s b s'' hs hrun
  obtain ⟨a, s', hfirst, hsecond⟩ := bind_eq_ok.1 hrun
  obtain ⟨w', hw, hs', ha⟩ := hm s a s' hs hfirst
  obtain ⟨w'', hw', hs'', hb⟩ := hf w' a hw ha s' b s'' hs' hsecond
  exact ⟨w'', le_trans hw hw', hs'', hb⟩

theorem Leads.imp (hm : Leads Inv w m P) (h : ∀ w' a, w ≤ w' → P w' a → Q w' a) : Leads Inv w m Q := by
  intro s a s' hs hrun
  obtain ⟨w', hw, hs', ha⟩ := hm s a s' hs hrun
  exact ⟨w', hw, hs', h w' a hw ha⟩

/-- What a run leads to was the result of a run. -/
theorem Leads.of_run (hm : Leads Inv w m P) : Leads Inv w m fun w' a => P w' a ∧ ∃ s s', m s = (.ok a, s') := by
  intro s a s' hs hrun
  obtain ⟨w', hw, hs', ha⟩ := hm s a s' hs hrun
  exact ⟨w', hw, hs', ha, s, s', hrun⟩

end Blot.Support.Attempt
