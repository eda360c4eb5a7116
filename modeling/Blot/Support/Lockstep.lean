import Mathlib.Data.Nat.Notation
import Mathlib.Logic.Relation

/-!
# Two machines in lockstep

A deterministic machine is a function that takes a state to the next one or to an outcome.  Two machines whose states
are related have the same outcomes when from related states both end alike, or both go on to related states.
-/

namespace Blot.Support.Lockstep

variable {C C' O : Type}

def Step (next : C → C ⊕ O) (c d : C) : Prop := next c = .inl d

def Goes (next : C → C ⊕ O) : C → C → Prop := Relation.TransGen (Step next)

/-- The outcome within `n` steps. -/
def run (next : C → C ⊕ O) : ℕ → C → Option O
  | 0, _ => none
  | n + 1, c =>
    match next c with
    | .inl d => run next n d
    | .inr o => some o

/-- The machine ends with an outcome. -/
def Ends (next : C → C ⊕ O) (c : C) (o : O) : Prop := ∃ n, run next n c = some o

section One

variable {next : C → C ⊕ O} {c d : C} {o o' : O}

theorem run_step (h : Step next c d) (n : ℕ) : run next (n + 1) c = run next n d := by
  show (match next c with
    | .inl d => run next n d
    | .inr o => some o) = run next n d
  rw [show next c = .inl d from h]

theorem run_outcome (h : next c = .inr o) (n : ℕ) : run next (n + 1) c = some o := by
  show (match next c with
    | .inl d => run next n d
    | .inr o => some o) = some o
  rw [h]

theorem ends_now (h : next c = .inr o) : Ends next c o := ⟨1, run_outcome h 0⟩

theorem ends_step (h : Step next c d) : Ends next c o ↔ Ends next d o := by
  constructor
  · rintro ⟨n, hn⟩
    cases n with
    | zero => cases hn
    | succ n => exact ⟨n, run_step h n ▸ hn⟩
  · rintro ⟨n, hn⟩
    exact ⟨n + 1, (run_step h n).trans hn⟩

theorem ends_goes (h : Goes next c d) : Ends next c o ↔ Ends next d o := by
  induction h with
  | single h => exact ends_step h
  | tail _ h ih => exact ih.trans (ends_step h)

/-- A run is shorter after a step. -/
theorem run_goes (h : Goes next c d) {n : ℕ} (hn : run next n c = some o) : ∃ m < n, run next m d = some o := by
  induction h with
  | single h =>
    cases n with
    | zero => cases hn
    | succ n => exact ⟨n, by omega, run_step h n ▸ hn⟩
  | tail _ h ih =>
    obtain ⟨m, hm, hrun⟩ := ih
    cases m with
    | zero => cases hrun
    | succ m => exact ⟨m, by omega, run_step h m ▸ hrun⟩

/-- **The outcome is unique.** -/
theorem ends_unique (h : Ends next c o) (h' : Ends next c o') : o = o' := by
  obtain ⟨n, hn⟩ := h
  induction n generalizing c with
  | zero => cases hn
  | succ n ih =>
    rcases hc : next c with d | o₁
    · exact ih ((ends_step hc).1 h') (run_step hc n ▸ hn)
    · obtain ⟨m, hm⟩ := h'
      cases m with
      | zero => cases hm
      | succ m =>
        rw [run_outcome hc] at hn hm
        exact Option.some.inj (hn.symm.trans hm)

end One

section Two

variable {next : C → C ⊕ O} {next' : C' → C' ⊕ O} {c : C} {c' : C'} {o : O}

/-- Related states end alike or go on to related states. -/
def Simulates (next : C → C ⊕ O) (next' : C' → C' ⊕ O) (R : C → C' → Prop) : Prop :=
  ∀ c c', R c c' → (∃ o, Ends next c o ∧ Ends next' c' o) ∨
    ∃ d d', Goes next c d ∧ Goes next' c' d' ∧ R d d'

def Comes (next : C → C ⊕ O) : C → C → Prop := Relation.ReflTransGen (Step next)

/-- Each machine comes to a state such that the two are related, or the machines end alike. -/
def Meets (next : C → C ⊕ O) (next' : C' → C' ⊕ O) (R : C → C' → Prop) (c : C) (c' : C') : Prop :=
  (∃ o, Ends next c o ∧ Ends next' c' o) ∨ ∃ d d', Comes next c d ∧ Comes next' c' d' ∧ R d d'

theorem ends_comes {d : C} (h : Comes next c d) (ho : Ends next d o) : Ends next c o := by
  induction h with
  | refl => exact ho
  | tail _ h ih => exact ih ((ends_step h).2 ho)

section Meets

variable {R : C → C' → Prop} {d : C} {d' : C'}

theorem Meets.now (h : R c c') : Meets next next' R c c' := Or.inr ⟨c, c', .refl, .refl, h⟩

theorem Meets.left (h : Step next c d) (hm : Meets next next' R d c') : Meets next next' R c c' := by
  rcases hm with ⟨o, ho, ho'⟩ | ⟨e, e', he, he', hR⟩
  · exact Or.inl ⟨o, (ends_step h).2 ho, ho'⟩
  · exact Or.inr ⟨e, e', .head h he, he', hR⟩

theorem Meets.right (h : Step next' c' d') (hm : Meets next next' R c d') : Meets next next' R c c' := by
  rcases hm with ⟨o, ho, ho'⟩ | ⟨e, e', he, he', hR⟩
  · exact Or.inl ⟨o, ho, (ends_step h).2 ho'⟩
  · exact Or.inr ⟨e, e', he, .head h he', hR⟩

/-- A step on each side, then a meeting. -/
def Follows (next : C → C ⊕ O) (next' : C' → C' ⊕ O) (R : C → C' → Prop) (c : C) (c' : C') : Prop :=
  (∃ o, Ends next c o ∧ Ends next' c' o) ∨ ∃ d d', Step next c d ∧ Step next' c' d' ∧ Meets next next' R d d'

theorem Follows.of_steps (h : Step next c d) (h' : Step next' c' d') (hm : Meets next next' R d d') :
    Follows next next' R c c' := Or.inr ⟨d, d', h, h', hm⟩

theorem Follows.left (h : Step next c d) (hf : Follows next next' R d c') : Follows next next' R c c' := by
  rcases hf with ⟨o, ho, ho'⟩ | ⟨e, e', he, he', hm⟩
  · exact Or.inl ⟨o, (ends_step h).2 ho, ho'⟩
  · exact .of_steps h he' (hm.left he)

theorem Simulates.of_follows (h : ∀ c c', R c c' → Follows next next' R c c') : Simulates next next' R := by
  intro c c' hc
  rcases h c c' hc with ho | ⟨d, d', hd, hd', ho | ⟨e, e', he, he', hR⟩⟩
  · exact Or.inl ho
  · obtain ⟨o, ho, ho'⟩ := ho
    exact Or.inl ⟨o, (ends_step hd).2 ho, (ends_step hd').2 ho'⟩
  · exact Or.inr ⟨e, e', .head' hd he, .head' hd' he', hR⟩

end Meets

theorem Simulates.symm {R : C → C' → Prop} (h : Simulates next next' R) :
    Simulates next' next fun c' c => R c c' := by
  intro c' c hc
  rcases h c c' hc with ⟨o, ho, ho'⟩ | ⟨d, d', hd, hd', hR⟩
  · exact Or.inl ⟨o, ho', ho⟩
  · exact Or.inr ⟨d', d, hd', hd, hR⟩

theorem Simulates.ends_of_ends {R : C → C' → Prop} (h : Simulates next next' R) (hc : R c c') (ho : Ends next c o) :
    Ends next' c' o := by
  obtain ⟨n, hn⟩ := ho
  -- on the length of the run: a simulated step makes it shorter
  induction n using Nat.strongRecOn generalizing c c' with
  | ind n ih =>
    rcases h c c' hc with ⟨o₁, ho, ho'⟩ | ⟨d, d', hd, hd', hR⟩
    · exact ends_unique ho ⟨n, hn⟩ ▸ ho'
    · obtain ⟨m, hm, hrun⟩ := run_goes hd hn
      exact (ends_goes hd').2 (ih m hm hR hrun)

/-- **Machines in lockstep have the same outcomes.** -/
theorem Simulates.ends_iff {R : C → C' → Prop} (h : Simulates next next' R) (hc : R c c') :
    Ends next c o ↔ Ends next' c' o := ⟨h.ends_of_ends hc, h.symm.ends_of_ends hc⟩

end Two

end Blot.Support.Lockstep
