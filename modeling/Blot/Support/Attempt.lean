import Mathlib.Logic.Relation

/-!
# Computations that may stop and keep their state

`Attempt σ ε α` is a computation over a state `σ` that finishes with an `α` or stops with an `ε`; either way the
state it reached survives, so that a caller can look at it or undo it.

* `Attempt.bind_eq_ok` — the inversion of a finished sequence, one step at a time;
* `Attempt.Moves R` — every run, finished or stopped, moves the state along the relation `R`;
* `Attempt.Refines m n` — `m` finishes less often than `n`, and never differently.
-/

namespace Blot.Support

/-- A computation over `σ` that may stop with `ε`; the state survives a stop. -/
def Attempt (σ ε α : Type) : Type := σ → Except ε α × σ

namespace Attempt

variable {σ ε α β : Type}

instance : Monad (Attempt σ ε) where
  pure a := fun s => (.ok a, s)
  bind m f := fun s =>
    match m s with
    | (.ok a, s') => f a s'
    | (.error e, s') => (.error e, s')

def stop (e : ε) : Attempt σ ε α := fun s => (.error e, s)

def get : Attempt σ ε σ := fun s => (.ok s, s)

def modify (f : σ → σ) : Attempt σ ε Unit := fun s => (.ok (), f s)

theorem pure_run (a : α) (s : σ) : (pure a : Attempt σ ε α) s = (.ok a, s) := rfl

theorem stop_run (e : ε) (s : σ) : (stop e : Attempt σ ε α) s = (.error e, s) := rfl

theorem get_run (s : σ) : (get : Attempt σ ε σ) s = (.ok s, s) := rfl

theorem modify_run (f : σ → σ) (s : σ) : (modify f : Attempt σ ε Unit) s = (.ok (), f s) := rfl

theorem bind_run (m : Attempt σ ε α) (f : α → Attempt σ ε β) (s : σ) :
    (m >>= f) s = match m s with
      | (.ok a, s') => f a s'
      | (.error e, s') => (.error e, s') := rfl

theorem bind_run_ok {m : Attempt σ ε α} {f : α → Attempt σ ε β} {s s' : σ} {a : α} (h : m s = (.ok a, s')) :
    (m >>= f) s = f a s' := by
  simp only [bind_run, h]

theorem bind_run_error {m : Attempt σ ε α} {f : α → Attempt σ ε β} {s s' : σ} {e : ε} (h : m s = (.error e, s')) :
    (m >>= f) s = (.error e, s') := by
  simp only [bind_run, h]

instance : LawfulMonad (Attempt σ ε) := by
  refine LawfulMonad.mk' _ (fun m => funext fun s => ?_) (fun _ _ => rfl) fun m _ _ => funext fun s => ?_
  · change (match m s with
      | (.ok a, s') => (pure a : Attempt σ ε _) s'
      | (.error e, s') => (.error e, s')) = m s
    rcases m s with ⟨_ | a, s'⟩ <;> rfl
  · rcases h : m s with ⟨_ | a, s'⟩ <;> simp [bind_run, h]

/-- **Inversion of a finished sequence.** -/
theorem bind_eq_ok {m : Attempt σ ε α} {f : α → Attempt σ ε β} {s s'' : σ} {b : β} :
    (m >>= f) s = (.ok b, s'') ↔ ∃ a s', m s = (.ok a, s') ∧ f a s' = (.ok b, s'') := by
  rw [bind_run]
  rcases m s with ⟨_ | a, s'⟩
  · simp
  · simp only [Prod.mk.injEq, Except.ok.injEq]
    exact ⟨fun h => ⟨a, s', ⟨rfl, rfl⟩, h⟩, fun ⟨_, _, ⟨rfl, rfl⟩, h⟩ => h⟩

theorem pure_eq_ok {a b : α} {s s' : σ} : (pure a : Attempt σ ε α) s = (.ok b, s') ↔ a = b ∧ s = s' := by
  simp [pure_run]

theorem get_eq_ok {s s' a : σ} : (get : Attempt σ ε σ) s = (.ok a, s') ↔ s = a ∧ s = s' := by
  simp [get_run]

theorem modify_eq_ok {f : σ → σ} {s s' : σ} {u : Unit} :
    (modify f : Attempt σ ε Unit) s = (.ok u, s') ↔ f s = s' := by
  simp [modify_run]

theorem get_bind_eq_ok {f : σ → Attempt σ ε β} {s s' : σ} {b : β} :
    (get >>= f) s = (.ok b, s') ↔ f s s = (.ok b, s') := Iff.rfl

theorem modify_bind_eq_ok {g : σ → σ} {f : Unit → Attempt σ ε β} {s s' : σ} {b : β} :
    (modify g >>= f) s = (.ok b, s') ↔ f () (g s) = (.ok b, s') := Iff.rfl

theorem stop_ne_ok {e : ε} {s s' : σ} {a : α} : ¬ (stop e : Attempt σ ε α) s = (.ok a, s') := by
  simp [stop_run]

/-! ### Moving along a relation -/

/-- Every run of `m`, finished or stopped, moves the state along `R`. -/
def Moves (R : σ → σ → Prop) (m : Attempt σ ε α) : Prop := ∀ s, R s (m s).2

section Moves

variable {R : σ → σ → Prop}

theorem Moves.ok {m : Attempt σ ε α} (hm : Moves R m) {s s' : σ} {a : α} (h : m s = (.ok a, s')) : R s s' := by
  have hs := hm s
  rwa [h] at hs

theorem moves_pure (hrefl : ∀ s, R s s) (a : α) : Moves R (pure a : Attempt σ ε α) := fun s => hrefl s

theorem moves_stop (hrefl : ∀ s, R s s) (e : ε) : Moves R (stop e : Attempt σ ε α) := fun s => hrefl s

theorem moves_get (hrefl : ∀ s, R s s) : Moves R (get : Attempt σ ε σ) := fun s => hrefl s

theorem moves_bind (htrans : ∀ a b c, R a b → R b c → R a c) {m : Attempt σ ε α} {f : α → Attempt σ ε β}
    (hm : Moves R m) (hf : ∀ a, Moves R (f a)) : Moves R (m >>= f) := by
  intro s
  have h := hm s
  rw [bind_run]
  revert h
  rcases m s with ⟨_ | a, s'⟩
  · exact id
  · exact fun h => htrans _ _ _ h (hf a s')

theorem moves_ite {c : Prop} [Decidable c] {m n : Attempt σ ε α} (hm : Moves R m) (hn : Moves R n) :
    Moves R (if c then m else n) := by
  by_cases h : c
  · rwa [if_pos h]
  · rwa [if_neg h]

end Moves

/-! ### Finishing less often -/

/-- Whatever `m` finishes with, `n` finishes with. -/
def Refines (m n : Attempt σ ε α) : Prop := ∀ s a s', m s = (.ok a, s') → n s = (.ok a, s')

theorem refines_refl (m : Attempt σ ε α) : Refines m m := fun _ _ _ h => h

theorem refines_bind {m n : Attempt σ ε α} {f g : α → Attempt σ ε β} (hm : Refines m n)
    (hf : ∀ a, Refines (f a) (g a)) : Refines (m >>= f) (n >>= g) := by
  intro s b s'' h
  obtain ⟨a, s', h₁, h₂⟩ := bind_eq_ok.1 h
  exact bind_eq_ok.2 ⟨a, s', hm s a s' h₁, hf a s' b s'' h₂⟩

theorem refines_ite {c : Prop} [Decidable c] {m n m' n' : Attempt σ ε α} (h : Refines m n) (h' : Refines m' n') :
    Refines (if c then m else m') (if c then n else n') := by
  by_cases hc : c
  · rwa [if_pos hc, if_pos hc]
  · rwa [if_neg hc, if_neg hc]

/-- What the first part of a sequence establishes and the rest keeps holds at its end. -/
theorem bind_keeps {P : σ → Prop} {m : Attempt σ ε α} {f : α → Attempt σ ε β} {s : σ} (hm : P (m s).2)
    (hf : ∀ a s', m s = (.ok a, s') → P s' → P (f a s').2) : P ((m >>= f) s).2 := by
  rw [bind_run]
  rcases h : m s with ⟨_ | a, s'⟩
  · simpa [h] using hm
  · exact hf a s' h (by simpa [h] using hm)

end Attempt

end Blot.Support
