import Mathlib.Order.Lattice.Nat

/-!
# Arenas with an undo journal

An arena is a list of cells that grows at its end; a journal lists the changes made to its cells, newest first.  An
entry `e` changed the cell `place e`, and `back e` takes the change back.

* `Journal.unwind` — taking the changes back, newest first;
* `Journal.Since` — the arena grew and its old cells changed by journalled steps only, so that unwinding the new
  entries and dropping the new cells gives the old arena.  It is a preorder, and each step of an arena lies in it.
-/

namespace Blot.Support.Journal

variable {E V : Type} (place : E → ℕ) (back : E → V → V)

def unwind : List E → List V → List V
  | [], cells => cells
  | e :: rest, cells => unwind rest (cells.modify (place e) (back e))

@[simp] theorem unwind_nil (cells : List V) : unwind place back [] cells = cells := rfl

@[simp] theorem unwind_cons (e : E) (js : List E) (cells : List V) :
    unwind place back (e :: js) cells = unwind place back js (cells.modify (place e) (back e)) := rfl

theorem unwind_append (js ks : List E) (cells : List V) :
    unwind place back (js ++ ks) cells = unwind place back ks (unwind place back js cells) := by
  induction js generalizing cells with
  | nil => rfl
  | cons e js ih => exact ih _

theorem unwind_take (n : ℕ) (js : List E) (cells : List V) :
    unwind place back js (cells.take n) = (unwind place back js cells).take n := by
  induction js generalizing cells with
  | nil => rfl
  | cons e js ih => rw [unwind_cons, unwind_cons, ← List.take_modify, ih]

/-- The arena and journal `new` were reached from `old` by growing and by journalled changes of the old cells. -/
def Since (old new : List E × List V) : Prop :=
  old.2.length ≤ new.2.length ∧
    ∃ js, new.1 = js ++ old.1 ∧ (unwind place back js new.2).take old.2.length = old.2

variable {place back} {old mid new : List E × List V}

theorem Since.refl (old : List E × List V) : Since place back old old :=
  ⟨le_rfl, [], rfl, by simp⟩

theorem Since.trans (h₁ : Since place back old mid) (h₂ : Since place back mid new) :
    Since place back old new := by
  obtain ⟨hlen₁, js, hjs, hold⟩ := h₁
  obtain ⟨hlen₂, ks, hks, hmid⟩ := h₂
  refine ⟨hlen₁.trans hlen₂, ks ++ js, by rw [hks, hjs, List.append_assoc], ?_⟩
  have hmin : min old.2.length mid.2.length = old.2.length := min_eq_left hlen₁
  calc (unwind place back (ks ++ js) new.2).take old.2.length
      = ((unwind place back js (unwind place back ks new.2)).take mid.2.length).take old.2.length := by
        rw [unwind_append, List.take_take, hmin]
    _ = (unwind place back js mid.2).take old.2.length := by rw [← unwind_take, hmid]
    _ = old.2 := hold

/-- A journalled change of one cell. -/
theorem Since.change {e : E} {f : V → V} (hback : ∀ v, back e (f v) = v) (old : List E × List V) :
    Since place back old (e :: old.1, old.2.modify (place e) f) := by
  refine ⟨by simp, [e], rfl, ?_⟩
  have hid : (back e ∘ f) = id := funext hback
  rw [unwind_cons, unwind_nil, List.modify_modify_eq, hid, List.modify_id, List.take_length]

theorem Since.grow (old : List E × List V) (cells : List V) : Since place back old (old.1, old.2 ++ cells) :=
  ⟨by simp, [], rfl, by simp⟩

/-- A change of a cell that `old` does not have needs no entry. -/
theorem Since.overwrite {i : ℕ} {f : V → V} (h : Since place back old new) (hi : old.2.length ≤ i) :
    Since place back old (new.1, new.2.modify i f) := by
  obtain ⟨hlen, js, hjs, hold⟩ := h
  refine ⟨by simpa using hlen, js, hjs, ?_⟩
  have hnew : (new.2.modify i f).take old.2.length = new.2.take old.2.length := by
    rw [List.take_modify, List.modify_eq_self]
    simp only [List.length_take]
    omega
  rw [← unwind_take, hnew, unwind_take, hold]

end Blot.Support.Journal
