import Mathlib.Data.List.Basic
import Mathlib.Logic.Relation
import Mathlib.Data.Nat.Init

/-!
# Conditions that ask in turn

A condition is built from tests and questions by short-circuit conjunction and disjunction: `Holds` is its value and
`Asks` the questions that it comes to, both under what the questions answer.

A procedure that answers each question by a condition over smaller questions (`rules`) is compared with what the
questions mean.  `Comes` are the questions that it comes to, and a rule is `Fair` when it is right about its question
for right answers to what it asks.  `answer_iff` and `right_iff_fair` say that fair rules are what right answers take.
-/

namespace Blot.Support

open Relation

inductive Condition (α : Type) where
  | test (holds : Bool)
  | ask (question : α)
  | both (first second : Condition α)
  | either (first second : Condition α)

namespace Condition

variable {α : Type} {answer answer' : α → Prop}

def Holds (answer : α → Prop) : Condition α → Prop
  | test holds => holds = true
  | ask question => answer question
  | both first second => first.Holds answer ∧ second.Holds answer
  | either first second => first.Holds answer ∨ second.Holds answer

/-- The condition comes to ask `question`. -/
def Asks (answer : α → Prop) (question : α) : Condition α → Prop
  | test _ => False
  | ask asked => question = asked
  | both first second => first.Asks answer question ∨ first.Holds answer ∧ second.Asks answer question
  | either first second => first.Asks answer question ∨ ¬ first.Holds answer ∧ second.Asks answer question

def all (conditions : List (Condition α)) : Condition α := conditions.foldr both (test true)

def any (conditions : List (Condition α)) : Condition α := conditions.foldr either (test false)

@[simp]
theorem holds_test {b : Bool} : (test b : Condition α).Holds answer ↔ b = true := Iff.rfl

@[simp]
theorem holds_ask {question : α} : (ask question).Holds answer ↔ answer question := Iff.rfl

@[simp]
theorem holds_both {c d : Condition α} : (c.both d).Holds answer ↔ c.Holds answer ∧ d.Holds answer := Iff.rfl

@[simp]
theorem holds_all {cs : List (Condition α)} : (all cs).Holds answer ↔ ∀ c ∈ cs, c.Holds answer := by
  induction cs with
  | nil => simp [all]
  | cons c cs ih =>
    rw [List.forall_mem_cons, ← ih]
    rfl

@[simp]
theorem holds_any {cs : List (Condition α)} : (any cs).Holds answer ↔ ∃ c ∈ cs, c.Holds answer := by
  induction cs with
  | nil => simp [any]
  | cons c cs ih =>
    rw [List.exists_mem_cons_iff, ← ih]
    rfl

theorem Asks.of_all {cs : List (Condition α)} {question : α} (h : (all cs).Asks answer question) :
    ∃ c ∈ cs, c.Asks answer question := by
  induction cs with
  | nil => exact h.elim
  | cons c cs ih =>
    rcases h with h | ⟨-, h⟩
    · exact ⟨c, List.mem_cons_self, h⟩
    · obtain ⟨d, hd, h⟩ := ih h
      exact ⟨d, List.mem_cons_of_mem _ hd, h⟩

theorem Asks.of_any {cs : List (Condition α)} {question : α} (h : (any cs).Asks answer question) :
    ∃ c ∈ cs, c.Asks answer question := by
  induction cs with
  | nil => exact h.elim
  | cons c cs ih =>
    rcases h with h | ⟨-, h⟩
    · exact ⟨c, List.mem_cons_self, h⟩
    · obtain ⟨d, hd, h⟩ := ih h
      exact ⟨d, List.mem_cons_of_mem _ hd, h⟩

/-- **The questions that are asked decide.** -/
theorem holds_congr {c : Condition α} (h : ∀ question, c.Asks answer question → (answer' question ↔ answer question)) :
    c.Holds answer' ↔ c.Holds answer := by
  induction c with
  | test b => rfl
  | ask question => exact h question rfl
  | both c d ihc ihd =>
    have hc := ihc fun question hq => h question (.inl hq)
    by_cases hold : c.Holds answer
    · exact and_congr hc (ihd fun question hq => h question (.inr ⟨hold, hq⟩))
    · exact iff_of_false (fun h' => hold (hc.1 h'.1)) fun h' => hold h'.1
  | either c d ihc ihd =>
    have hc := ihc fun question hq => h question (.inl hq)
    by_cases hold : c.Holds answer
    · exact iff_of_true (.inl (hc.2 hold)) (.inl hold)
    · exact or_congr hc (ihd fun question hq => h question (.inr ⟨hold, hq⟩))

end Condition

/-! ### Answering by conditions -/

section Rules

variable {α : Type} (rules : α → Condition α) (meaning : α → Prop)

/-- The questions that are asked on the way to an answer to the first, where the answers are right. -/
def Comes : α → α → Prop := ReflTransGen fun x y => (rules x).Asks meaning y

/-- The rule of a question is right about it, given right answers to what it asks. -/
def Fair (x : α) : Prop := (rules x).Holds meaning ↔ meaning x

variable {rules meaning} {answer : α → Prop} (hanswer : ∀ x, answer x ↔ (rules x).Holds answer)

include hanswer

/-- **Fair rules give the right answer.** -/
theorem answer_iff {size : α → ℕ} (hsize : ∀ x y, (rules x).Asks meaning y → size y < size x) {x : α}
    (hfair : ∀ y, Comes rules meaning x y → Fair rules meaning y) : answer x ↔ meaning x := by
  induction hn : size x using Nat.strong_induction_on generalizing x with
  | h n ih =>
    subst hn
    have hasked : ∀ y, (rules x).Asks meaning y → (answer y ↔ meaning y) := fun y hy =>
      ih (size y) (hsize x y hy) (fun z hz => hfair z (.head hy hz)) rfl
    calc
      answer x ↔ (rules x).Holds answer := hanswer x
      _ ↔ (rules x).Holds meaning := Condition.holds_congr hasked
      _ ↔ meaning x := hfair x .refl

/-- **All answers on the way are right exactly when all rules are fair.** -/
theorem right_iff_fair {m : α → ℕ} (hm : ∀ x y, (rules x).Asks meaning y → m y < m x) (x : α) :
    (∀ y, Comes rules meaning x y → (answer y ↔ meaning y)) ↔ ∀ y, Comes rules meaning x y → Fair rules meaning y := by
  constructor
  · intro hright y hy
    have hasked : ∀ z, (rules y).Asks meaning z → (answer z ↔ meaning z) := fun z hz => hright z (hy.tail hz)
    calc
      (rules y).Holds meaning ↔ (rules y).Holds answer := (Condition.holds_congr hasked).symm
      _ ↔ answer y := (hanswer y).symm
      _ ↔ meaning y := hright y hy
  · exact fun hfair y hy => answer_iff hanswer hm fun z hz => hfair z (hy.trans hz)

end Rules

end Blot.Support
