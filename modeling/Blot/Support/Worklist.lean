import Mathlib.Data.List.Basic
import Mathlib.Logic.Relation

/-!
# Worklists

A stack of items: the last one is taken, dropped if it was seen before, and otherwise marked as seen, with what it
leads to put on the stack.  The number of rounds is bounded; `explore_finishes` says how many are enough, and
`mem_explore` what has been seen in the end.
-/

namespace Blot.Support

variable {A : Type} [DecidableEq A]

def explore (next : A → List A) : ℕ → List A → List A → Option (List A)
  | _, [], seen => some seen
  | 0, _ :: _, _ => none
  | rounds + 1, item :: stack, seen =>
    if item ∈ seen then explore next rounds stack seen
    else explore next rounds ((next item).reverse ++ stack) (item :: seen)

abbrev LeadsTo (next : A → List A) : A → A → Prop := Relation.ReflTransGen fun a b => b ∈ next a

section Explored

variable {next : A → List A}

/-- What is seen in the end: what was seen before, or what an item of the stack leads to. -/
theorem explore_sound {rounds : ℕ} {stack seen result : List A} (h : explore next rounds stack seen = some result) :
    ∀ a ∈ result, a ∈ seen ∨ ∃ b ∈ stack, LeadsTo next b a := by
  induction rounds generalizing stack seen with
  | zero =>
    cases stack with
    | nil =>
      cases h
      exact fun a ha => Or.inl ha
    | cons item stack => cases h
  | succ rounds ih =>
    cases stack with
    | nil =>
      cases h
      exact fun a ha => Or.inl ha
    | cons item stack =>
      intro a ha
      rw [explore] at h
      split at h
      · rcases ih h a ha with hseen | ⟨b, hb, hlead⟩
        · exact Or.inl hseen
        · exact Or.inr ⟨b, List.mem_cons_of_mem _ hb, hlead⟩
      · rcases ih h a ha with hseen | ⟨b, hb, hlead⟩
        · rcases List.mem_cons.1 hseen with rfl | hseen
          · exact Or.inr ⟨a, by simp, .refl⟩
          · exact Or.inl hseen
        · rcases List.mem_append.1 hb with hb | hb
          · exact Or.inr ⟨item, by simp, .head (List.mem_reverse.1 hb) hlead⟩
          · exact Or.inr ⟨b, List.mem_cons_of_mem _ hb, hlead⟩

/-- What is seen in the end contains what was seen, what is on the stack, and what its new items lead to. -/
theorem explore_complete {rounds : ℕ} {stack seen result : List A} (h : explore next rounds stack seen = some result) :
    seen ⊆ result ∧ stack ⊆ result ∧ ∀ a ∈ result, a ∉ seen → next a ⊆ result := by
  induction rounds generalizing stack seen with
  | zero =>
    cases stack with
    | nil =>
      cases h
      exact ⟨fun _ ha => ha, by simp, fun a ha hnot => absurd ha hnot⟩
    | cons item stack => cases h
  | succ rounds ih =>
    cases stack with
    | nil =>
      cases h
      exact ⟨fun _ ha => ha, by simp, fun a ha hnot => absurd ha hnot⟩
    | cons item stack =>
      rw [explore] at h
      split at h
      · next hitem =>
        obtain ⟨hseen, hstack, hnext⟩ := ih h
        exact ⟨hseen, List.cons_subset.2 ⟨hseen hitem, hstack⟩, hnext⟩
      · obtain ⟨hseen, hstack, hnext⟩ := ih h
        obtain ⟨hitem, hseen⟩ := List.cons_subset.1 hseen
        obtain ⟨hlead, hstack⟩ := List.append_subset.1 hstack
        refine ⟨hseen, List.cons_subset.2 ⟨hitem, hstack⟩, fun a ha hnot => ?_⟩
        by_cases he : a = item
        · subst he
          exact fun b hb => hlead (List.mem_reverse.2 hb)
        · exact hnext a ha (by simp [he, hnot])

/-- **What a finished search has seen** is what the items of the stack lead to. -/
theorem mem_explore {rounds : ℕ} {stack result : List A} (h : explore next rounds stack [] = some result) (a : A) :
    a ∈ result ↔ ∃ b ∈ stack, LeadsTo next b a := by
  obtain ⟨_, hstack, hnext⟩ := explore_complete h
  constructor
  · intro ha
    rcases explore_sound h a ha with hseen | hlead
    · cases hseen
    · exact hlead
  · rintro ⟨b, hb, hlead⟩
    induction hlead with
    | refl => exact hstack hb
    | tail _ hstep ih => exact hnext _ ih (by simp) hstep

theorem explore_nodup {rounds : ℕ} {stack seen result : List A} (hseen : seen.Nodup)
    (h : explore next rounds stack seen = some result) : result.Nodup := by
  induction rounds generalizing stack seen with
  | zero =>
    cases stack with
    | nil =>
      cases h
      exact hseen
    | cons item stack => cases h
  | succ rounds ih =>
    cases stack with
    | nil =>
      cases h
      exact hseen
    | cons item stack =>
      rw [explore] at h
      split at h
      · exact ih hseen h
      · next hnew => exact ih (List.nodup_cons.2 ⟨hnew, hseen⟩) h

theorem explore_mono {rounds rounds' : ℕ} (hle : rounds ≤ rounds') {stack seen result : List A}
    (h : explore next rounds stack seen = some result) : explore next rounds' stack seen = some result := by
  induction rounds generalizing rounds' stack seen with
  | zero =>
    cases stack with
    | nil =>
      cases h
      cases rounds' <;> rfl
    | cons item stack => cases h
  | succ rounds ih =>
    obtain ⟨rounds', rfl⟩ := Nat.exists_eq_add_one_of_ne_zero (n := rounds') (by omega)
    have hle : rounds ≤ rounds' := by omega
    cases stack with
    | nil => exact h
    | cons item stack =>
      rw [explore] at h ⊢
      split at h
      · next hitem => rw [if_pos hitem, ih hle h]
      · next hitem => rw [if_neg hitem, ih hle h]

/-- **Enough rounds**: where all that can be seen is in a list, and no item leads to more than `width` others, one
round for each place on the stack and `width + 1` for each item of the list. -/
theorem explore_finishes {whole : List A} {width : ℕ} (hclosed : ∀ a ∈ whole, next a ⊆ whole)
    (hwidth : ∀ a ∈ whole, (next a).length ≤ width) {rounds : ℕ} {stack seen : List A} (hstack : stack ⊆ whole)
    (hrounds : (whole.filter (· ∉ seen)).length * (width + 1) + stack.length ≤ rounds) :
    ∃ result, explore next rounds stack seen = some result := by
  induction rounds generalizing stack seen with
  | zero =>
    cases stack with
    | nil => exact ⟨seen, rfl⟩
    | cons item stack => simp at hrounds
  | succ rounds ih =>
    cases stack with
    | nil => exact ⟨seen, rfl⟩
    | cons item stack =>
      obtain ⟨hitem, hstack⟩ := List.cons_subset.1 hstack
      rw [List.length_cons] at hrounds
      rw [explore]
      split
      · exact ih hstack (by omega)
      · next hnew =>
        refine ih (List.append_subset.2 ⟨fun a ha => hclosed item hitem (List.mem_reverse.1 ha), hstack⟩) ?_
        -- the item is no longer among those that are not seen
        have hfewer : (whole.filter (· ∉ item :: seen)).length < (whole.filter (· ∉ seen)).length := by
          have hsub : whole.filter (· ∉ item :: seen) = (whole.filter (· ∉ seen)).filter (· ≠ item) := by
            rw [List.filter_filter]
            refine List.filter_congr fun a _ => ?_
            simp
          rw [hsub]
          refine List.length_filter_lt_length_iff_exists.2 ⟨item, ?_, by simp⟩
          exact List.mem_filter.2 ⟨hitem, by simpa using hnew⟩
        have hw := hwidth item hitem
        rw [List.length_append, List.length_reverse]
        have hmul := Nat.mul_le_mul_right (width + 1) (Nat.succ_le_of_lt hfewer)
        rw [Nat.succ_mul] at hmul
        omega

theorem explore_eventually {whole : List A} {width : ℕ} (hclosed : ∀ a ∈ whole, next a ⊆ whole)
    (hwidth : ∀ a ∈ whole, (next a).length ≤ width) {stack : List A} (hstack : stack ⊆ whole) (seen : List A) :
    ∃ result n, ∀ rounds ≥ n, explore next rounds stack seen = some result := by
  obtain ⟨result, h⟩ := explore_finishes hclosed hwidth hstack
    (Nat.le_refl ((whole.filter (· ∉ seen)).length * (width + 1) + stack.length))
  exact ⟨result, _, fun rounds hrounds => explore_mono hrounds h⟩

end Explored

end Blot.Support
