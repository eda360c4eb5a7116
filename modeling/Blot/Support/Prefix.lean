import Mathlib.Data.String.Basic
import Std.Data.String.ToInt

/-!
# Texts that are read unambiguously

A word is read off a list when what follows it tells where it ends.  Words between separators, sized texts and numbers
are read so.
-/

namespace Blot.Support

variable {A : Type}

/-- What follows a word: nothing, or a letter that ends it. -/
def Closes (closing : A → Prop) (r : List A) : Prop := ∀ a ∈ r.head?, closing a

/-- The word `x` is told from every word of `K` by what follows. -/
def Reads (closing : A → Prop) (K : List A → Prop) (x : List A) : Prop :=
  ∀ y r r', K y → Closes closing r → Closes closing r' → x ++ r = y ++ r' → x = y

section Words

variable {closing : A → Prop} {p : A → Prop} {x y r r' : List A}

theorem closes_cons {a : A} (h : closing a) : Closes closing (a :: r) := by
  intro b hb
  obtain rfl := Option.some.inj hb
  exact h

theorem closes_nil : Closes closing ([] : List A) := by
  intro b hb
  cases hb

theorem Closes.imp {closing' : A → Prop} (h : Closes closing r) (himp : ∀ a, closing a → closing' a) :
    Closes closing' r :=
  fun a ha => himp a (h a ha)

/-- **Words of other letters** than what follows them. -/
theorem word_unique (h : x ++ r = y ++ r') (hx : ∀ a ∈ x, p a) (hy : ∀ a ∈ y, p a) (hr : Closes (fun a => ¬ p a) r)
    (hr' : Closes (fun a => ¬ p a) r') : x = y ∧ r = r' := by
  induction x generalizing y with
  | nil =>
    cases y with
    | nil => exact ⟨rfl, h⟩
    | cons b y =>
      rw [List.nil_append, List.cons_append] at h
      exact absurd (hy b List.mem_cons_self) (hr b (by rw [h]; rfl))
  | cons a x ih =>
    cases y with
    | nil =>
      rw [List.nil_append, List.cons_append] at h
      exact absurd (hx a List.mem_cons_self) (hr' a (by rw [← h]; rfl))
    | cons b y =>
      rw [List.cons_append, List.cons_append] at h
      obtain ⟨rfl, htail⟩ := List.cons.inj h
      rw [List.forall_mem_cons] at hx hy
      obtain ⟨rfl, hrest⟩ := ih htail hx.2 hy.2
      exact ⟨rfl, hrest⟩

/-- **Words between separators.** -/
theorem intercalate_unique {K : List A → Prop} {sep : A} (hsep : closing sep)
    {xs ys : List (List A)} (hxs : ∀ x ∈ xs, (∃ a x', x = a :: x' ∧ ¬ closing a) ∧ Reads closing K x)
    (hys : ∀ y ∈ ys, (∃ a y', y = a :: y' ∧ ¬ closing a) ∧ K y)
    (hr : Closes (fun a => closing a ∧ a ≠ sep) r) (hr' : Closes (fun a => closing a ∧ a ≠ sep) r')
    (h : [sep].intercalate xs ++ r = [sep].intercalate ys ++ r') : xs = ys ∧ r = r' := by
  -- a word is not followed by nothing where another list of words goes on
  have hfirst : ∀ {z : List A} {zs : List (List A)} {s s' : List A}, (∃ a z', z = a :: z' ∧ ¬ closing a) →
      Closes (fun a => closing a ∧ a ≠ sep) s → s ≠ [sep].intercalate (z :: zs) ++ s' := by
    intro z zs s s' hz hs heq
    obtain ⟨a, z', rfl, ha⟩ := hz
    refine ha (hs a ?_).1
    rw [heq]
    cases zs with
    | nil => rw [List.intercalate_singleton]; rfl
    | cons => rw [List.intercalate_cons_cons]; rfl
  induction xs generalizing ys with
  | nil =>
    cases ys with
    | nil => exact ⟨rfl, h⟩
    | cons y ys => exact absurd h (hfirst (hys y List.mem_cons_self).1 hr)
  | cons x xs ih =>
    cases ys with
    | nil => exact absurd h.symm (hfirst (hxs x List.mem_cons_self).1 hr')
    | cons y ys =>
      rw [List.forall_mem_cons] at hxs hys
      obtain ⟨⟨-, hx⟩, hxs⟩ := hxs
      obtain ⟨⟨-, hy⟩, hys⟩ := hys
      have hclose : ∀ {s : List A}, Closes (fun a => closing a ∧ a ≠ sep) s → Closes closing s :=
        fun hs => hs.imp fun _ ha => ha.1
      cases xs with
      | nil =>
        cases ys with
        | nil =>
          rw [List.intercalate_singleton, List.intercalate_singleton] at h
          obtain rfl := hx y r r' hy (hclose hr) (hclose hr') h
          exact ⟨rfl, List.append_cancel_left h⟩
        | cons y' ys =>
          rw [List.intercalate_singleton, List.intercalate_cons_cons, List.append_assoc, List.append_assoc] at h
          obtain rfl := hx y r _ hy (hclose hr) (closes_cons hsep) h
          have hcomma := List.append_cancel_left h
          exact absurd rfl (hr sep (by rw [hcomma]; rfl)).2
      | cons x' xs =>
        cases ys with
        | nil =>
          rw [List.intercalate_singleton, List.intercalate_cons_cons, List.append_assoc, List.append_assoc] at h
          obtain rfl := hx y _ r' hy (closes_cons hsep) (hclose hr') h
          have hcomma := List.append_cancel_left h
          exact absurd rfl (hr' sep (by rw [← hcomma]; rfl)).2
        | cons y' ys =>
          rw [List.intercalate_cons_cons, List.intercalate_cons_cons, List.append_assoc, List.append_assoc,
            List.append_assoc, List.append_assoc] at h
          obtain rfl := hx y _ _ hy (closes_cons hsep) (closes_cons hsep) h
          have hrest := List.append_cancel_left (List.append_cancel_left h)
          obtain ⟨hlists, hends⟩ := ih hxs hys hrest
          exact ⟨by rw [hlists], hends⟩

end Words

section Texts

variable {r r' : List Char}

theorem closes_append {p : Char → Prop} [DecidablePred p] {s : String}
    (h : s.toList.head?.any (fun c => decide (p c)) = true) : Closes p (s.toList ++ r) := by
  obtain ⟨c, hc, hp⟩ := (Option.any_eq_true _ _).1 h
  intro a ha
  rw [List.head?_append_of_ne_nil _ (by rintro hnil; rw [hnil] at hc; cases hc)] at ha
  obtain rfl := Option.some.inj (hc.symm.trans ha)
  exact of_decide_eq_true hp

/-- **Texts of one size.** -/
theorem text_unique {s s' : String} (hsize : s.utf8ByteSize = s'.utf8ByteSize)
    (h : s.toList ++ r = s'.toList ++ r') : s = s' ∧ r = r' := by
  have hlen : String.utf8Len s.toList = String.utf8Len s'.toList := by
    rw [← String.utf8ByteSize_ofList, ← String.utf8ByteSize_ofList, String.ofList_toList, String.ofList_toList, hsize]
  have hsame : s.toList = s'.toList := by
    rcases List.append_eq_append_iff.1 h with ⟨z, hz, -⟩ | ⟨z, hz, -⟩
    · rw [hz, String.utf8Len_append] at hlen
      have hzero : String.utf8Len z = 0 := by omega
      rw [hz, String.utf8Len_eq_zero.1 hzero, List.append_nil]
    · rw [hz, String.utf8Len_append] at hlen
      have hzero : String.utf8Len z = 0 := by omega
      rw [hz, String.utf8Len_eq_zero.1 hzero, List.append_nil]
  rw [hsame] at h
  exact ⟨String.toList_inj.1 hsame, List.append_cancel_left h⟩

theorem nat_digits (n : ℕ) : ∀ c ∈ (toString n).toList, c.isDigit := by
  intro c hc
  have hrepr : (toString n).toList = Nat.toDigits 10 n := Nat.toList_repr
  rw [hrepr] at hc
  exact Nat.isDigit_of_mem_toDigits (by omega) (by omega) hc

/-- **Numbers**, before what is not a digit. -/
theorem nat_unique {n m : ℕ} (h : (toString n).toList ++ r = (toString m).toList ++ r')
    (hr : Closes (fun c => ¬ c.isDigit) r) (hr' : Closes (fun c => ¬ c.isDigit) r') : n = m ∧ r = r' := by
  obtain ⟨hsame, hrest⟩ := word_unique h (nat_digits n) (nat_digits m) hr hr'
  exact ⟨Nat.repr_injective (String.toList_inj.1 hsame), hrest⟩

/-- **Integers**, before what is neither a digit nor a sign. -/
theorem int_unique {n m : ℤ} (h : (toString n).toList ++ r = (toString m).toList ++ r')
    (hr : Closes (fun c => ¬ (c.isDigit ∨ c = '-')) r) (hr' : Closes (fun c => ¬ (c.isDigit ∨ c = '-')) r') :
    n = m ∧ r = r' := by
  have hletters : ∀ k : ℤ, ∀ c ∈ (toString k).toList, c.isDigit ∨ c = '-' := by
    intro k c hc
    cases k with
    | ofNat k => exact .inl (nat_digits k c hc)
    | negSucc k =>
      have hrepr : (toString (Int.negSucc k)).toList = '-' :: (toString (k + 1)).toList := by
        rw [show toString (Int.negSucc k) = "-" ++ toString (k + 1) from rfl, String.toList_append]
        rfl
      rw [hrepr] at hc
      rcases List.mem_cons.1 hc with rfl | hc
      · exact .inr rfl
      · exact .inl (nat_digits (k + 1) c hc)
  obtain ⟨hsame, hrest⟩ := word_unique h (hletters n) (hletters m) hr hr'
  exact ⟨Int.repr_injective (String.toList_inj.1 hsame), hrest⟩

end Texts

end Blot.Support
