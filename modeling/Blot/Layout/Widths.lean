import Mathlib.Data.List.TakeWhile
import Blot.Layout.Trivia
import Blot.Layout.Offsets

/-!
# The width of a line's indentation

The elaborator measures a line from the last line feed of the gap before its token, or from the last carriage return when
the gap has no line feed; `source_indent_width` measures from whichever of the two comes last.  The two differ by what
stands between the last line feed and a later carriage return.
-/

namespace Blot.Layout

open Frontend
open Blot.Support (bind_eq_ok demand_eq_ok)

/-! ### Last positions -/

section LastIndex

variable {p : UInt16 → Bool}

theorem lastIndex_none : ∀ {text : List UInt16}, lastIndex p text = none ↔ ∀ unit ∈ text, p unit = false
  | [] => ⟨fun _ _ hu => (nomatch hu), fun _ => rfl⟩
  | unit :: rest => by
    rw [lastIndex, List.forall_mem_cons, ← lastIndex_none]
    cases lastIndex p rest with
    | some index => simp
    | none => cases p unit <;> simp

theorem lastIndex_of_split : ∀ {front back : List UInt16} {unit : UInt16}, p unit = true →
    (∀ u ∈ back, p u = false) → lastIndex p (front ++ unit :: back) = some front.length
  | [], back, unit, hp, hback => by
    rw [List.nil_append, lastIndex, lastIndex_none.mpr hback]
    exact if_pos hp
  | head :: front, back, unit, hp, hback => by
    rw [List.cons_append, lastIndex, lastIndex_of_split hp hback]
    rfl

theorem split_of_lastIndex : ∀ {text : List UInt16} {index : ℕ}, lastIndex p text = some index →
    ∃ front unit back, text = front ++ unit :: back ∧ p unit = true ∧ (∀ u ∈ back, p u = false) ∧ front.length = index
  | [], _, h => nomatch h
  | unit :: rest, index, h => by
    rw [lastIndex] at h
    cases hrest : lastIndex p rest with
    | some found =>
      rw [hrest] at h
      cases h
      obtain ⟨front, u, back, rfl, hp, hback, rfl⟩ := split_of_lastIndex hrest
      exact ⟨unit :: front, u, back, rfl, hp, hback, rfl⟩
    | none =>
      rw [hrest] at h
      cases hp : p unit with
      | false =>
        simp only [hp] at h
        cases h
      | true =>
        simp only [hp] at h
        cases h
        exact ⟨[], unit, rest, rfl, hp, lastIndex_none.mp hrest, rfl⟩

end LastIndex

/-! ### Widths -/

theorem widthFrom_append : ∀ (width : ℕ) (text more : List UInt16),
    widthFrom width (text ++ more) = (widthFrom width text).bind fun width => widthFrom width more
  | _, [], _ => rfl
  | width, unit :: rest, more => by
    rw [List.cons_append, widthFrom, widthFrom]
    split
    · exact widthFrom_append _ rest more
    · split
      · exact widthFrom_append _ rest more
      · split
        · exact widthFrom_append _ rest more
        · rfl

theorem widthFrom_blank : ∀ (width : ℕ) {text : List UInt16}, (∀ unit ∈ text, isBlank unit = true) →
    ∃ width', widthFrom width text = some width'
  | width, [], _ => ⟨width, rfl⟩
  | width, unit :: rest, h => by
    obtain ⟨hunit, hrest⟩ := List.forall_mem_cons.mp h
    rw [widthFrom]
    split
    · exact widthFrom_blank _ hrest
    · split
      · exact widthFrom_blank _ hrest
      · rename_i hspace htab
        exact absurd hunit (by simp [isBlank, hspace, htab])

def leadingSpaces (line : List UInt16) : ℕ := (line.takeWhile fun unit => unit = 32).length

/-- **When a line has the same width from two columns**: they are the same, or the first tab of the line takes both to the
same tab stop. -/
theorem widthFrom_eq_iff : ∀ {line : List UInt16}, (∀ unit ∈ line, isBlank unit = true) → ∀ (width width' : ℕ),
    widthFrom width line = widthFrom width' line ↔ width = width' ∨
      (9 ∈ line ∧ (width + leadingSpaces line) / 8 = (width' + leadingSpaces line) / 8)
  | [], _, width, width' => by simp [widthFrom]
  | unit :: rest, h, width, width' => by
    obtain ⟨hunit, hrest⟩ := List.forall_mem_cons.mp h
    by_cases hspace : unit = 32
    · subst hspace
      have hlead : leadingSpaces (32 :: rest) = leadingSpaces rest + 1 := by
        simp [leadingSpaces]
      have hmem : (9 : UInt16) ∈ (32 :: rest) ↔ (9 : UInt16) ∈ rest := by
        rw [List.mem_cons]
        exact or_iff_right (by decide)
      rw [widthFrom, widthFrom, if_pos rfl, if_pos rfl, widthFrom_eq_iff hrest, hlead, hmem, Nat.add_right_cancel_iff,
        Nat.add_right_comm width, Nat.add_right_comm width', Nat.add_assoc, Nat.add_assoc]
    · have htab : unit = 9 := by
        simpa [isBlank, hspace] using hunit
      subst htab
      have hlead : leadingSpaces (9 :: rest) = 0 := by
        simp [leadingSpaces]
      rw [widthFrom, widthFrom, if_neg hspace, if_neg hspace, if_pos rfl, if_pos rfl, widthFrom_eq_iff hrest, hlead]
      have hstop : ∀ w : ℕ, w + (8 - w % 8) = 8 * (w / 8 + 1) := by
        intro w
        omega
      rw [hstop, hstop]
      constructor
      · rintro (he | ⟨-, he⟩)
        · exact .inr ⟨by simp, by omega⟩
        · exact .inr ⟨by simp, by omega⟩
      · rintro (rfl | ⟨-, he⟩)
        · exact .inl rfl
        · exact .inl (by omega)

/-! ### The two measurements -/

/-- What stands in a gap between its last line feed and a later carriage return, with that one. -/
def between (gap : List UInt16) : List UInt16 :=
  match lastIndex isLineFeed gap with
  | none => []
  | some feed =>
    match lastIndex isCarriageReturn (gap.drop (feed + 1)) with
    | none => []
    | some ret => (gap.drop (feed + 1)).take (ret + 1)

def lineText (gap : List UInt16) : List UInt16 := gap.drop ((lastIndex isNewline gap).elim 0 (· + 1))

/-- The two measurements of a line agree: between the last line feed and a later carriage return there is no comment,
and the blanks there are none, or the first tab of the line takes them up. -/
def Aligned (gap : List UInt16) : Prop :=
  ∃ width, indentationWidth (between gap) = some width ∧
    (width = 0 ∨ (9 ∈ lineText gap ∧ (width + leadingSpaces (lineText gap)) / 8 = leadingSpaces (lineText gap) / 8))

theorem lineText_of_split {front line : List UInt16} {unit : UInt16} (hunit : isNewline unit = true)
    (hline : ∀ u ∈ line, isNewline u = false) :
    lastIndex isNewline (front ++ unit :: line) = some front.length ∧ lineText (front ++ unit :: line) = line := by
  have hlast : lastIndex isNewline (front ++ unit :: line) = some front.length := lastIndex_of_split hunit hline
  refine ⟨hlast, ?_⟩
  rw [lineText, hlast]
  show (front ++ unit :: line).drop (front.length + 1) = line
  rw [← List.drop_drop, List.drop_left]
  rfl

theorem not_newline {unit : UInt16} (h : isLineFeed unit = false) (h' : isCarriageReturn unit = false) :
    isNewline unit = false := by
  rw [isNewline, h, h']
  rfl

/-- A gap with a line end, at its last one: the elaborator measures from the last line feed, so it takes what stands
between that and the line. -/
theorem split_gap {gap : List UInt16} {newline : ℕ} (h : lastNewlineEnd gap = some newline) :
    ∃ front unit, gap = front ++ unit :: lineText gap ∧ isNewline unit = true ∧
      (∀ u ∈ lineText gap, isNewline u = false) ∧ gap.drop newline = between gap ++ lineText gap ∧
      newline ≤ gap.length := by
  unfold lastNewlineEnd at h
  cases hfeed : lastIndex isLineFeed gap with
  | some feed =>
    rw [hfeed] at h
    cases h
    obtain ⟨front, unit, back, rfl, hunit, hback, rfl⟩ := split_of_lastIndex hfeed
    have hdrop : (front ++ unit :: back).drop (front.length + 1) = back := by
      rw [← List.drop_drop, List.drop_left]
      rfl
    have hnewline : isNewline unit = true := by rw [isNewline, hunit, Bool.true_or]
    have hle : front.length + 1 ≤ (front ++ unit :: back).length := by simp
    cases hreturn : lastIndex isCarriageReturn back with
    | none =>
      have hline : ∀ u ∈ back, isNewline u = false :=
        fun u hu => not_newline (hback u hu) (lastIndex_none.mp hreturn u hu)
      have hbetween : between (front ++ unit :: back) = [] := by
        unfold between
        rw [hfeed]
        simp only [hdrop, hreturn]
      rw [hdrop, hbetween, (lineText_of_split hnewline hline).2]
      exact ⟨front, unit, rfl, hnewline, hline, rfl, hle⟩
    | some ret =>
      obtain ⟨front', unit', line, rfl, hunit', hline', rfl⟩ := split_of_lastIndex hreturn
      have hnewline' : isNewline unit' = true := by rw [isNewline, hunit', Bool.or_true]
      have hline : ∀ u ∈ line, isNewline u = false :=
        fun u hu => not_newline (hback u (by simp [hu])) (hline' u hu)
      have hbetween : between (front ++ unit :: (front' ++ unit' :: line)) = front' ++ [unit'] := by
        unfold between
        rw [hfeed]
        simp only [hdrop, hreturn]
        rw [List.take_append, List.take_of_length_le (Nat.le_succ _), Nat.add_sub_cancel_left]
        rfl
      have hsplit : front ++ unit :: (front' ++ unit' :: line) = (front ++ unit :: front') ++ unit' :: line := by simp
      rw [hdrop, hbetween]
      rw [hsplit, (lineText_of_split hnewline' hline).2]
      exact ⟨_, unit', rfl, hnewline', hline, by simp, by rw [← hsplit]; exact hle⟩
  | none =>
    rw [hfeed] at h
    obtain ⟨ret, hreturn, rfl⟩ := Option.map_eq_some_iff.mp h
    obtain ⟨front, unit, line, rfl, hunit, hline', rfl⟩ := split_of_lastIndex hreturn
    have hnewline : isNewline unit = true := by rw [isNewline, hunit, Bool.or_true]
    have hline : ∀ u ∈ line, isNewline u = false :=
      fun u hu => not_newline (lastIndex_none.mp hfeed u (by simp [hu])) (hline' u hu)
    have hbetween : between (front ++ unit :: line) = [] := by
      unfold between
      rw [hfeed]
    rw [hbetween, (lineText_of_split hnewline hline).2]
    refine ⟨front, unit, rfl, hnewline, hline, ?_, by simp⟩
    rw [← List.drop_drop, List.drop_left]
    rfl

section Lines

variable {source : List UInt16} {previous token : Token} {gap : List UInt16}

theorem take_eq (hdrop : source.drop previous.stop = gap ++ source.drop token.start)
    (hstart : token.start = previous.stop + gap.length) :
    source.take token.start = source.take previous.stop ++ gap := by
  rw [hstart, List.take_add, hdrop, List.take_left]

theorem sourceIndentWidth_eq {offset : ℕ} (hle : offset ≤ source.length) {front line : List UInt16} {unit : UInt16}
    (hsplit : source.take offset = front ++ unit :: line) (hunit : isNewline unit = true)
    (hline : ∀ u ∈ line, isNewline u = false) (hblank : ∀ u ∈ line, isBlank u = true) {width : ℕ}
    (hwidth : indentationWidth line = some width) : sourceIndentWidth source offset = .ok width := by
  have hlast : lastIndex isNewline (front ++ unit :: line) = some front.length := lastIndex_of_split hunit hline
  have hlength : front.length + 1 ≤ offset := by
    have := congrArg List.length hsplit
    rw [List.length_take, Nat.min_eq_left hle, List.length_append, List.length_cons] at this
    omega
  have hdrop : (source.take offset).drop (front.length + 1) = line := by
    rw [hsplit, ← List.drop_drop, List.drop_left]
    rfl
  unfold sourceIndentWidth
  rw [range_of_le (Nat.zero_le _) hle]
  show (do
    let line ← range source ((lastIndex isNewline (source.take offset)).elim 0 (· + 1)) offset
    _) = _
  rw [hsplit, hlast, Option.elim_some, range_of_le hlength hle, hdrop]
  show Support.demand (indentationWidth (line.takeWhile isBlank)) _ = _
  rw [List.takeWhile_eq_self_iff.mpr hblank, hwidth]
  rfl

theorem sourceIndentWidth_ok {offset : ℕ} (hle : offset ≤ source.length) :
    ∃ width, sourceIndentWidth source offset = .ok width := by
  have hstart : (lastIndex isNewline (source.take offset)).elim 0 (· + 1) ≤ offset := by
    cases hlast : lastIndex isNewline (source.take offset) with
    | none => exact Nat.zero_le _
    | some index =>
      obtain ⟨front, unit, back, hsplit, -, -, rfl⟩ := split_of_lastIndex hlast
      have := congrArg List.length hsplit
      rw [List.length_take, Nat.min_eq_left hle, List.length_append, List.length_cons] at this
      show front.length + 1 ≤ offset
      omega
  obtain ⟨width, hwidth⟩ := widthFrom_blank 0
   
    fun unit hu => List.mem_takeWhile_imp hu
  refine ⟨width, ?_⟩
  unfold sourceIndentWidth
  rw [range_of_le (Nat.zero_le _) hle]
  show (do
    let line ← range source ((lastIndex isNewline (source.take offset)).elim 0 (· + 1)) offset
    _) = _
  rw [range_of_le hstart hle]
  show Support.demand (indentationWidth _) _ = _
  rw [indentationWidth, hwidth]
  rfl

/-- **The two measurements of a line**: the one of the elaborator succeeds and gives the same as `source_indent_width`
exactly when the gap is aligned. -/
theorem lineIndent_iff (hgap : Trivia gap) (hdrop : source.drop previous.stop = gap ++ source.drop token.start)
    (hstart : token.start = previous.stop + gap.length) (hle : token.start ≤ source.length) {newline : ℕ}
    (hnewline : lastNewlineEnd gap = some newline) :
    (∃ width, lineIndent source (previous.stop + newline) token = .ok width ∧
      sourceIndentWidth source token.start = .ok width) ↔ Aligned gap := by
  obtain ⟨front, unit, hsplit, hunit, hline, htext, hnle⟩ := split_gap hnewline
  have hblank := hgap.tail hsplit hunit hline
  have htake := take_eq hdrop hstart
  obtain ⟨width, hwidth⟩ := widthFrom_blank 0 hblank
  have hbefore : source.take token.start = (source.take previous.stop ++ front) ++ unit :: lineText gap := by
    rw [htake, List.append_assoc]
    exact congrArg _ hsplit
  have hsource := sourceIndentWidth_eq hle hbefore hunit hline hblank hwidth
  have hlineText : (source.take token.start).drop (previous.stop + newline) = between gap ++ lineText gap := by
    rw [htake, ← htext]
    have hlength : (source.take previous.stop).length = previous.stop := by
      rw [List.length_take, Nat.min_eq_left (by omega)]
    rw [← List.drop_drop, List.drop_left' hlength]
  have hindent : lineIndent source (previous.stop + newline) token =
      Support.demand (indentationWidth (between gap ++ lineText gap))
        (.panicked "Baba left non-trivia text in indentation") := by
    unfold lineIndent
    rw [range_of_le (by omega) hle, hlineText]
    rfl
  rw [hsource, hindent, indentationWidth, widthFrom_append]
  constructor
  · rintro ⟨width', hlineWidth, he⟩
    cases he
    obtain ⟨w, hbetween, hrest⟩ := Option.bind_eq_some_iff.mp (demand_eq_ok.mp hlineWidth)
    refine ⟨w, hbetween, ?_⟩
    rw [← hwidth] at hrest
    have := (widthFrom_eq_iff hblank w 0).mp hrest
    rwa [Nat.zero_add] at this
  · rintro ⟨w, hbetween, hw⟩
    refine ⟨width, demand_eq_ok.mpr ?_, rfl⟩
    rw [show widthFrom 0 (between gap) = some w from hbetween, Option.bind_some, ← hwidth]
    refine (widthFrom_eq_iff hblank w 0).mpr ?_
    rwa [Nat.zero_add]

end Lines

end Blot.Layout
