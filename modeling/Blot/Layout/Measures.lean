import Blot.Layout.Lines

/-!
# The indentation of the lines that the elaborator starts

A run of the elaborator panics only at a line whose indentation it cannot measure.  It measures every line as
`source_indent_width` does exactly when the gap before every token that starts one is aligned.
-/

namespace Blot.Layout

open Frontend
open Blot.Support (bind_eq_ok demand_eq_ok ok_bind)

section Round

variable {source : List UInt16} {tokens : List Token} {index : ℕ} {token : Token} {progress progress' : Progress}

variable (hp : Placed tokens index progress) (htokens : Ascending source tokens) (htoken : tokens[index]? = some token)

include hp htokens htoken

theorem Placed.before :
    progress.previous.start ≤ progress.previous.stop ∧ progress.previous.stop ≤ token.start ∧
      token.start ≤ source.length := by
  obtain ⟨hlt, hle⟩ := htokens.within token (List.mem_of_getElem? htoken)
  obtain ⟨hlt', -⟩ := htokens.within progress.previous (List.mem_of_getElem? hp.previous)
  obtain ⟨hindex, rfl⟩ := List.getElem?_eq_some_iff.mp htoken
  obtain ⟨hindex', hprevious⟩ := List.getElem?_eq_some_iff.mp hp.previous
  have hpositive := hp.positive
  have hordered := List.pairwise_iff_getElem.mp htokens.ascending (index - 1) index hindex' hindex (by omega)
  rw [hprevious] at hordered
  exact ⟨Nat.le_of_lt hlt', hordered, by omega⟩

theorem Placed.records_le : ∀ record ∈ progress.delimiters.records, record.openingEnd ≤ token.start :=
  fun record hr => Nat.le_trans (hp.records record hr) (hp.before htokens htoken).2.1

theorem Placed.ordered_le : Ordered 0 progress.insertions token.start := by
  obtain ⟨hstop, hstart, -⟩ := hp.before htokens htoken
  exact hp.ordered.mono (Nat.le_trans hstop hstart)

theorem Placed.insert_le (text : List UInt16) :
    Ordered 0 (progress.insertions ++ [(token.start, text)]) token.start := by
  obtain ⟨hstop, hstart, -⟩ := hp.before htokens htoken
  exact hp.ordered.insert text (Nat.le_trans hstop hstart) (Nat.le_refl _)

omit hp htokens htoken

theorem Placed.of_same (hp : Placed tokens index progress) (hinsertions : progress'.insertions = progress.insertions)
    (hprevious : progress'.previous = progress.previous) (hdelimiters : progress'.delimiters = progress.delimiters) :
    Placed tokens index progress' := by
  refine ⟨hprevious ▸ hp.previous, hp.positive, ?_, ?_⟩
  · rw [hdelimiters, hprevious]
    exact hp.records
  · rw [hinsertions, hprevious]
    exact hp.ordered

theorem Placed.noteDeclaration (source : List UInt16) (hp : Placed tokens index progress) (active : Bool) (token : Token) :
    Placed tokens index (noteDeclaration source active token progress) := by
  obtain ⟨-, hinsertions, hprevious, hdelimiters⟩ := noteDeclaration_frames active token progress
  exact hp.of_same hinsertions hprevious hdelimiters

theorem Placed.addHint (hp : Placed tokens index progress) (token : Token) :
    Placed tokens index (addHint source token progress) := by
  obtain ⟨-, hinsertions, hprevious, hdelimiters⟩ := addHint_frames token progress
  exact hp.of_same hinsertions hprevious hdelimiters

theorem placed_of_follow (htokens : Ascending source tokens) (htoken : tokens[index]? = some token)
    (hrecords : ∀ record ∈ progress.delimiters.records, record.openingEnd ≤ token.start)
    (hordered : Ordered 0 progress.insertions token.start) (h : follow source token progress = .ok progress') :
    Placed tokens (index + 1) progress' := by
  obtain ⟨made, hmade, hplaced⟩ := follow_placed htokens htoken hrecords hordered
  cases hmade.symm.trans h
  exact hplaced

theorem separatorAt_yields (newline : Option ℕ) (hle : token.start ≤ source.length) :
    Yields (separatorAt source progress token newline) fun _ => True := by
  unfold separatorAt
  split
  · unfold recordSeparator
    split
    · exact yields_ok trivial
    · split
      · exact yields_ok trivial
      · split
        · exact yields_ok trivial
        · split
          · obtain ⟨width, hwidth⟩ := sourceIndentWidth_ok hle
            rw [hwidth]
            exact yields_ok trivial
          · exact yields_ok trivial
  · exact yields_ok trivial

theorem lineMarkers_quiet (hle : progress.previous.start ≤ source.length) (introducer separator : Bool)
    (lineStart indent : ℕ) : Quiet (lineMarkers source progress token introducer separator lineStart indent) := by
  unfold lineMarkers
  dsimp only
  split
  · split
    · obtain ⟨width, hwidth⟩ := sourceIndentWidth_ok hle
      rw [hwidth]
      exact quiet_ok _
    · exact quiet_ok _
  · split
    · split
      · exact quiet_refused _
      · exact quiet_ok _
    · exact quiet_ok _

include hp htokens htoken

theorem elaborateLine_quiet (introducer separator : Bool) {newline width : ℕ}
    (hwidth : lineIndent source (progress.previous.stop + newline) token = .ok width) :
    Quiet (elaborateLine source token progress introducer separator newline) := by
  obtain ⟨hstop, hstart, hle⟩ := hp.before htokens htoken
  unfold elaborateLine
  dsimp only
  rw [hwidth, ok_bind]
  refine quiet_bind (lineMarkers_quiet (by omega) _ _ _ _) fun made _ => ?_
  cases made with
  | none => exact (follow_placed htokens htoken (hp.records_le htokens htoken) (hp.ordered_le htokens htoken)).quiet
  | some made =>
    obtain ⟨frames, markers⟩ := made
    have hfollow : Yields (follow source token
        { progress with frames := frames, insertions := progress.insertions ++ [(token.start, markers)] })
        (Placed tokens (index + 1)) :=
      follow_placed htokens htoken (hp.records_le htokens htoken) (hp.insert_le htokens htoken markers)
    exact hfollow.quiet

theorem Placed.line {introducer separator : Bool} {newline : ℕ}
    (h : elaborateLine source token progress introducer separator newline = .ok progress') :
    Placed tokens (index + 1) progress' := by
  obtain ⟨indent, -, h⟩ := bind_eq_ok.mp h
  obtain ⟨made, -, h⟩ := bind_eq_ok.mp h
  cases made with
  | none => exact placed_of_follow htokens htoken (hp.records_le htokens htoken) (hp.ordered_le htokens htoken) h
  | some made =>
    obtain ⟨frames, markers⟩ := made
    have hordered := hp.insert_le htokens htoken markers
    refine placed_of_follow htokens htoken ?_ ?_ h
    · exact hp.records_le htokens htoken
    · exact hordered

theorem elaborateInline_yields (separator : Bool) :
    Yields (elaborateInline source token progress separator) (Placed tokens (index + 1)) := by
  unfold elaborateInline
  split
  · exact follow_placed htokens htoken (hp.records_le htokens htoken) (hp.insert_le htokens htoken _)
  · exact follow_placed htokens htoken (hp.records_le htokens htoken) (hp.ordered_le htokens htoken)

omit hp htokens htoken

/-- A token starts a line where layout is active: the gap stands before it, and the newline in it ends there. -/
structure StartsLine (source : List UInt16) (tokens : List Token) (index : ℕ) (progress : Progress) (token : Token)
    (gap : List UInt16) (newline : ℕ) : Prop where
  reaches : Reaches source tokens index progress
  token_eq : tokens[index]? = some token
  gap_eq : range source progress.previous.stop token.start = .ok gap
  newline_eq : lastNewlineEnd gap = some newline
  active : ∃ introducer, suiteIntroducer source tokens (delimiterOpenings source tokens) index progress.previous =
    .ok introducer ∧ layoutActive progress introducer = true

/-- A round keeps what the loop keeps about positions. -/
theorem Placed.round (hp : Placed tokens index progress) (htokens : Ascending source tokens)
    (htoken : tokens[index]? = some token)
    (h : elaborateToken source tokens (delimiterOpenings source tokens) index token progress = .ok progress') :
    Placed tokens (index + 1) progress' := by
  unfold elaborateToken at h
  obtain ⟨gap, -, h⟩ := bind_eq_ok.mp h
  obtain ⟨separator, -, h⟩ := bind_eq_ok.mp h
  obtain ⟨introducer, -, h⟩ := bind_eq_ok.mp h
  have hnoted := hp.noteDeclaration source (layoutActive progress introducer) token
  dsimp only at h
  split at h
  · exact (hnoted.addHint token).line htokens htoken h
  · obtain ⟨made, hmade, hplaced⟩ := elaborateInline_yields hnoted htokens htoken separator
    cases hmade.symm.trans h
    exact hplaced

theorem elaborateToken_quiet (hp : Placed tokens index progress) (hr : Reaches source tokens index progress)
    (htokens : Ascending source tokens) (htoken : tokens[index]? = some token)
    (hmeasured : ∀ gap newline, StartsLine source tokens index progress token gap newline →
      ∃ width, lineIndent source (progress.previous.stop + newline) token = .ok width) :
    Quiet (elaborateToken source tokens (delimiterOpenings source tokens) index token progress) := by
  obtain ⟨-, hstart, hle⟩ := hp.before htokens htoken
  obtain ⟨hindex', -⟩ := List.getElem?_eq_some_iff.mp hp.previous
  unfold elaborateToken
  have hgap := range_of_le hstart hle
  rw [hgap, ok_bind]
  obtain ⟨separator, hseparator, -⟩ := separatorAt_yields
    (lastNewlineEnd ((source.take token.start).drop progress.previous.stop)) hle
  rw [hseparator, ok_bind]
  obtain ⟨introducer, hintroducer, -⟩ := suiteIntroducer_yields progress.previous hindex'
  rw [hintroducer, ok_bind]
  dsimp only
  have hnoted := hp.noteDeclaration source (layoutActive progress introducer) token
  split
  · rename_i newline hactive hnewline
    obtain ⟨width, hwidth⟩ := hmeasured _ newline ⟨hr, htoken, hgap, hnewline, introducer, hintroducer, hactive⟩
    have hprevious :
        (addHint source token (noteDeclaration source (layoutActive progress introducer) token progress)).previous =
        progress.previous := by
      rw [(addHint_frames token _).2.2.1, (noteDeclaration_frames _ token _).2.2.1]
    rw [← hprevious] at hwidth
    exact elaborateLine_quiet (hnoted.addHint token) htokens htoken _ _ hwidth
  · exact (elaborateInline_yields hnoted htokens htoken separator).quiet

theorem start_yields (htokens : Ascending source tokens) {first : Token} (hfirst : tokens[0]? = some first) :
    Yields (start source first) (Placed tokens 1) :=
  follow_placed htokens hfirst (fun _ hr => nomatch hr) (Nat.zero_le _)

theorem Reaches.placed (hr : Reaches source tokens index progress) (htokens : Ascending source tokens) :
    Placed tokens index progress := by
  induction hr with
  | start first_eq h =>
    obtain ⟨made, hmade, hplaced⟩ := start_yields htokens first_eq
    cases hmade.symm.trans h
    exact hplaced
  | round _ token_eq h ih => exact ih.round htokens token_eq h

theorem elaborateFrom_quiet (htokens : Ascending source tokens)
    (hmeasured : ∀ index progress token gap newline, StartsLine source tokens index progress token gap newline →
      ∃ width, lineIndent source (progress.previous.stop + newline) token = .ok width) :
    ∀ {rest : List Token} {index : ℕ} {progress : Progress}, Reaches source tokens index progress →
      tokens.drop index = rest →
      Quiet (elaborateFrom source tokens (delimiterOpenings source tokens) index rest progress)
  | [], _, progress, _, _ => quiet_ok progress
  | token :: rest, index, progress, hr, hdrop => by
    have htoken : tokens[index]? = some token := by
      rw [← List.head?_drop, hdrop]
      rfl
    have hdrop' : tokens.drop (index + 1) = rest := by
      rw [← List.tail_drop, hdrop]
      rfl
    refine quiet_bind ?_ fun progress' h => ?_
    · exact elaborateToken_quiet (hr.placed htokens) hr htokens htoken (hmeasured index progress token)
    · exact elaborateFrom_quiet htokens hmeasured (hr.round htoken h) hdrop'

end Round

/-! ### Whole runs -/

/-- The tokens that the elaborator follows. -/
def Follows (plan : FrontendPlan) (source : List UInt16) (tokens : List Token) : Prop :=
  reserved source = none ∧ ∃ all, lexSource plan source = .ok all ∧ syntaxTokens all = tokens

/-- The elaborator does not panic, and the width it uses for a line is the one of `source_indent_width`. -/
structure MeasuresLines (plan : FrontendPlan) (source : Source) : Prop where
  total : ∀ message, elaborate plan source ≠ .error (.panicked message)
  width : ∀ tokens index progress token gap newline, Follows plan source.units tokens →
    StartsLine source.units tokens index progress token gap newline →
    ∃ width, lineIndent source.units (progress.previous.stop + newline) token = .ok width ∧
      sourceIndentWidth source.units token.start = .ok width

def LinesAligned (plan : FrontendPlan) (source : Source) : Prop :=
  ∀ tokens index progress token gap newline, Follows plan source.units tokens →
    StartsLine source.units tokens index progress token gap newline → Aligned gap

theorem lexSource_quiet (plan : FrontendPlan) (source : List UInt16) : Quiet (lexSource plan source) := by
  unfold lexSource
  split
  · exact quiet_ok _
  · exact quiet_refused _

/-- **The elaborator panics only at a line that cannot be measured.** -/
theorem elaborate_quiet {plan : FrontendPlan} {source : Source}
    (hmeasured : ∀ tokens index progress token gap newline, Follows plan source.units tokens →
      StartsLine source.units tokens index progress token gap newline →
      ∃ width, lineIndent source.units (progress.previous.stop + newline) token = .ok width) :
    Quiet (elaborate plan source) := by
  unfold elaborate
  split
  · exact quiet_refused _
  · rename_i hreserved
    refine quiet_bind (lexSource_quiet plan source.units) fun all hlex => ?_
    have htokens := ascending_of_lexes (lexes_of_lexSource hlex)
    split
    · exact quiet_ok _
    · rename_i first rest hterminals
      rw [hterminals] at htokens
      have hlines := fun index progress token gap newline =>
        hmeasured (first :: rest) index progress token gap newline ⟨hreserved, all, hlex, hterminals⟩
      refine quiet_bind (start_yields htokens rfl).quiet fun progress hstart => ?_
      have hreach : Reaches source.units (first :: rest) 1 progress := .start rfl hstart
      refine quiet_bind (elaborateFrom_quiet htokens hlines hreach rfl) fun progress' hloop => ?_
      have hplaced := (hreach.elaborateFrom rfl hloop).placed htokens
      -- the closing markers come after the last token
      obtain ⟨hlt, hle⟩ := htokens.within _ (List.mem_of_getElem? hplaced.previous)
      have hordered := hplaced.ordered.insert (layoutNewline :: closing progress'.frames.below) (Nat.le_of_lt hlt) hle
      obtain ⟨pieces, hpieces, -⟩ := insertFrom_yields hordered
      unfold applyInsertions
      dsimp only
      rw [hpieces]
      exact quiet_ok _

theorem measured_iff {plan : FrontendPlan} {white slash comment : ℕ} (h : TriviaTables plan white slash comment)
    {source : List UInt16} {tokens : List Token} {index : ℕ} {progress : Progress} {token : Token} {gap : List UInt16}
    {newline : ℕ} (hfollows : Follows plan source tokens)
    (hline : StartsLine source tokens index progress token gap newline) :
    (∃ width, lineIndent source (progress.previous.stop + newline) token = .ok width ∧
      sourceIndentWidth source token.start = .ok width) ↔ Aligned gap := by
  obtain ⟨-, all, hlex, rfl⟩ := hfollows
  have hlexes := lexes_of_lexSource hlex
  have htokens := ascending_of_lexes hlexes
  have hplaced := hline.reaches.placed htokens
  obtain ⟨-, hstart, hle⟩ := hplaced.before htokens hline.token_eq
  have htoken := hline.token_eq
  rw [← Nat.sub_add_cancel hplaced.positive] at htoken
  obtain ⟨gap', hgap, hdrop, hlength⟩ := gap_between h hlexes hplaced.previous htoken
  have hsame : gap = gap' := by
    have hrange := (range_of_le hstart hle).symm.trans hline.gap_eq
    cases hrange
    rw [take_eq hdrop hlength, List.drop_left' (by rw [List.length_take, Nat.min_eq_left (by omega)])]
  subst hsame
  exact lineIndent_iff hgap hdrop hlength hle hline.newline_eq

/-- **Layout elaboration is total and measures the right line** exactly when the gap before every token that starts a
line is aligned. -/
theorem elaborate_measures_lines_iff {plan : FrontendPlan} {white slash comment : ℕ}
    (h : TriviaTables plan white slash comment) (source : Source) :
    MeasuresLines plan source ↔ LinesAligned plan source := by
  constructor
  · intro hm tokens index progress token gap newline hfollows hline
    exact (measured_iff h hfollows hline).mp (hm.width tokens index progress token gap newline hfollows hline)
  · intro ha
    have hwidth := fun tokens index progress token gap newline hfollows hline =>
      (measured_iff h hfollows hline).mpr (ha tokens index progress token gap newline hfollows hline)
    refine ⟨elaborate_quiet fun tokens index progress token gap newline hfollows hline => ?_, hwidth⟩
    obtain ⟨width, hline', -⟩ := hwidth tokens index progress token gap newline hfollows hline
    exact ⟨width, hline'⟩

/-- A comment that a carriage return ends, after a line feed. -/
def returnAfterComment : Source := ⟨units "a\n// c\rb", by decide⟩

/-- There the elaborator panics: it cuts the indentation at the line feed, and the comment is in it. -/
theorem returnAfterComment_not_measured :
    TriviaTables wordPlan 1 2 3 ∧ ¬ MeasuresLines wordPlan returnAfterComment := by
  refine ⟨wordPlan_tables, fun h => ?_⟩
  have hpanic : (match elaborate wordPlan returnAfterComment with
      | .error (.panicked _) => true
      | _ => false) = true := by decide +kernel
  split at hpanic
  · rename_i message he
    exact h.total message he
  · cases hpanic

/-- Without carriage returns a source is aligned. -/
theorem linesAligned_of_no_return {plan : FrontendPlan} {source : Source} (h : 13 ∉ source.units) :
    LinesAligned plan source := by
  intro tokens index progress token gap newline _ hline
  have hgap : ∀ unit ∈ gap, isCarriageReturn unit = false := by
    intro unit hunit
    have hslice := demand_eq_ok.mp hline.gap_eq
    unfold slice at hslice
    split at hslice
    · obtain rfl := Option.some.inj hslice
      refine decide_eq_false fun hreturn => h ?_
      exact hreturn ▸ List.mem_of_mem_take (List.mem_of_mem_drop hunit)
    · cases hslice
  have hbetween : between gap = [] := by
    unfold between
    split
    · rfl
    · rw [lastIndex_none.mpr fun unit hunit => hgap unit (List.mem_of_mem_drop hunit)]
  exact ⟨0, by rw [hbetween]; rfl, .inl rfl⟩

/-- A line that is indented by two spaces. -/
def indented : Source := ⟨units "a\n  b", by decide⟩

/-- The tables with words, on a source that is elaborated and on the one where the elaborator panics. -/
theorem elaborate_measures_lines_iff_words : TriviaTables wordPlan 1 2 3 ∧
    MeasuresLines wordPlan indented ∧ (∃ layout, elaborate wordPlan indented = .ok layout) ∧
    (MeasuresLines wordPlan returnAfterComment ↔ LinesAligned wordPlan returnAfterComment) := by
  refine ⟨wordPlan_tables, ?_, ?_, elaborate_measures_lines_iff wordPlan_tables returnAfterComment⟩
  · exact (elaborate_measures_lines_iff wordPlan_tables indented).mpr (linesAligned_of_no_return (by decide))
  · have hok : (match elaborate wordPlan indented with
        | .ok _ => true
        | .error _ => false) = true := by decide +kernel
    split at hok
    · rename_i layout helaborate
      exact ⟨layout, helaborate⟩
    · cases hok

end Blot.Layout
