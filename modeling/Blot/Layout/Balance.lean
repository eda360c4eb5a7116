import Blot.Layout.Offsets
import Blot.Layout.Trivia

/-!
# Markers and frames

An indent marker opens a suite and a dedent marker closes one; the suites that are open are the frames above the root.
A round of the loop keeps this, and keeps the indentations of the frames increasing.
-/

namespace Blot.Layout

open Frontend
open Blot.Support (bind_eq_ok demand_eq_ok ok_bind)

/-! ### Depth -/

/-- How many suites are open after some units, from a depth on; nothing if one closes that is not open. -/
def depthAfter : ℕ → List UInt16 → Option ℕ
  | depth, [] => some depth
  | depth, unit :: rest =>
    if unit = layoutIndent then depthAfter (depth + 1) rest
    else if unit = layoutDedent then if depth = 0 then none else depthAfter (depth - 1) rest
    else depthAfter depth rest

/-- Every prefix has at least as many indents as dedents, and the whole has equally many. -/
def Balanced (units : List UInt16) : Prop :=
  (∀ front, front <+: units → front.count layoutDedent ≤ front.count layoutIndent) ∧
    units.count layoutDedent = units.count layoutIndent

theorem depthAfter_append : ∀ {depth : ℕ} (units more : List UInt16),
    depthAfter depth (units ++ more) = (depthAfter depth units).bind fun depth => depthAfter depth more
  | _, [], _ => rfl
  | depth, unit :: rest, more => by
    rw [List.cons_append, depthAfter, depthAfter]
    split
    · exact depthAfter_append rest more
    · split
      · split
        · rfl
        · exact depthAfter_append rest more
      · exact depthAfter_append rest more

/-- The depth counts the markers. -/
theorem count_of_depthAfter : ∀ {depth depth' : ℕ} {units : List UInt16}, depthAfter depth units = some depth' →
    depth + units.count layoutIndent = depth' + units.count layoutDedent
  | depth, _, [], h => by
    cases h
    rfl
  | depth, depth', unit :: rest, h => by
    rw [depthAfter] at h
    split at h
    · rename_i hunit
      have hrest := count_of_depthAfter h
      rw [hunit, List.count_cons_self, List.count_cons_of_ne (by decide)]
      omega
    · rename_i hindent
      split at h
      · rename_i hunit
        split at h
        · cases h
        · have hrest := count_of_depthAfter h
          rw [hunit, List.count_cons_self, List.count_cons_of_ne (by decide)]
          omega
      · rename_i hdedent
        have hrest := count_of_depthAfter h
        rw [List.count_cons_of_ne hindent, List.count_cons_of_ne hdedent]
        exact hrest

theorem balanced_of_depthAfter {units : List UInt16} (h : depthAfter 0 units = some 0) : Balanced units := by
  refine ⟨?_, ?_⟩
  · rintro front ⟨back, rfl⟩
    rw [depthAfter_append] at h
    obtain ⟨depth, hfront, -⟩ := Option.bind_eq_some_iff.mp h
    have := count_of_depthAfter hfront
    omega
  · have := count_of_depthAfter h
    omega

/-! ### The frames -/

/-- The indentations of the frames strictly increase from the root to the top. -/
def Increasing (frames : Frames) : Prop := frames.all.Pairwise fun above below => below.indent < above.indent

/-- Closing suites takes frames off the stack, and a dedent goes with each. -/
theorem closeSuites_spec (indent : ℕ) : ∀ (below : List LayoutFrame) {top : LayoutFrame} {structural structural' : Option ℕ}
    {closed : ℕ} {markers markers' : List UInt16} {frames : Frames},
    closeSuites indent top below structural closed markers = (structural', markers', frames) →
    frames.all <:+ top :: below ∧ ∀ depth, depthAfter depth markers = some below.length →
      depthAfter depth markers' = some frames.below.length
  | [], top, _, _, _, _, _, _, h => by
    cases h
    exact ⟨List.suffix_refl _, fun _ h => h⟩
  | next :: below, top, structural, _, closed, markers, _, _, h => by
    rw [closeSuites] at h
    split at h
    · obtain ⟨hsuffix, hdepth⟩ := closeSuites_spec indent below h
      refine ⟨hsuffix.trans (List.suffix_cons _ _), fun depth hmarkers => hdepth depth ?_⟩
      have hnewline : depthAfter depth (if 0 < closed then markers ++ [layoutNewline] else markers) =
          some (below.length + 1) := by
        split
        · rw [depthAfter_append, hmarkers]
          rfl
        · exact hmarkers
      rw [depthAfter_append, hnewline]
      rfl
    · cases h
      exact ⟨List.suffix_refl _, fun _ h => h⟩

theorem Increasing.suffix {frames frames' : Frames} (h : Increasing frames) (hs : frames'.all <:+ frames.all) :
    Increasing frames' := h.sublist hs.sublist

theorem Increasing.push {frames : Frames} {frame : LayoutFrame} (h : Increasing frames)
    (hlt : frames.top.indent < frame.indent) : Increasing ⟨frame, frames.all⟩ := by
  refine List.pairwise_cons.mpr ⟨fun other ho => ?_, h⟩
  rcases List.mem_cons.mp ho with rfl | ho
  · exact hlt
  · exact Nat.lt_trans ((List.pairwise_cons.mp h).1 other ho) hlt

theorem depthAfter_separated {depth depth' : ℕ} {markers : List UInt16} (separator : Bool)
    (h : depthAfter depth markers = some depth') :
    depthAfter depth (if separator then markers ++ units ";" else markers) = some depth' := by
  split
  · rw [depthAfter_append, h]
    rfl
  · exact h

section Round

variable {source : List UInt16} {tokens : List Token}

theorem lineMarkers_spec {progress : Progress} {token : Token} {introducer separator : Bool} {lineStart indent : ℕ}
    {frames : Frames} {markers : List UInt16}
    (h : lineMarkers source progress token introducer separator lineStart indent = .ok (some (frames, markers)))
    (hinc : Increasing progress.frames) :
    Increasing frames ∧ depthAfter progress.frames.below.length markers = some frames.below.length := by
  unfold lineMarkers at h
  dsimp only at h
  split at h
  · rename_i hlt
    split at h
    · obtain ⟨closeIndent, -, h⟩ := bind_eq_ok.mp h
      cases h
      refine ⟨hinc.push hlt, depthAfter_separated separator ?_⟩
      rfl
    · cases h
  · split at h
    · rename_i hlt
      generalize hclose : closeSuites indent progress.frames.top progress.frames.below none 0 [layoutNewline] = made at h
      obtain ⟨structural, made, frames'⟩ := made
      obtain ⟨hsuffix, hdepth⟩ := closeSuites_spec indent _ hclose
      split at h
      · cases h
      · cases h
        refine ⟨hinc.suffix hsuffix, depthAfter_separated separator ?_⟩
        have hmade := hdepth progress.frames.below.length rfl
        split
        · rw [depthAfter_append, hmade]
          rfl
        · exact hmade
    · cases h
      exact ⟨hinc, depthAfter_separated separator rfl⟩

/-- What the loop keeps: the frames increase, and the markers inserted so far leave open the suites of the frames. -/
structure Sound (progress : Progress) : Prop where
  increasing : Increasing progress.frames
  depth : depthAfter 0 (progress.insertions.flatMap (·.2)) = some progress.frames.below.length

theorem follow_frames {token : Token} {progress progress' : Progress} (h : follow source token progress = .ok progress') :
    progress'.frames = progress.frames ∧ progress'.insertions = progress.insertions ∧ progress'.previous = token := by
  obtain ⟨delimiters, -, h⟩ := bind_eq_ok.mp h
  cases h
  exact ⟨rfl, rfl, rfl⟩

theorem Sound.follow {token : Token} {progress progress' : Progress} (hs : Sound progress)
    (h : follow source token progress = .ok progress') : Sound progress' := by
  obtain ⟨hframes, hinsertions, -⟩ := follow_frames h
  exact ⟨hframes ▸ hs.increasing, by rw [hinsertions, hframes]; exact hs.depth⟩

/-- Insertions that go with a change of the frames. -/
theorem Sound.insert {progress : Progress} {frames : Frames} {offset : ℕ} {markers : List UInt16} (hs : Sound progress)
    (hinc : Increasing frames) (hdepth : depthAfter progress.frames.below.length markers = some frames.below.length) :
    Sound { progress with frames := frames, insertions := progress.insertions ++ [(offset, markers)] } := by
  refine ⟨hinc, ?_⟩
  show depthAfter 0 ((progress.insertions ++ [(offset, markers)]).flatMap _) = _
  rw [List.flatMap_append, depthAfter_append, hs.depth, Option.bind_some, List.flatMap_singleton]
  exact hdepth

theorem addHint_frames (token : Token) (progress : Progress) :
    (addHint source token progress).frames = progress.frames ∧
      (addHint source token progress).insertions = progress.insertions ∧
      (addHint source token progress).previous = progress.previous ∧
      (addHint source token progress).delimiters = progress.delimiters := by
  unfold addHint
  split <;> exact ⟨rfl, rfl, rfl, rfl⟩

theorem noteDeclaration_frames (active : Bool) (token : Token) (progress : Progress) :
    (noteDeclaration source active token progress).frames = progress.frames ∧
      (noteDeclaration source active token progress).insertions = progress.insertions ∧
      (noteDeclaration source active token progress).previous = progress.previous ∧
      (noteDeclaration source active token progress).delimiters = progress.delimiters := by
  unfold noteDeclaration
  split <;> exact ⟨rfl, rfl, rfl, rfl⟩

theorem Sound.of_same {progress progress' : Progress} (hs : Sound progress) (hframes : progress'.frames = progress.frames)
    (hinsertions : progress'.insertions = progress.insertions) : Sound progress' :=
  ⟨hframes ▸ hs.increasing, by rw [hinsertions, hframes]; exact hs.depth⟩

theorem Sound.line {token : Token} {progress progress' : Progress} {introducer separator : Bool} {newline : ℕ}
    (hs : Sound progress) (h : elaborateLine source token progress introducer separator newline = .ok progress') :
    Sound progress' := by
  obtain ⟨indent, -, h⟩ := bind_eq_ok.mp h
  obtain ⟨made, hmade, h⟩ := bind_eq_ok.mp h
  cases made with
  | none => exact hs.follow h
  | some made =>
    obtain ⟨frames, markers⟩ := made
    obtain ⟨hinc, hdepth⟩ := lineMarkers_spec hmade hs.increasing
    exact (hs.insert hinc hdepth).follow h

theorem Sound.inline {token : Token} {progress progress' : Progress} {separator : Bool} (hs : Sound progress)
    (h : elaborateInline source token progress separator = .ok progress') : Sound progress' := by
  unfold elaborateInline at h
  split at h
  · exact (hs.insert hs.increasing rfl).follow h
  · exact hs.follow h

/-- **One round of the loop.** -/
theorem Sound.round {openings : List ℕ} {index : ℕ} {token : Token} {progress progress' : Progress} (hs : Sound progress)
    (h : elaborateToken source tokens openings index token progress = .ok progress') : Sound progress' := by
  unfold elaborateToken at h
  obtain ⟨gap, -, h⟩ := bind_eq_ok.mp h
  obtain ⟨separator, -, h⟩ := bind_eq_ok.mp h
  obtain ⟨introducer, -, h⟩ := bind_eq_ok.mp h
  obtain ⟨hframes, hinsertions, -⟩ :=
    noteDeclaration_frames (layoutActive progress introducer) token progress
  have hnoted := hs.of_same hframes hinsertions
  dsimp only at h
  split at h
  · obtain ⟨hframes', hinsertions', -⟩ := addHint_frames token
      (noteDeclaration source (layoutActive progress introducer) token progress)
    exact (hnoted.of_same hframes' hinsertions').line h
  · exact hnoted.inline h

theorem sound_start {first : Token} {progress : Progress} (h : start source first = .ok progress) : Sound progress := by
  refine Sound.follow ?_ h
  exact ⟨List.pairwise_singleton _ _, rfl⟩

end Round

/-- The states of the loop of `elaborate`: before the token at the index. -/
inductive Reaches (source : List UInt16) (tokens : List Token) : ℕ → Progress → Prop where
  | start {first : Token} {progress : Progress} (first_eq : tokens[0]? = some first)
      (h : start source first = .ok progress) : Reaches source tokens 1 progress
  | round {index : ℕ} {token : Token} {progress progress' : Progress} (before : Reaches source tokens index progress)
      (token_eq : tokens[index]? = some token)
      (h : elaborateToken source tokens (delimiterOpenings source tokens) index token progress = .ok progress') :
      Reaches source tokens (index + 1) progress'

theorem Reaches.sound {source : List UInt16} {tokens : List Token} {index : ℕ} {progress : Progress}
    (h : Reaches source tokens index progress) : Sound progress := by
  induction h with
  | start _ h => exact sound_start h
  | round _ _ h ih => exact ih.round h

/-- A loop that finishes reaches the state it finishes in. -/
theorem Reaches.elaborateFrom {source : List UInt16} {tokens : List Token} : ∀ {rest : List Token} {index : ℕ}
    {progress progress' : Progress}, Reaches source tokens index progress → tokens.drop index = rest →
    elaborateFrom source tokens (delimiterOpenings source tokens) index rest progress = .ok progress' →
    Reaches source tokens (index + rest.length) progress'
  | [], _, _, _, hr, _, h => by
    cases h
    exact hr
  | token :: rest, index, progress, progress', hr, hdrop, h => by
    obtain ⟨middle, hround, h⟩ := bind_eq_ok.mp h
    have htoken : tokens[index]? = some token := by
      rw [← List.head?_drop, hdrop]
      rfl
    have hdrop' : tokens.drop (index + 1) = rest := by
      rw [← List.tail_drop, hdrop]
      rfl
    rw [List.length_cons, Nat.add_comm rest.length, ← Nat.add_assoc]
    exact (hr.round htoken hround).elaborateFrom hdrop' h

/-- The states of the loop when it elaborates a source. -/
def Visits (plan : FrontendPlan) (source : Source) (index : ℕ) (progress : Progress) : Prop :=
  ∃ tokens, lexSource plan source.units = .ok tokens ∧ Reaches source.units (syntaxTokens tokens) index progress

theorem depthAfter_closing : ∀ below : List LayoutFrame, depthAfter below.length (closing below) = some 0
  | [] => rfl
  | _ :: below => depthAfter_closing below

theorem insertedUnits_fst (insertions : List (ℕ × List UInt16)) :
    (insertedUnits insertions).map (·.1) = insertions.flatMap (·.2) := by
  rw [insertedUnits, List.map_flatMap]
  refine List.flatMap_congr fun insertion _ => ?_
  rw [List.map_map]
  exact List.map_id _

/-- **Layout markers are balanced and offsets faithful**: an elaborated source is the source with units inserted, its
offsets tell where each unit comes from, and the inserted markers are balanced; in every round of the loop the frames
increase. -/
theorem elaborate_balanced_faithful (plan : FrontendPlan) (source : Source) (layout : LayoutSource)
    (h : elaborate plan source = .ok layout) :
    (∃ insertions pieces, Faithful source.units insertions layout pieces ∧
      Balanced ((insertedUnits insertions).map (·.1))) ∧
    ∀ index progress, Visits plan source index progress → Increasing progress.frames := by
  refine ⟨?_, fun index progress ⟨tokens, _, hr⟩ => hr.sound.increasing⟩
  unfold elaborate at h
  split at h
  · cases h
  · obtain ⟨allTokens, hlex, h⟩ := bind_eq_ok.mp h
    split at h
    · cases h
      obtain ⟨pieces, hfaithful⟩ := identity_faithful source
      exact ⟨[], pieces, hfaithful, balanced_of_depthAfter rfl⟩
    · rename_i first rest hterminals
      obtain ⟨progress, hstart, h⟩ := bind_eq_ok.mp h
      obtain ⟨progress', hloop, h⟩ := bind_eq_ok.mp h
      obtain ⟨made, happly, h⟩ := bind_eq_ok.mp h
      cases h
      have hreach : Reaches source.units (first :: rest) 1 progress := .start rfl hstart
      have hsound := (hreach.elaborateFrom rfl hloop).sound
      obtain ⟨pieces, hf⟩ := applyInsertions_faithful happly
      refine ⟨_, pieces, ⟨hf.text, hf.kept, hf.inserted, hf.length, hf.ascending, hf.boundaries⟩,
        balanced_of_depthAfter ?_⟩
      rw [insertedUnits_fst, List.flatMap_append, depthAfter_append, hsound.depth, Option.bind_some,
        List.flatMap_singleton]
      exact depthAfter_closing _

/-- A suite of one line. -/
def oneSuite : Source := ⟨units "f =\n  a", by decide⟩

/-- The suite is opened before its line and closed after it. -/
theorem elaborate_balanced_faithful_oneSuite : ∃ layout, elaborate wordPlan oneSuite = .ok layout ∧
    layout.source = units "f =\n  " ++ [layoutNewline, layoutIndent] ++ units "a" ++
      [layoutNewline, layoutDedent, layoutNewline] ∧
    ∃ insertions pieces, Faithful oneSuite.units insertions layout pieces ∧
      Balanced ((insertedUnits insertions).map (·.1)) := by
  have hsource : (elaborate wordPlan oneSuite).toOption.map (·.source) = some (units "f =\n  " ++
      [layoutNewline, layoutIndent] ++ units "a" ++ [layoutNewline, layoutDedent, layoutNewline]) := by decide +kernel
  obtain ⟨layout, hlayout, hsource⟩ := Option.map_eq_some_iff.mp hsource
  have helaborate : elaborate wordPlan oneSuite = .ok layout := by
    cases h : elaborate wordPlan oneSuite with
    | error halt =>
      rw [h] at hlayout
      cases hlayout
    | ok made =>
      rw [h] at hlayout
      cases hlayout
      rfl
  exact ⟨layout, helaborate, hsource, (elaborate_balanced_faithful wordPlan oneSuite layout helaborate).1⟩

end Blot.Layout
