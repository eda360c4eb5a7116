import Blot.Layout.Balance
import Blot.Layout.Widths

/-!
# Elaboration is total where lines are measured alike

A slice of the elaborator is in range because its tokens ascend, and its insertions are ordered for the same reason.  The
only `expect` that can fail is the one on the indentation of a line.
-/

namespace Blot.Layout

open Frontend
open Blot.Support (bind_eq_ok demand_eq_ok)

/-! ### Panics -/

section Quiet

variable {α β : Type}

/-- The computation does not panic. -/
def Quiet (result : Except Halt α) : Prop := ∀ message, result ≠ .error (.panicked message)

theorem quiet_ok (a : α) : Quiet (.ok a) := fun _ h => nomatch h

theorem quiet_refused (diagnostics : List Diagnostic) : Quiet (.error (.refused diagnostics) : Except Halt α) :=
  fun _ h => nomatch h

/-- The computation succeeds, with a result for which `P` holds. -/
def Yields (result : Except Halt α) (P : α → Prop) : Prop := ∃ a, result = .ok a ∧ P a

theorem yields_ok {P : α → Prop} {a : α} (h : P a) : Yields (.ok a) P := ⟨a, rfl, h⟩

theorem Yields.bind {m : Except Halt α} {f : α → Except Halt β} {P : α → Prop} {Q : β → Prop} (hm : Yields m P)
    (hf : ∀ a, P a → Yields (f a) Q) : Yields (m >>= f) Q := by
  obtain ⟨a, rfl, ha⟩ := hm
  exact hf a ha

theorem Yields.quiet {result : Except Halt α} {P : α → Prop} (h : Yields result P) : Quiet result := by
  obtain ⟨a, rfl, -⟩ := h
  exact quiet_ok a

theorem quiet_bind {m : Except Halt α} {f : α → Except Halt β} (hm : Quiet m) (hf : ∀ a, m = .ok a → Quiet (f a)) :
    Quiet (m >>= f) := by
  cases m with
  | ok a => exact hf a rfl
  | error e => exact fun message h => hm message (by cases h; rfl)

end Quiet

/-! ### Tokens in range -/

structure Ascending (source : List UInt16) (tokens : List Token) : Prop where
  ascending : tokens.Pairwise fun a b => a.stop ≤ b.start
  within : ∀ token ∈ tokens, token.start < token.stop ∧ token.stop ≤ source.length

theorem ascending_of_lexes {plan : FrontendPlan} {source : List UInt16} {tokens : List Token}
    (h : Lexes plan source 0 0 tokens) : Ascending source (syntaxTokens tokens) :=
  ⟨(h.ascending (Nat.zero_le _)).filter _,
    fun token ht => (h.within (Nat.zero_le _) token (List.mem_of_mem_filter ht)).2⟩

theorem lexes_of_lexSource {plan : FrontendPlan} {source : List UInt16} {tokens : List Token}
    (h : lexSource plan source = .ok tokens) : Lexes plan source 0 0 tokens := by
  unfold lexSource at h
  split at h
  · rename_i tokens' hlex
    cases h
    have hlexes := lexes_of_lexFrom (p := 0) (o := 0) (by rw [hlex])
    rwa [hlex] at hlexes
  · cases h

section Context

variable {source : List UInt16} {tokens : List Token}

theorem tokenAt_yields {index : ℕ} (h : index < tokens.length) : Yields (tokenAt tokens index) fun _ => True :=
  ⟨tokens[index], demand_eq_ok.mpr (List.getElem?_eq_getElem h), trivial⟩

/-- An opening is recorded as a position of a token, plus one. -/
theorem delimiterOpeningsFrom_spec (source : List UInt16) (bound : ℕ) :
    ∀ (rest : List Token) (index : ℕ) (pending positions : List ℕ),
    index + rest.length ≤ bound → (∀ i ∈ pending, i < bound) → (∀ position ∈ positions, position ≤ bound) →
    (delimiterOpeningsFrom source index rest pending positions).length = positions.length ∧
      ∀ position ∈ delimiterOpeningsFrom source index rest pending positions, position ≤ bound
  | [], _, _, _, _, _, hpositions => ⟨rfl, hpositions⟩
  | token :: rest, index, pending, positions, hle, hpending, hpositions => by
    rw [List.length_cons] at hle
    unfold delimiterOpeningsFrom
    split
    · refine delimiterOpeningsFrom_spec source bound rest (index + 1) _ _ (by omega) (fun i hi => ?_) hpositions
      rcases List.mem_cons.mp hi with rfl | hi
      · omega
      · exact hpending i hi
    · have hskip := delimiterOpeningsFrom_spec source bound rest (index + 1) pending positions (by omega) hpending
        hpositions
      cases isAnyText source token [")", "]", "\x7d"] with
      | false => exact hskip
      | true =>
        cases pending with
        | nil => exact hskip
        | cons opening pending' =>
          obtain ⟨hopening, hpending'⟩ := List.forall_mem_cons.mp hpending
          have hspec := delimiterOpeningsFrom_spec source bound rest (index + 1) pending'
            (positions.set index (opening + 1)) (by omega) hpending' fun position hp => by
              rcases List.mem_or_eq_of_mem_set hp with hp | rfl
              · exact hpositions position hp
              · omega
          rwa [List.length_set] at hspec

theorem delimiterOpenings_spec (source : List UInt16) (tokens : List Token) :
    (delimiterOpenings source tokens).length = tokens.length ∧
    ∀ position ∈ delimiterOpenings source tokens, position ≤ tokens.length := by
  have h := delimiterOpeningsFrom_spec source tokens.length tokens 0 []
    (List.replicate tokens.length 0) (by omega) (fun _ hi => nomatch hi) fun position hp => by
      rw [List.eq_of_mem_replicate hp]
      exact Nat.zero_le _
  rwa [List.length_replicate] at h

theorem skipTag_yields : ∀ {first : ℕ}, first ≤ tokens.length → Yields (skipTag source tokens first) (· ≤ first)
  | 0, _ => yields_ok (Nat.le_refl 0)
  | first + 1, h => by
    rw [skipTag]
    refine (tokenAt_yields (by omega)).bind fun token _ => ?_
    split
    · exact yields_ok (Nat.le_succ first)
    · exact yields_ok (Nat.le_refl _)

theorem skipQualifiers_yields : ∀ {first : ℕ}, first ≤ tokens.length →
    Yields (skipQualifiers source tokens first) (· ≤ first)
  | 0, _ => yields_ok (Nat.le_refl 0)
  | 1, h => by
    rw [skipQualifiers]
    refine (tokenAt_yields (by omega)).bind fun token _ => ?_
    split
    · exact yields_ok (Nat.zero_le 1)
    · exact yields_ok (Nat.le_refl 1)
  | first + 2, h => by
    obtain ⟨start₁, h₁, hle₁⟩ := skipQualifiers_yields (show first + 1 ≤ tokens.length by omega)
    obtain ⟨start₀, h₀, hle₀⟩ := skipQualifiers_yields (show first ≤ tokens.length by omega)
    rw [skipQualifiers]
    refine (tokenAt_yields (by omega)).bind fun token _ => ?_
    split
    · exact ⟨start₁, h₁, by omega⟩
    · split
      · refine (tokenAt_yields (by omega)).bind fun hash _ => ?_
        split
        · exact ⟨start₀, h₀, by omega⟩
        · exact yields_ok (Nat.le_refl _)
      · exact yields_ok (Nat.le_refl _)

theorem introducesBinding_yields : ∀ {first : ℕ}, first ≤ tokens.length →
    Yields (introducesBinding source tokens first) fun _ => True
  | 0, _ => yields_ok trivial
  | first + 1, h => by
    rw [introducesBinding]
    refine (tokenAt_yields (by omega)).bind fun token _ => ?_
    split
    · exact yields_ok trivial
    · cases first with
      | zero => exact yields_ok trivial
      | succ first =>
        dsimp only
        split
        · exact (tokenAt_yields (by omega)).bind fun binder _ => yields_ok trivial
        · exact yields_ok trivial

theorem patternStart_yields {last : ℕ} (h : last < tokens.length) :
    Yields (patternStart source tokens (delimiterOpenings source tokens) last)
      fun pattern => ∀ start, pattern = some start → start ≤ tokens.length := by
  obtain ⟨hlength, hbound⟩ := delimiterOpenings_spec source tokens
  have hlast : last < (delimiterOpenings source tokens).length := by omega
  rw [patternStart]
  refine (tokenAt_yields h).bind fun token _ => ?_
  split
  · have hopening : Yields (Support.demand (delimiterOpenings source tokens)[last]? (.panicked "index out of bounds"))
        (· ≤ tokens.length) :=
      ⟨_, demand_eq_ok.mpr (List.getElem?_eq_getElem hlast), hbound _ (List.getElem_mem hlast)⟩
    refine hopening.bind fun position hposition => ?_
    cases position with
    | zero => exact yields_ok fun _ h => nomatch h
    | succ opening =>
      refine yields_ok fun start hs => ?_
      cases hs
      exact Nat.le_of_succ_le hposition
  · split
    all_goals exact yields_ok fun start hs => by cases hs <;> exact Nat.le_of_lt h

theorem isAnnotationColon_yields : ∀ {index : ℕ}, index < tokens.length →
    Yields (isAnnotationColon source tokens (delimiterOpenings source tokens) index) fun _ => True
  | 0, _ => yields_ok trivial
  | index + 1, h => by
    rw [isAnnotationColon]
    refine (tokenAt_yields h).bind fun token _ => ?_
    split
    · exact yields_ok trivial
    · refine (patternStart_yields (by omega)).bind fun pattern hpattern => ?_
      cases pattern with
      | none => exact yields_ok trivial
      | some start =>
        refine (skipTag_yields (hpattern start rfl)).bind fun start₁ h₁ => ?_
        refine (skipQualifiers_yields (Nat.le_trans h₁ (hpattern start rfl))).bind fun start₂ h₂ => ?_
        exact introducesBinding_yields (Nat.le_trans h₂ (Nat.le_trans h₁ (hpattern start rfl)))

theorem suiteIntroducer_yields {index : ℕ} (previous : Token) (hindex : index - 1 < tokens.length) :
    Yields (suiteIntroducer source tokens (delimiterOpenings source tokens) index previous) fun _ => True := by
  unfold suiteIntroducer
  split
  · exact (isAnnotationColon_yields hindex).bind fun annotation _ => yields_ok trivial
  · exact yields_ok trivial

end Context

/-! ### The loop -/

/-- The offsets ascend from the first to the last. -/
def Ordered : ℕ → List (ℕ × List UInt16) → ℕ → Prop
  | first, [], last => first ≤ last
  | first, (offset, _) :: insertions, last => first ≤ offset ∧ Ordered offset insertions last

theorem Ordered.insert : ∀ {first middle offset last : ℕ} {insertions : List (ℕ × List UInt16)} (text : List UInt16),
    Ordered first insertions middle → middle ≤ offset → offset ≤ last →
    Ordered first (insertions ++ [(offset, text)]) last
  | _, _, _, _, [], _, h, ho, hl => ⟨Nat.le_trans h ho, hl⟩
  | _, _, _, _, _ :: _, text, ⟨hfirst, h⟩, ho, hl => ⟨hfirst, h.insert text ho hl⟩

theorem Ordered.mono : ∀ {first middle last : ℕ} {insertions : List (ℕ × List UInt16)},
    Ordered first insertions middle → middle ≤ last → Ordered first insertions last
  | _, _, _, [], h, hl => Nat.le_trans h hl
  | _, _, _, _ :: _, ⟨hfirst, h⟩, hl => ⟨hfirst, h.mono hl⟩

theorem Ordered.le : ∀ {first last : ℕ} {insertions : List (ℕ × List UInt16)}, Ordered first insertions last →
    first ≤ last
  | _, _, [], h => h
  | _, _, _ :: _, ⟨hfirst, h⟩ => Nat.le_trans hfirst h.le

theorem insertFrom_yields {source : List UInt16} : ∀ {insertions : List (ℕ × List UInt16)} {cursor : ℕ},
    Ordered cursor insertions source.length → Yields (insertFrom source cursor insertions) fun _ => True
  | [], cursor, h => by
    rw [insertFrom, range_of_le h (Nat.le_refl _)]
    exact yields_ok trivial
  | (offset, text) :: insertions, cursor, ⟨hle, h⟩ => by
    rw [insertFrom, if_pos hle, range_of_le hle h.le]
    exact (insertFrom_yields h).bind fun rest _ => yields_ok trivial

/-- What the loop keeps about positions: the token before is the one at the index before, and nothing it has recorded
lies after it. -/
structure Placed (tokens : List Token) (index : ℕ) (progress : Progress) : Prop where
  previous : tokens[index - 1]? = some progress.previous
  positive : 0 < index
  records : ∀ record ∈ progress.delimiters.records, record.openingEnd ≤ progress.previous.stop
  ordered : Ordered 0 progress.insertions progress.previous.start

section Loop

variable {source : List UInt16} {tokens : List Token}

/-- `update_delimiters`, when what it has recorded lies before the token. -/
theorem updateDelimiters_yields {delimiters : Delimiters} {token : Token}
    (hrecords : ∀ record ∈ delimiters.records, record.openingEnd ≤ token.start) (hlt : token.start < token.stop)
    (hle : token.stop ≤ source.length) :
    Yields (updateDelimiters source delimiters token)
      fun delimiters => ∀ record ∈ delimiters.records, record.openingEnd ≤ token.stop := by
  have hdecide : Yields (decideRecords source token delimiters)
      fun delimiters => ∀ record ∈ delimiters.records, record.openingEnd ≤ token.start := by
    unfold decideRecords
    split
    · rename_i record records heq
      rw [heq] at hrecords
      obtain ⟨hrecord, hrest⟩ := List.forall_mem_cons.mp hrecords
      split
      · have hone : Yields (decideRecord source token record) fun record' => record'.openingEnd = record.openingEnd := by
          unfold decideRecord
          dsimp only
          split
          · rw [range_of_le hrecord (by omega)]
            show Yields (if _ then (do let width ← sourceIndentWidth source token.start; _) else _) _
            obtain ⟨width, hwidth⟩ := sourceIndentWidth_ok (show token.start ≤ source.length by omega)
            rw [hwidth]
            split
            · exact yields_ok rfl
            · exact yields_ok rfl
          · exact yields_ok rfl
        refine hone.bind fun record' h => yields_ok fun other ho => ?_
        rcases List.mem_cons.mp ho with rfl | ho
        · exact h ▸ hrecord
        · exact hrest other ho
      · exact yields_ok (heq ▸ hrecords)
    · rename_i heq
      exact yields_ok (heq ▸ hrecords)
  refine hdecide.bind fun delimiters' h => yields_ok ?_
  have hstop : ∀ record ∈ delimiters'.records, record.openingEnd ≤ token.stop :=
    fun record hr => Nat.le_trans (h record hr) (Nat.le_of_lt hlt)
  intro record hr
  unfold countDelimiter at hr
  split at hr
  · dsimp only at hr
    split at hr
    · rcases List.mem_cons.mp hr with rfl | hr
      · exact Nat.le_refl _
      · exact hstop record hr
    · exact hstop record hr
  · split at hr
    · dsimp only at hr
      split at hr
      · rename_i first rest heq
        rw [heq] at hstop
        split at hr
        · exact hstop record (List.mem_cons_of_mem _ hr)
        · exact hstop record hr
      · cases hr
    · exact hstop record hr

theorem follow_placed {index : ℕ} {token : Token} {progress : Progress} (htokens : Ascending source tokens)
    (htoken : tokens[index]? = some token)
    (hrecords : ∀ record ∈ progress.delimiters.records, record.openingEnd ≤ token.start)
    (hordered : Ordered 0 progress.insertions token.start) :
    Yields (follow source token progress) (Placed tokens (index + 1)) := by
  obtain ⟨hlt, hle⟩ := htokens.within token (List.mem_of_getElem? htoken)
  exact (updateDelimiters_yields hrecords hlt hle).bind fun delimiters h =>
    yields_ok ⟨htoken, Nat.succ_pos index, h, hordered⟩

end Loop

end Blot.Layout
