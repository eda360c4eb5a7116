import Blot.Layout.Elaborate

/-!
# What stands between the tokens

The grammar skips whitespace and comments; a comment runs up to the next line feed or carriage return.  The tables of the
lexer are generated from it; `TriviaTables` says what they hold for the two.  From it, what stands between two tokens
that the parser sees has only blanks after its last line end.
-/

namespace Blot.Layout

open Frontend

def acceptSpec (lexer : Lexer) (state : ℕ) : ℤ := lexer.acceptSpecByState.getD state 0

/-- What the generated tables hold for `WHITESPACE` and `COMMENT`: whitespace is read in one state, a comment after its
first slash in another, and these two accept what is skipped. -/
structure TriviaTables (plan : FrontendPlan) (white slash comment : ℕ) : Prop where
  skipped : ∀ state, 0 ≤ acceptSpec plan.lexer state →
    plan.terminalClassification.getD (acceptSpec plan.lexer state).toNat 0 < 0 → state = white ∨ state = comment
  whiteAccepts : 0 ≤ acceptSpec plan.lexer white ∧
    plan.terminalClassification.getD (acceptSpec plan.lexer white).toNat 0 < 0
  commentAccepts : 0 ≤ acceptSpec plan.lexer comment
  start : plan.lexer.startState ≠ white ∧ plan.lexer.startState ≠ slash ∧ plan.lexer.startState ≠ comment
  distinct : white ≠ slash ∧ white ≠ comment ∧ slash ≠ comment
  startInside : plan.lexer.startState < plan.lexer.acceptSpecByState.length
  inside : ∀ state < plan.lexer.acceptSpecByState.length, ∀ point target,
    lexerTransition plan.lexer state point = some target → target < plan.lexer.acceptSpecByState.length
  intoStart : ∀ state < plan.lexer.acceptSpecByState.length, ∀ point,
    lexerTransition plan.lexer state point ≠ some plan.lexer.startState
  intoWhite : ∀ state point, lexerTransition plan.lexer state point = some white →
    (state = plan.lexer.startState ∨ state = white) ∧ (point = 9 ∨ point = 10 ∨ point = 13 ∨ point = 32)
  intoSlash : ∀ state point, lexerTransition plan.lexer state point = some slash →
    state = plan.lexer.startState ∧ point = 47
  intoComment : ∀ state point, lexerTransition plan.lexer state point = some comment →
    state = slash ∧ point = 47 ∨ state = comment ∧ point ≠ 10 ∧ point ≠ 13
  commentGoes : ∀ point, 0 ≤ point → point ≤ 0x10ffff → point ≠ 10 → point ≠ 13 →
    lexerTransition plan.lexer comment point = some comment
  commentStops : ∀ point, point = 10 ∨ point = 13 → lexerTransition plan.lexer comment point = none
  newlines : ∀ point, point = 10 ∨ point = 13 → lexerTransition plan.lexer plan.lexer.startState point = some white
  whiteStays : ∀ point target, lexerTransition plan.lexer white point = some target → target = white

/-- The ASCII transitions of tables with words, `=`, slashes, whitespace and comments. -/
def wordRow : ℕ → ℕ → ℤ
  | 0, point =>
    if point = 9 ∨ point = 10 ∨ point = 13 ∨ point = 32 then 1
    else if point = 47 then 2
    else if 97 ≤ point ∧ point ≤ 122 then 4
    else if point = 61 then 5
    else -1
  | 1, point => if point = 9 ∨ point = 10 ∨ point = 13 ∨ point = 32 then 1 else -1
  | 2, point => if point = 47 then 3 else -1
  | 3, point => if point = 10 ∨ point = 13 then -1 else 3
  | 4, point => if 97 ≤ point ∧ point ≤ 122 then 4 else -1
  | _, _ => -1

/-- Tables with words, `=`, slashes, whitespace and comments, under the specifications of the grammar. -/
def wordPlan : FrontendPlan where
  rootIsland := 0
  terminalClassification := [0, 0, 0, 0, 0, 0, 0, 0, 0, 0, 0, 0, 0, 0, -1, -1]
  boundaries := []
  islands := []
  lexer := ⟨0, (List.range 6).flatMap fun state => (List.range 128).map (wordRow state), [0, 0, 0, 0, 1, 1, 1],
    [128, 0x10ffff, 3], [-1, 14, 13, 15, 0, 13]⟩

/-- An entry of rows one after another. -/
theorem getElem?_rows (row : ℕ → ℕ → ℤ) {width point : ℕ} (hpoint : point < width) : ∀ {states : List ℕ} {index state : ℕ},
    states[index]? = some state →
    (states.flatMap fun state => (List.range width).map (row state))[index * width + point]? = some (row state point)
  | first :: states, 0, state, h => by
    obtain rfl := Option.some.inj h
    rw [List.flatMap_cons, List.getElem?_append_left (by simpa using hpoint)]
    simp [hpoint]
  | first :: states, index + 1, state, h => by
    have hrest := getElem?_rows row hpoint (show states[index]? = some state from h)
    rw [List.flatMap_cons, List.getElem?_append_right (by simp [Nat.succ_mul]; omega), ← hrest]
    congr 1
    simp [Nat.succ_mul]
    omega

theorem wordPlan_ascii {state point : ℕ} (hstate : state < 6) (hpoint : point < 128) :
    wordPlan.lexer.asciiTransitions.getD (state * 128 + point) 0 = wordRow state point := by
  have hrange : (List.range 6)[state]? = some state := by simp [hstate]
  rw [List.getD_eq_getElem?_getD]
  show ((List.range 6).flatMap fun state => (List.range 128).map (wordRow state))[state * 128 + point]?.getD 0 = _
  rw [getElem?_rows wordRow hpoint hrange]
  rfl

/-- The transitions of the tables with words; a state that they lack goes to the first. -/
theorem wordPlan_transition {state : ℕ} {point : ℤ} {target : ℕ}
    (h : lexerTransition wordPlan.lexer state point = some target) :
    (state < 6 ∧ ∃ unit : ℕ, unit < 128 ∧ point = unit ∧ wordRow state unit = target) ∨
      (6 ≤ state ∧ target = 0) ∨ (state = 3 ∧ 128 ≤ point ∧ target = 3) := by
  unfold lexerTransition at h
  split at h
  · rename_i hascii
    have hlt : point.toNat < 128 := by
      have := hascii.2
      unfold asciiLimit at this
      omega
    dsimp only at h
    by_cases hstate : state < 6
    · left
      rw [show asciiLimit = 128 from rfl, wordPlan_ascii hstate hlt] at h
      split at h
      · cases h
      · rename_i hneg
        cases h
        exact ⟨hstate, point.toNat, hlt, by omega, by omega⟩
    · right; left
      have hout : wordPlan.lexer.asciiTransitions.length ≤ state * asciiLimit + point.toNat := by
        have hlength : wordPlan.lexer.asciiTransitions.length = 768 := by decide +kernel
        rw [hlength, show asciiLimit = 128 from rfl]
        omega
      rw [List.getD_eq_getElem?_getD, List.getElem?_eq_none hout] at h
      cases h
      exact ⟨by omega, rfl⟩
  · right; right
    rename_i hascii
    match state with
    | 3 =>
      rw [show (wordPlan.lexer.transitionRows.getD (3 + 1) 0).toNat = 1 from rfl,
        show (wordPlan.lexer.transitionRows.getD 3 0).toNat = 0 from rfl] at h
      change (if 128 ≤ point ∧ point ≤ 0x10ffff then some 3 else none) = some target at h
      split at h
      · rename_i hpoint
        cases h
        exact ⟨rfl, hpoint.1, rfl⟩
      · cases h
    | 0 | 1 | 2 | 4 | 5 => cases h
    | 6 => cases h
    | state + 7 => cases h

theorem wordPlan_tables : TriviaTables wordPlan 1 2 3 where
  skipped state _ hskip := by
    match state with
    | 0 | 2 | 4 | 5 => exact absurd hskip (by decide)
    | 1 => exact .inl rfl
    | 3 => exact .inr rfl
    | state + 6 => exact absurd hskip (show ¬ wordPlan.terminalClassification.getD 0 0 < 0 by decide)
  whiteAccepts := by decide
  commentAccepts := by decide
  start := by decide
  distinct := by decide
  startInside := by decide
  inside state hstate point target h := by
    have hrow : ∀ state < 6, ∀ unit < 128, wordRow state unit < 6 := by decide +kernel
    change target < 6
    rcases wordPlan_transition h with ⟨hlt, unit, hunit, -, he⟩ | ⟨-, rfl⟩ | ⟨-, -, rfl⟩
    · have := hrow state hlt unit hunit
      omega
    · decide
    · decide
  intoStart state hstate point h := by
    have hrow : ∀ state < 6, ∀ unit < 128, wordRow state unit ≠ 0 := by decide +kernel
    change state < 6 at hstate
    rcases wordPlan_transition h with ⟨hlt, unit, hunit, -, he⟩ | ⟨hge, -⟩ | ⟨-, -, he⟩
    · exact hrow state hlt unit hunit he
    · omega
    · cases he
  intoWhite state point h := by
    have hstates : ∀ state < 6, ∀ unit < 128, wordRow state unit = 1 → state < 2 := by decide +kernel
    have hunits : ∀ state < 6, ∀ unit < 128, wordRow state unit = 1 → unit ∈ [9, 10, 13, 32] := by decide +kernel
    rcases wordPlan_transition h with ⟨hlt, unit, hunit, rfl, he⟩ | ⟨-, he⟩ | ⟨-, -, he⟩
    · have hstate := hstates state hlt unit hunit he
      have hpoint := hunits state hlt unit hunit he
      simp only [List.mem_cons, List.not_mem_nil, or_false] at hpoint
      refine ⟨?_, by omega⟩
      change state = 0 ∨ state = 1
      omega
    · cases he
    · cases he
  intoSlash state point h := by
    have hrow : ∀ state < 6, ∀ unit < 128, wordRow state unit = 2 → state = 0 ∧ unit = 47 := by decide +kernel
    rcases wordPlan_transition h with ⟨hlt, unit, hunit, rfl, he⟩ | ⟨-, he⟩ | ⟨-, -, he⟩
    · obtain ⟨hstate, hpoint⟩ := hrow state hlt unit hunit he
      exact ⟨hstate, by omega⟩
    · cases he
    · cases he
  intoComment state point h := by
    have hstates : ∀ state < 6, ∀ unit < 128, wordRow state unit = 3 → state ∈ [2, 3] := by decide +kernel
    have hslash : ∀ unit < 128, wordRow 2 unit = 3 → unit = 47 := by decide +kernel
    have hcomment : ∀ unit < 128, wordRow 3 unit = 3 → unit ∉ [10, 13] := by decide +kernel
    rcases wordPlan_transition h with ⟨hlt, unit, hunit, rfl, he⟩ | ⟨-, he⟩ | ⟨rfl, hlow, -⟩
    · rcases List.mem_cons.mp (hstates state hlt unit hunit he) with rfl | hstate
      · have := hslash unit hunit he
        exact .inl ⟨rfl, by omega⟩
      · obtain rfl := List.mem_singleton.mp hstate
        have hne := hcomment unit hunit he
        simp only [List.mem_cons, List.not_mem_nil, or_false] at hne
        exact .inr ⟨rfl, by omega, by omega⟩
    · cases he
    · exact .inr ⟨rfl, by omega, by omega⟩
  commentGoes point hlow hhigh hfeed hreturn := by
    have hrow : ∀ unit < 128, unit ≠ 10 → unit ≠ 13 → wordRow 3 unit = 3 := by decide +kernel
    by_cases hascii : point < 128
    · unfold lexerTransition
      rw [if_pos ⟨hlow, hascii⟩, show asciiLimit = 128 from rfl,
        wordPlan_ascii (show 3 < 6 by decide) (show point.toNat < 128 by omega),
        hrow point.toNat (by omega) (by omega) (by omega)]
      rfl
    · unfold lexerTransition
      rw [if_neg fun h => hascii h.2]
      change (if 128 ≤ point ∧ point ≤ 0x10ffff then some 3 else none) = some 3
      exact if_pos ⟨by omega, hhigh⟩
  commentStops := by
    rintro point (rfl | rfl) <;> decide +kernel
  newlines := by
    rintro point (rfl | rfl) <;> decide +kernel
  whiteStays point target h := by
    have hrow : ∀ unit < 128, wordRow 1 unit = 1 ∨ wordRow 1 unit = -1 := by decide +kernel
    rcases wordPlan_transition h with ⟨-, unit, hunit, -, he⟩ | ⟨hge, -⟩ | ⟨hstate, -⟩
    · have := hrow unit hunit
      omega
    · omega
    · cases hstate

/-- The text of `WHITESPACE`. -/
def White (text : List UInt16) : Prop := ∀ unit ∈ text, isBlank unit = true ∨ isNewline unit = true

/-- The text of `COMMENT`. -/
def Comment (text : List UInt16) : Prop :=
  ∃ body, text = 47 :: 47 :: body ∧ ∀ unit ∈ body, isNewline unit = false

def LineEnds (rest : List UInt16) : Prop := ∀ unit ∈ rest.head?, isNewline unit = true

section CodePoint

variable {unit : UInt16} {rest : List UInt16}

theorem isNewline_iff : isNewline unit = true ↔ unit.toNat = 10 ∨ unit.toNat = 13 := by
  simp only [isNewline, isLineFeed, isCarriageReturn, Bool.or_eq_true, decide_eq_true_eq, ← UInt16.toNat_inj]
  rfl

theorem isBlank_iff : isBlank unit = true ↔ unit.toNat = 32 ∨ unit.toNat = 9 := by
  simp only [isBlank, Bool.or_eq_true, decide_eq_true_eq, ← UInt16.toNat_inj]
  rfl

/-- A code point is its unit, or takes two units of which none is a line end. -/
theorem sourceCodePoint_cases (unit : UInt16) (rest : List UInt16) :
    sourceCodePoint (unit :: rest) = ((unit.toNat : ℤ), 1) ∨
      ∃ second rest' point, rest = second :: rest' ∧ sourceCodePoint (unit :: rest) = (point, 2) ∧
        0x10000 ≤ point ∧ point ≤ 0x10ffff ∧ isNewline unit = false ∧ isNewline second = false := by
  cases rest with
  | nil => exact .inl rfl
  | cons second rest' =>
    rw [sourceCodePoint]
    split
    · rename_i hpair
      obtain ⟨h₁, h₂, h₃, h₄⟩ := hpair
      have h₁ : 0xd800 ≤ unit.toNat := UInt16.le_iff_toNat_le.mp h₁
      have h₂ : unit.toNat ≤ 0xdbff := UInt16.le_iff_toNat_le.mp h₂
      have h₃ : 0xdc00 ≤ second.toNat := UInt16.le_iff_toNat_le.mp h₃
      have h₄ : second.toNat ≤ 0xdfff := UInt16.le_iff_toNat_le.mp h₄
      refine .inr ⟨second, rest', _, rfl, rfl, by omega, by omega, ?_, ?_⟩
      · by_contra h
        have := isNewline_iff.mp (by simpa using h)
        omega
      · by_contra h
        have := isNewline_iff.mp (by simpa using h)
        omega
    · exact .inl rfl

end CodePoint

section Scan

variable {plan : FrontendPlan} {white slash comment : ℕ}

/-- What the lexer has read when it is in a state. -/
structure Read (plan : FrontendPlan) (white slash comment state : ℕ) (text : List UInt16) : Prop where
  inside : state < plan.lexer.acceptSpecByState.length
  start : state = plan.lexer.startState → text = []
  white : state = white → White text
  slash : state = slash → text = [47]
  comment : state = comment → Comment text

theorem read_start (h : TriviaTables plan white slash comment) : Read plan white slash comment plan.lexer.startState [] :=
  ⟨h.startInside, fun _ => rfl, fun he => absurd he h.start.1, fun he => absurd he h.start.2.1,
    fun he => absurd he h.start.2.2⟩

theorem White.append {text more : List UInt16} (h : White text) (h' : White more) : White (text ++ more) :=
  fun unit hu => (List.mem_append.mp hu).elim (h unit) (h' unit)

/-- One code point more. -/
theorem Read.step (h : TriviaTables plan white slash comment) {state target : ℕ} {text : List UInt16} {unit : UInt16}
    {rest : List UInt16} (hread : Read plan white slash comment state text)
    (htarget : lexerTransition plan.lexer state (sourceCodePoint (unit :: rest)).1 = some target) :
    Read plan white slash comment target (text ++ (unit :: rest).take (sourceCodePoint (unit :: rest)).2) := by
  refine ⟨h.inside _ hread.inside _ _ htarget, ?_, ?_, ?_, ?_⟩
  · rintro rfl
    exact absurd htarget (h.intoStart _ hread.inside _)
  · rintro rfl
    obtain ⟨hstate, hpoint⟩ := h.intoWhite _ _ htarget
    rcases sourceCodePoint_cases unit rest with he | ⟨second, rest', point, rfl, he, hlow, -⟩
    · rw [he] at hpoint ⊢
      dsimp only at hpoint
      have hunit : White [unit] := by
        intro u hu
        obtain rfl := List.mem_singleton.mp hu
        rw [isBlank_iff, isNewline_iff]
        omega
      rcases hstate with rfl | rfl
      · rw [hread.start rfl]
        exact hunit
      · exact (hread.white rfl).append hunit
    · rw [he] at hpoint
      dsimp only at hpoint
      omega
  · rintro rfl
    obtain ⟨rfl, hpoint⟩ := h.intoSlash _ _ htarget
    rcases sourceCodePoint_cases unit rest with he | ⟨second, rest', point, rfl, he, hlow, -⟩
    · rw [he] at hpoint ⊢
      dsimp only at hpoint
      have hunit : unit = 47 := UInt16.toNat_inj.mp (by show unit.toNat = 47; omega)
      rw [hread.start rfl, hunit]
      rfl
    · rw [he] at hpoint
      dsimp only at hpoint
      omega
  · rintro rfl
    rcases h.intoComment _ _ htarget with ⟨rfl, hpoint⟩ | ⟨rfl, hfeed, hreturn⟩
    · rcases sourceCodePoint_cases unit rest with he | ⟨second, rest', point, rfl, he, hlow, -⟩
      · rw [he] at hpoint ⊢
        dsimp only at hpoint
        have hunit : unit = 47 := UInt16.toNat_inj.mp (by show unit.toNat = 47; omega)
        rw [hread.slash rfl, hunit]
        exact ⟨[], rfl, fun _ hu => nomatch hu⟩
      · rw [he] at hpoint
        dsimp only at hpoint
        omega
    · obtain ⟨body, rfl, hbody⟩ := hread.comment rfl
      refine ⟨body ++ _, rfl, fun u hu => ?_⟩
      rcases List.mem_append.mp hu with hu | hu
      · exact hbody u hu
      · rcases sourceCodePoint_cases unit rest with he | ⟨second, rest', point, rfl, he, -, -, hunit, hsecond⟩
        · rw [he] at hfeed hreturn hu
          obtain rfl := List.mem_singleton.mp hu
          dsimp only at hfeed hreturn
          by_contra hn
          have := isNewline_iff.mp (by simpa using hn)
          omega
        · rw [he] at hu
          rcases List.mem_cons.mp hu with rfl | hu
          · exact hunit
          · obtain rfl := List.mem_singleton.mp hu
            exact hsecond

theorem comment_goes (h : TriviaTables plan white slash comment) {unit : UInt16} (rest : List UInt16)
    (hn : isNewline unit = false) :
    lexerTransition plan.lexer comment (sourceCodePoint (unit :: rest)).1 = some comment := by
  have hne : ¬ (unit.toNat = 10 ∨ unit.toNat = 13) := fun hc => by
    rw [isNewline_iff.mpr hc] at hn
    cases hn
  have hlt : unit.toNat < 65536 := unit.toNat_lt
  rcases sourceCodePoint_cases unit rest with he | ⟨second, rest', point, rfl, he, hlow, hhigh, -⟩
  · rw [he]
    exact h.commentGoes _ (by omega) (by dsimp only; omega) (by dsimp only; omega) (by dsimp only; omega)
  · rw [he]
    exact h.commentGoes _ (by omega) hhigh (by omega) (by omega)

theorem comment_stops (h : TriviaTables plan white slash comment) {unit : UInt16} (rest : List UInt16)
    (hn : isNewline unit = true) : lexerTransition plan.lexer comment (sourceCodePoint (unit :: rest)).1 = none := by
  have hc := isNewline_iff.mp hn
  rcases sourceCodePoint_cases unit rest with he | ⟨second, rest', point, rfl, -, -, -, hunit, -⟩
  · rw [he]
    exact h.commentStops _ (by dsimp only; omega)
  · rw [hn] at hunit
    cases hunit

/-- What a match of skipped text is: whitespace, or a comment up to the end of its line. -/
def Skips (plan : FrontendPlan) (units : List UInt16) (position : ℕ) (found : Option (ℕ × ℕ)) : Prop :=
  ∀ stop spec, found = some (stop, spec) → plan.terminalClassification.getD spec 0 < 0 →
    ∃ text rest, units = text ++ rest ∧ stop = position + text.length ∧ (White text ∨ Comment text ∧ LineEnds rest)

/-- **What the loop of the lexer matches and skips.** -/
theorem scanFrom_skips (h : TriviaTables plan white slash comment) {all : List UInt16} {position : ℕ} :
    ∀ (units : List UInt16) (state cursor : ℕ) (scan : Scan) (text : List UInt16), all = text ++ units →
      cursor = position + text.length → Read plan white slash comment state text →
      (Skips plan all position scan.accepted ∨
        state = comment ∧ ∃ spec, scan.accepted = some (cursor, spec)) →
      Skips plan all position (scanFrom plan.lexer units state cursor scan).accepted := by
  intro units state cursor scan
  fun_induction scanFrom plan.lexer units state cursor scan with
  | case1 state cursor scan =>
    rintro text rfl rfl hread (hscan | ⟨rfl, spec, hscan⟩)
    · exact hscan
    · intro stop spec' he hskip
      rw [hscan] at he
      cases he
      exact ⟨text, [], rfl, rfl, .inr ⟨hread.comment rfl, fun _ hu => nomatch hu⟩⟩
  | case2 unit rest state cursor scan point width hpoint hnone =>
    rintro text rfl rfl hread (hscan | ⟨rfl, spec, hscan⟩)
    · exact hscan
    · intro stop spec' he hskip
      have he : scan.accepted = some (stop, spec') := he
      rw [hscan] at he
      cases he
      refine ⟨text, unit :: rest, rfl, rfl, .inr ⟨hread.comment rfl, ?_⟩⟩
      -- a comment stops only at a line end
      rintro u hu
      obtain rfl := Option.some.inj hu
      by_contra hn
      have hgoes := comment_goes h rest (Bool.eq_false_iff.mpr hn)
      rw [hpoint, hnone] at hgoes
      cases hgoes
  | case3 unit rest state cursor scan point width hpoint target htarget spec accepted ih =>
    rintro text rfl rfl hread hscan
    have hwidth := sourceCodePoint_width (unit :: rest)
    have htake : unit :: rest = (unit :: rest).take width ++ rest.drop (width - 1) := by
      rw [hpoint] at hwidth
      obtain ⟨k, rfl⟩ : ∃ k, width = k + 1 := ⟨width - 1, by omega⟩
      rw [List.take_succ_cons, Nat.add_sub_cancel, List.cons_append, List.take_append_drop]
    have hlength : ((unit :: rest).take width).length = width := by
      rcases sourceCodePoint_cases unit rest with he | ⟨second, rest', point', rfl, he, -⟩
      · rw [hpoint] at he
        cases he
        rfl
      · rw [hpoint] at he
        cases he
        rfl
    have hread' := hread.step h (by rw [hpoint]; exact htarget)
    rw [hpoint] at hread'
    refine ih (text ++ (unit :: rest).take width) ?_ ?_ hread' ?_
    · rw [List.append_assoc, ← htake]
    · rw [List.length_append, hlength, Nat.add_assoc]
    · by_cases hspec : 0 ≤ spec
      · have haccepted : accepted = some (position + text.length + width, spec.toNat) := if_pos hspec
        by_cases hcomment : target = comment
        · exact .inr ⟨hcomment, spec.toNat, haccepted⟩
        · left
          intro stop spec' he hskip
          have he : accepted = some (stop, spec') := he
          rw [haccepted] at he
          cases he
          rcases h.skipped target hspec hskip with rfl | hc
          · exact ⟨_, rest.drop (width - 1), by rw [List.append_assoc, ← htake],
              by rw [List.length_append, hlength, Nat.add_assoc], .inl (hread'.white rfl)⟩
          · exact absurd hc hcomment
      · have haccepted : accepted = scan.accepted := if_neg hspec
        left
        rw [show (Scan.mk accepted (position + text.length + width)).accepted = scan.accepted from haccepted]
        rcases hscan with hscan | ⟨rfl, -⟩
        · exact hscan
        · -- a comment that goes on is accepted again
          cases hn : isNewline unit with
          | true =>
            have hstops := comment_stops h rest hn
            rw [hpoint, htarget] at hstops
            cases hstops
          | false =>
            have hgoes := comment_goes h rest hn
            rw [hpoint, htarget] at hgoes
            cases hgoes
            exact absurd h.commentAccepts hspec

theorem scanFrom_white (h : TriviaTables plan white slash comment) : ∀ (units : List UInt16) (state cursor : ℕ)
    (scan : Scan), state = white →
    (∃ stop, scan.accepted = some (stop, (acceptSpec plan.lexer white).toNat)) →
    ∃ stop, (scanFrom plan.lexer units state cursor scan).accepted =
      some (stop, (acceptSpec plan.lexer white).toNat) := by
  intro units state cursor scan
  fun_induction scanFrom plan.lexer units state cursor scan with
  | case1 state cursor scan => exact fun _ hscan => hscan
  | case2 unit rest state cursor scan point width hpoint hnone => exact fun _ hscan => hscan
  | case3 unit rest state cursor scan point width hpoint target htarget spec accepted ih =>
    rintro rfl -
    obtain rfl := h.whiteStays _ _ htarget
    exact ih rfl ⟨_, if_pos h.whiteAccepts.1⟩

theorem not_newline_of_token (h : TriviaTables plan white slash comment) {source : List UInt16} {position output : ℕ}
    {token : Token} (htoken : lexAt plan source position output = .ok token) (hseen : 0 ≤ token.terminal)
    {unit : UInt16} {rest : List UInt16} (hdrop : source.drop position = unit :: rest) : isNewline unit = false := by
  by_contra hn
  have hn := isNewline_iff.mp (by simpa using hn)
  obtain ⟨stop, spec, hscan, rfl⟩ := lexAt_eq_ok.mp htoken
  rw [scanAt, hdrop] at hscan
  rcases sourceCodePoint_cases unit rest with he | ⟨second, rest', point, rfl, -, -, -, hunit, -⟩
  · have hstart := h.newlines unit.toNat (by omega)
    have hwhite := h.whiteAccepts
    obtain ⟨stop', hstop'⟩ := scanFrom_white h (rest.drop 0) white (position + 1)
      ⟨some (position + 1, (acceptSpec plan.lexer white).toNat), position + 1⟩ rfl ⟨_, rfl⟩
    rw [scanFrom, he] at hscan
    simp only [hstart] at hscan
    rw [if_pos (show 0 ≤ plan.lexer.acceptSpecByState.getD white 0 from hwhite.1)] at hscan
    obtain rfl : spec = (acceptSpec plan.lexer white).toNat := by
      have := hscan.symm.trans hstop'
      cases this
      rfl
    exact absurd hseen (Int.not_le.mpr hwhite.2)
  · have := isNewline_iff.mpr hn
    rw [hunit] at this
    cases this

theorem skipped_token (h : TriviaTables plan white slash comment) {source : List UInt16} {position output : ℕ}
    {token : Token} (htoken : lexAt plan source position output = .ok token) (hskip : token.terminal < 0) :
    ∃ text, source.drop position = text ++ source.drop token.stop ∧ token.stop = position + text.length ∧
      (White text ∨ Comment text ∧ LineEnds (source.drop token.stop)) := by
  obtain ⟨stop, spec, hscan, rfl⟩ := lexAt_eq_ok.mp htoken
  obtain ⟨text, rest, hdrop, rfl, hkind⟩ := scanFrom_skips h (source.drop position) plan.lexer.startState position
    ⟨none, position⟩ [] rfl rfl (read_start h) (.inl fun _ _ he => nomatch he) stop spec hscan hskip
  rw [List.nil_append] at hdrop
  have hrest : source.drop (position + text.length) = rest := by
    rw [← List.drop_drop, hdrop, List.drop_left]
  dsimp only
  exact ⟨text, by rw [hrest, hdrop], rfl, by rw [hrest]; exact hkind⟩

end Scan

/-! ### Gaps -/

/-- What stands between two tokens that the parser sees: a comment is followed by the end of its line. -/
inductive Trivia : List UInt16 → Prop where
  | nil : Trivia []
  | white {text rest : List UInt16} (h : White text) (tail : Trivia rest) : Trivia (text ++ rest)
  | comment {text rest : List UInt16} {unit : UInt16} (h : Comment text) (newline : isNewline unit = true)
      (tail : Trivia (unit :: rest)) : Trivia (text ++ unit :: rest)

theorem isBlank_of_white {text : List UInt16} (h : White text) (hn : ∀ unit ∈ text, isNewline unit = false) :
    ∀ unit ∈ text, isBlank unit = true := by
  intro unit hu
  rcases h unit hu with hb | hb
  · exact hb
  · rw [hn unit hu] at hb
    cases hb

/-- Trivia without a line end is blank. -/
theorem Trivia.blank {gap : List UInt16} (h : Trivia gap) :
    (∀ unit ∈ gap, isNewline unit = false) → ∀ unit ∈ gap, isBlank unit = true := by
  induction h with
  | nil => exact fun _ _ hu => nomatch hu
  | @white text rest h _ ih =>
    intro hn unit hu
    rcases List.mem_append.mp hu with hu | hu
    · exact isBlank_of_white h (fun u hu => hn u (List.mem_append_left _ hu)) unit hu
    · exact ih (fun u hu => hn u (List.mem_append_right _ hu)) unit hu
  | @comment text rest unit _ newline _ _ =>
    intro hn
    rw [hn unit (by simp)] at newline
    cases newline

/-- **After its last line end, trivia is blank.** -/
theorem Trivia.tail {gap : List UInt16} (h : Trivia gap) : ∀ {front back : List UInt16} {unit : UInt16},
    gap = front ++ unit :: back → isNewline unit = true → (∀ u ∈ back, isNewline u = false) →
    ∀ u ∈ back, isBlank u = true := by
  induction h with
  | nil => intro front back unit he; simp at he
  | @white text rest h htail ih =>
    intro front back unit he hn hback
    rcases List.append_eq_append_iff.mp he with ⟨more, rfl, hrest⟩ | ⟨more, rfl, hrest⟩
    · exact ih hrest hn hback
    · cases more with
      | nil =>
        rw [List.nil_append] at hrest
        exact ih (show _ = [] ++ unit :: back from hrest.symm) hn hback
      | cons head more =>
        rw [List.cons_append, List.cons.injEq] at hrest
        obtain ⟨rfl, rfl⟩ := hrest
        have hwhite : White more := fun u hu => h u (by simp [hu])
        intro u hu
        rcases List.mem_append.mp hu with hu' | hu'
        · exact isBlank_of_white hwhite (fun u hu => hback u (List.mem_append_left _ hu)) u hu'
        · exact htail.blank (fun u hu => hback u (List.mem_append_right _ hu)) u hu'
  | @comment text rest head h newline _ ih =>
    intro front back unit he hn hback
    rcases List.append_eq_append_iff.mp he with ⟨more, rfl, hrest⟩ | ⟨more, rfl, hrest⟩
    · exact ih hrest hn hback
    · cases more with
      | nil =>
        rw [List.nil_append] at hrest
        exact ih (show _ = [] ++ unit :: back from hrest.symm) hn hback
      | cons head' more =>
        rw [List.cons_append, List.cons.injEq] at hrest
        obtain ⟨rfl, -⟩ := hrest
        -- no line end stands in a comment
        obtain ⟨body, hbody, hnone⟩ := h
        exfalso
        have hmem : unit ∈ (47 :: 47 :: body : List UInt16) := by
          rw [← hbody]
          simp
        rcases List.mem_cons.mp hmem with rfl | hmem
        · cases hn
        · rcases List.mem_cons.mp hmem with rfl | hmem
          · cases hn
          · rw [hnone unit hmem] at hn
            cases hn

section Gaps

variable {plan : FrontendPlan} {white slash comment : ℕ} {source : List UInt16}

theorem gap_before (h : TriviaTables plan white slash comment) {position output : ℕ} {tokens : List Token}
    (hlex : Lexes plan source position output tokens) : ∀ {token : Token}, (syntaxTokens tokens).head? = some token →
    ∃ gap, Trivia gap ∧ source.drop position = gap ++ source.drop token.start ∧
      token.start = position + gap.length ∧
      ∃ unit rest, source.drop token.start = unit :: rest ∧ isNewline unit = false := by
  induction hlex with
  | done => intro token ht; cases ht
  | @token p o t ts hp ht hrest ih =>
    intro token hhead
    obtain ⟨hstart, -, -⟩ := lexAt_ok ht
    by_cases hseen : 0 ≤ t.terminal
    · rw [syntaxTokens, List.filter_cons_of_pos (by simpa using hseen)] at hhead
      obtain rfl := Option.some.inj hhead
      have hdrop : source.drop p = source[p] :: source.drop (p + 1) := List.drop_eq_getElem_cons hp
      exact ⟨[], .nil, by rw [hstart]; rfl, hstart, source[p], source.drop (p + 1),
        by rw [hstart]; exact hdrop, not_newline_of_token h ht hseen hdrop⟩
    · have htail : (syntaxTokens ts).head? = some token := by
        rw [syntaxTokens, List.filter_cons_of_neg (by simpa using hseen)] at hhead
        exact hhead
      obtain ⟨gap, hgap, hdrop, hlength, unit, rest, hfirst, hunit⟩ := ih htail
      obtain ⟨text, hdrop', hstop, hkind⟩ := skipped_token h ht (Int.not_le.mp hseen)
      refine ⟨text ++ gap, ?_, by rw [hdrop', hdrop, List.append_assoc], ?_, unit, rest, hfirst, hunit⟩
      · rcases hkind with hwhite | ⟨hcomment, hline⟩
        · exact .white hwhite hgap
        · -- a comment is followed by the end of its line, which is not where a token starts
          cases gap with
          | nil =>
            rw [hdrop, hfirst] at hline
            rw [hline unit rfl] at hunit
            cases hunit
          | cons head gap =>
            refine .comment hcomment (hline head ?_) hgap
            rw [hdrop]
            rfl
      · rw [hlength, hstop, List.length_append, Nat.add_assoc]

theorem lexes_after {position output : ℕ} {tokens : List Token} (hlex : Lexes plan source position output tokens) :
    ∀ {index : ℕ} {token : Token}, (syntaxTokens tokens)[index]? = some token →
    ∃ output' rest, Lexes plan source token.stop output' rest ∧
      (syntaxTokens rest)[0]? = (syntaxTokens tokens)[index + 1]? := by
  induction hlex with
  | done => intro index token ht; simp [syntaxTokens] at ht
  | @token p o t ts hp ht hrest ih =>
    intro index token htoken
    by_cases hseen : 0 ≤ t.terminal
    · rw [syntaxTokens, List.filter_cons_of_pos (by simpa using hseen)] at htoken ⊢
      cases index with
      | zero =>
        obtain rfl := Option.some.inj htoken
        exact ⟨_, _, hrest, rfl⟩
      | succ index => exact ih htoken
    · rw [syntaxTokens, List.filter_cons_of_neg (by simpa using hseen)] at htoken ⊢
      exact ih htoken

/-- **The gap between two tokens that the parser sees is trivia.** -/
theorem gap_between (h : TriviaTables plan white slash comment) {tokens : List Token}
    (hlex : Lexes plan source 0 0 tokens) {index : ℕ} {previous token : Token}
    (hprevious : (syntaxTokens tokens)[index]? = some previous) (htoken : (syntaxTokens tokens)[index + 1]? = some token) :
    ∃ gap, Trivia gap ∧ source.drop previous.stop = gap ++ source.drop token.start ∧
      token.start = previous.stop + gap.length := by
  obtain ⟨output, rest, hrest, hhead⟩ := lexes_after hlex hprevious
  obtain ⟨gap, hgap, hdrop, hlength, -⟩ :=
    gap_before h hrest (by rw [List.head?_eq_getElem?, hhead, htoken])
  exact ⟨gap, hgap, hdrop, hlength⟩

end Gaps

end Blot.Layout
