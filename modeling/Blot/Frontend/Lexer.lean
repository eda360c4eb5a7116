import Mathlib.Algebra.Order.Ring.Nat
import Mathlib.Data.List.Basic
import Blot.Ast

/-!
# The lexer of the frontend (`frontend.rs`)

A source is a vector of UTF-16 units.  The generated tables are parameters; the code that reads them is modelled.  A
token records how far the lexer looked (`dependencyEnd`), which is what re-lexing after an edit rests on.
-/

namespace Blot.Frontend

/-- A source.  The compiler is built for `wasm32`, where a vector holds at most `isize::MAX` bytes. -/
structure Source where
  units : List UInt16
  fits : 2 * units.length < 2 ^ 31

/-- `Diagnostic`, without the origin that is set later. -/
structure Diagnostic where
  code : String
  message : String
  span : Span
  deriving DecidableEq

inductive Boundary where
  | root
  | terminated (terminal : ℤ)
  | paired (openTerminal closeTerminal : ℤ)
  | separated (openTerminal closeTerminal separatorTerminal : ℤ)

inductive InputKind where
  | terminal | island
  deriving DecidableEq

/-- `IslandTransition`, with the field that it emits. -/
structure IslandTransition where
  inputKind : InputKind
  input : ℤ
  target : ℕ
  field : ℤ

structure IslandState where
  accepting : Bool
  transitions : List IslandTransition

structure Island where
  ruleId : ℤ
  startState : ℕ
  states : List IslandState

structure Lexer where
  startState : ℕ
  asciiTransitions : List ℤ
  transitionRows : List ℤ
  transitions : List ℤ
  acceptSpecByState : List ℤ

/-- `FrontendPlan`: the generated tables. -/
structure FrontendPlan where
  rootIsland : ℕ
  terminalClassification : List ℤ
  boundaries : List Boundary
  islands : List Island
  lexer : Lexer

structure Token where
  terminal : ℤ
  start : ℕ
  stop : ℕ
  lexicalIdentity : ℤ
  outputIndex : ℕ
  dependencyEnd : ℕ
  deriving DecidableEq

/-! ### Code points and transitions -/

/-- `source_code_point` on the units from a position on: the code point and how many units it takes. -/
def sourceCodePoint : List UInt16 → ℤ × ℕ
  | [] => (0, 1)
  | [first] => (first.toNat, 1)
  | first :: second :: _ =>
    if 0xd800 ≤ first ∧ first ≤ 0xdbff ∧ 0xdc00 ≤ second ∧ second ≤ 0xdfff then
      (0x10000 + (first.toNat - 0xd800) * 2 ^ 10 + (second.toNat - 0xdc00), 2)
    else (first.toNat, 1)

def asciiLimit : ℕ := 128

/-- The rows of `lexer_transition` from `index` on, `count` of them. -/
def findTransition (transitions : List ℤ) (codePoint : ℤ) (index : ℕ) : ℕ → Option ℕ
  | 0 => none
  | count + 1 =>
    let base := index * 3
    if transitions.getD base 0 ≤ codePoint ∧ codePoint ≤ transitions.getD (base + 1) 0 then
      let target := transitions.getD (base + 2) 0
      if target < 0 then none else some target.toNat
    else findTransition transitions codePoint (index + 1) count

def lexerTransition (lexer : Lexer) (state : ℕ) (codePoint : ℤ) : Option ℕ :=
  if 0 ≤ codePoint ∧ codePoint < asciiLimit then
    let target := lexer.asciiTransitions.getD (state * asciiLimit + codePoint.toNat) 0
    if target < 0 then none else some target.toNat
  else
    let low := (lexer.transitionRows.getD state 0).toNat
    let high := (lexer.transitionRows.getD (state + 1) 0).toNat
    findTransition lexer.transitions codePoint low (high - low)

/-! ### Lexing -/

/-- What the loop of `lex_at` has found: the end and the specification of the longest match, and how far it looked. -/
structure Scan where
  accepted : Option (ℕ × ℕ)
  dependencyEnd : ℕ
  deriving DecidableEq

/-- The loop of `lex_at` over the units from `cursor` on. -/
def scanFrom (lexer : Lexer) : List UInt16 → ℕ → ℕ → Scan → Scan
  | [], _, _, scan => scan
  | unit :: rest, state, cursor, scan =>
    let (codePoint, width) := sourceCodePoint (unit :: rest)
    match lexerTransition lexer state codePoint with
    | none => { scan with dependencyEnd := cursor + width }
    | some target =>
      let spec := lexer.acceptSpecByState.getD target 0
      let accepted := if 0 ≤ spec then some (cursor + width, spec.toNat) else scan.accepted
      scanFrom lexer (rest.drop (width - 1)) target (cursor + width) ⟨accepted, cursor + width⟩
termination_by units => units.length
decreasing_by
  rw [List.length_drop, List.length_cons]
  omega

attribute [elab_as_elim] scanFrom.induct_unfolding

def sourceSpan (start stop : ℕ) : Span := ⟨start, stop⟩

/-- The loop of `lex_at` from a position. -/
def scanAt (plan : FrontendPlan) (source : List UInt16) (position : ℕ) : Scan :=
  scanFrom plan.lexer (source.drop position) plan.lexer.startState position ⟨none, position⟩

/-- `lex_at`: the token at a position, or a diagnostic and the position to go on at. -/
def lexAt (plan : FrontendPlan) (source : List UInt16) (position outputIndex : ℕ) : Except (Diagnostic × ℕ) Token :=
  match (scanAt plan source position).accepted with
  | none =>
    let width := (sourceCodePoint (source.drop position)).2
    .error (⟨"GPU_FRONTEND_LEXICAL_ERROR",
      s!"No token matches source span [{position}, {position + width}); first UTF-16 unit is {source.getD position 0}.",
      sourceSpan position (position + width)⟩, position + width)
  | some (stop, spec) => .ok
    { terminal := plan.terminalClassification.getD spec 0
      start := position
      stop := stop
      lexicalIdentity := spec
      outputIndex := outputIndex
      dependencyEnd := (scanAt plan source position).dependencyEnd }

section Scan

variable {lexer : Lexer} {units : List UInt16} {state cursor : ℕ} {scan : Scan}

theorem sourceCodePoint_width (units : List UInt16) :
    1 ≤ (sourceCodePoint units).2 ∧ (sourceCodePoint units).2 ≤ 2 := by
  unfold sourceCodePoint
  split
  · exact ⟨le_rfl, by omega⟩
  · exact ⟨le_rfl, by omega⟩
  · split
    · exact ⟨by omega, le_rfl⟩
    · exact ⟨le_rfl, by omega⟩

/-- A round accepts a match that ends where it stopped, or keeps the match that it was given. -/
theorem accepted_cases {spec : ℤ} {stop : ℕ} {accepted : Option (ℕ × ℕ)} {e : ℕ × ℕ}
    (h : (if 0 ≤ spec then some (stop, spec.toNat) else accepted) = some e) : e.1 = stop ∨ accepted = some e := by
  by_cases hspec : 0 ≤ spec
  · rw [if_pos hspec] at h
    obtain rfl := Option.some.inj h
    exact .inl rfl
  · exact .inr ((if_neg hspec).symm.trans h)

theorem scanFrom_accepted {P : ℕ × ℕ → Prop} (hlater : ∀ e, cursor < e.1 → P e)
    (hscan : ∀ e, scan.accepted = some e → P e) {e : ℕ × ℕ}
    (h : (scanFrom lexer units state cursor scan).accepted = some e) : P e := by
  fun_induction scanFrom lexer units state cursor scan with
  | case1 => exact hscan e h
  | case2 => exact hscan e h
  | case3 unit rest state cursor scan codePoint width hpoint target _ spec accepted ih =>
    have hwidth := (sourceCodePoint_width (unit :: rest)).1
    rw [hpoint] at hwidth
    refine ih (fun e he => hlater e (by omega)) (fun e he => ?_) h
    rcases accepted_cases he with hstop | he
    · exact hlater e (by omega)
    · exact hscan e he

theorem le_dependencyEnd (h : cursor ≤ scan.dependencyEnd) :
    cursor ≤ (scanFrom lexer units state cursor scan).dependencyEnd := by
  fun_induction scanFrom lexer units state cursor scan with
  | case1 => exact h
  | case2 => exact Nat.le_add_right _ _
  | case3 unit rest state cursor scan codePoint width _ target _ spec accepted ih =>
    exact (Nat.le_add_right _ _).trans (ih le_rfl)

theorem sourceCodePoint_congr {units units' : List UInt16} (h : units.take 2 = units'.take 2) :
    sourceCodePoint units = sourceCodePoint units' := by
  match units, units' with
  | [], [] => rfl
  | [], _ :: _ => simp at h
  | _ :: _, [] => simp at h
  | [a], [b] =>
    obtain rfl : a = b := by simpa using h
    rfl
  | [_], _ :: _ :: _ => simp at h
  | _ :: _ :: _, [_] => simp at h
  | a :: b :: _, a' :: b' :: _ =>
    obtain ⟨rfl, rfl⟩ : a = a' ∧ b = b' := by simpa using h
    rfl

theorem sourceCodePoint_of_take {units units' : List UInt16} {n : ℕ} (hn : 2 ≤ n)
    (htake : units.take n = units'.take n) : sourceCodePoint units' = sourceCodePoint units := by
  refine (sourceCodePoint_congr ?_).symm
  have htwo := congrArg (List.take 2) htake
  rwa [List.take_take, List.take_take, Nat.min_eq_left hn] at htwo

/-- **The loop depends on the units up to the first one after what it looked at.** -/
theorem scanFrom_congr {units' : List UInt16} {n : ℕ} (htake : units.take n = units'.take n)
    (hstart : scan.dependencyEnd = cursor)
    (h : (scanFrom lexer units state cursor scan).dependencyEnd < cursor + n) :
    scanFrom lexer units' state cursor scan = scanFrom lexer units state cursor scan := by
  fun_induction scanFrom lexer units state cursor scan generalizing units' n with
  | case1 state cursor scan =>
    have hn : 0 < n := by omega
    cases units' with
    | nil => rw [scanFrom]
    | cons unit rest =>
      obtain ⟨n, rfl⟩ := Nat.exists_eq_succ_of_ne_zero hn.ne'
      simp at htake
  | case2 unit rest state cursor scan codePoint width hpoint hnone =>
    have hwidth := (sourceCodePoint_width (unit :: rest)).1
    rw [hpoint] at hwidth
    have hn : width < n := Nat.lt_of_add_lt_add_left h
    have hpoint' := (sourceCodePoint_of_take (by omega) htake).trans hpoint
    obtain ⟨n, rfl⟩ := Nat.exists_eq_succ_of_ne_zero (by omega : n ≠ 0)
    cases units' with
    | nil => simp at htake
    | cons unit' rest' =>
      rw [scanFrom, hpoint']
      simp only [hnone]
  | case3 unit rest state cursor scan codePoint width hpoint target htarget =>
    rename_i spec accepted ih
    have hwidth := sourceCodePoint_width (unit :: rest)
    rw [hpoint] at hwidth
    have hn : width < n := by
      refine Nat.lt_of_add_lt_add_left (lt_of_le_of_lt ?_ h)
      exact le_dependencyEnd le_rfl
    have hpoint' := (sourceCodePoint_of_take (by omega) htake).trans hpoint
    obtain ⟨n, rfl⟩ := Nat.exists_eq_succ_of_ne_zero (by omega : n ≠ 0)
    cases units' with
    | nil => simp at htake
    | cons unit' rest' =>
      have hrest : rest.take n = rest'.take n := by
        have htake : unit :: rest.take n = unit' :: rest'.take n := htake
        exact (List.cons.inj htake).2
      rw [scanFrom, hpoint']
      simp only [htarget]
      refine ih (n := n - (width - 1)) ?_ rfl (by omega)
      rw [List.take_drop, List.take_drop, Nat.add_sub_of_le (by omega), hrest]

/-- What the loop finds, moved by `k`. -/
def Scan.shift (scan : Scan) (k : ℕ) : Scan := ⟨scan.accepted.map fun e => (e.1 + k, e.2), scan.dependencyEnd + k⟩

/-- **The loop does not depend on where the units stand.** -/
theorem scanFrom_shift (k : ℕ) : scanFrom lexer units state (cursor + k) (scan.shift k) =
    (scanFrom lexer units state cursor scan).shift k := by
  fun_induction scanFrom lexer units state cursor scan with
  | case1 => rw [scanFrom]
  | case2 unit rest state cursor scan codePoint width hpoint hnone =>
    rw [scanFrom, hpoint]
    simp only [hnone]
    rw [Scan.shift, Scan.shift, Nat.add_right_comm]
  | case3 unit rest state cursor scan codePoint width hpoint target htarget spec accepted ih =>
    rw [scanFrom, hpoint]
    simp only [htarget]
    rw [← ih, Scan.shift, Nat.add_right_comm]
    congr 2
    show (if 0 ≤ spec then _ else _) = Option.map _ (if 0 ≤ spec then _ else _)
    split
    · rw [Option.map_some, Nat.add_right_comm]
    · rfl

theorem accepted_le_dependencyEnd (hscan : ∀ e, scan.accepted = some e → e.1 ≤ scan.dependencyEnd)
    (hcursor : scan.dependencyEnd ≤ cursor) {e : ℕ × ℕ}
    (h : (scanFrom lexer units state cursor scan).accepted = some e) :
    e.1 ≤ (scanFrom lexer units state cursor scan).dependencyEnd := by
  fun_induction scanFrom lexer units state cursor scan with
  | case1 => exact hscan e h
  | case2 => exact (hscan e h).trans (hcursor.trans (Nat.le_add_right _ _))
  | case3 unit rest state cursor scan codePoint width _ target _ spec accepted ih =>
    refine ih (fun e he => ?_) le_rfl h
    rcases accepted_cases he with hstop | he
    · exact hstop.le
    · exact (hscan e he).trans (hcursor.trans (Nat.le_add_right _ _))

theorem accepted_le_length (hscan : ∀ e, scan.accepted = some e → e.1 ≤ cursor) {e : ℕ × ℕ}
    (h : (scanFrom lexer units state cursor scan).accepted = some e) : e.1 ≤ cursor + units.length := by
  fun_induction scanFrom lexer units state cursor scan with
  | case1 => exact hscan e h
  | case2 => exact (hscan e h).trans (Nat.le_add_right _ _)
  | case3 unit rest state cursor scan codePoint width hpoint target _ spec accepted ih =>
    have hwidth : 1 ≤ width ∧ width - 1 ≤ rest.length := by
      have hone := (sourceCodePoint_width (unit :: rest)).1
      rw [hpoint] at hone
      refine ⟨hone, ?_⟩
      cases rest with
      | nil => rw [← (Prod.mk.inj hpoint).2]; exact Nat.le_refl 0
      | cons second rest =>
        have htwo := (sourceCodePoint_width (unit :: second :: rest)).2
        rw [hpoint] at htwo
        rw [List.length_cons]
        omega
    have hle := ih (fun e he => ?_) h
    · rw [List.length_drop] at hle
      rw [List.length_cons]
      omega
    · rcases accepted_cases he with hstop | he
      · exact hstop.le
      · exact (hscan e he).trans (Nat.le_add_right _ _)

end Scan

section LexAt

variable {plan : FrontendPlan} {source source' : List UInt16} {p p' o o' : ℕ} {t : Token}

theorem lexAt_eq_ok : lexAt plan source p o = .ok t ↔ ∃ stop spec, (scanAt plan source p).accepted = some (stop, spec) ∧
    t = ⟨plan.terminalClassification.getD spec 0, p, stop, spec, o, (scanAt plan source p).dependencyEnd⟩ := by
  unfold lexAt
  cases (scanAt plan source p).accepted with
  | none => simp
  | some e =>
    obtain ⟨stop, spec⟩ := e
    simp only [Except.ok.injEq, Option.some.injEq, Prod.mk.injEq]
    constructor
    · rintro rfl
      exact ⟨stop, spec, ⟨rfl, rfl⟩, rfl⟩
    · rintro ⟨_, _, ⟨rfl, rfl⟩, rfl⟩
      rfl

theorem lexAt_ok (h : lexAt plan source p o = .ok t) : t.start = p ∧ t.outputIndex = o ∧ p < t.stop := by
  obtain ⟨stop, spec, hscan, rfl⟩ := lexAt_eq_ok.1 h
  exact ⟨rfl, rfl, scanFrom_accepted (P := fun e => p < e.1) (fun e he => he) (fun e he => by cases he) hscan⟩

theorem stop_le_dependencyEnd (h : lexAt plan source p o = .ok t) : t.stop ≤ t.dependencyEnd := by
  obtain ⟨stop, spec, hscan, rfl⟩ := lexAt_eq_ok.1 h
  unfold scanAt at hscan ⊢
  have hnone : ∀ e : ℕ × ℕ, (none : Option (ℕ × ℕ)) = some e → e.1 ≤ p := fun e he => by cases he
  exact @accepted_le_dependencyEnd plan.lexer (source.drop p) plan.lexer.startState p ⟨none, p⟩ hnone le_rfl _ hscan

theorem stop_le_length (hp : p ≤ source.length) (h : lexAt plan source p o = .ok t) : t.stop ≤ source.length := by
  obtain ⟨stop, spec, hscan, rfl⟩ := lexAt_eq_ok.1 h
  have hnone : ∀ e : ℕ × ℕ, (none : Option (ℕ × ℕ)) = some e → e.1 ≤ p := fun e he => by cases he
  have hle := @accepted_le_length plan.lexer (source.drop p) plan.lexer.startState p ⟨none, p⟩ hnone _ hscan
  rw [List.length_drop, Nat.add_sub_of_le hp] at hle
  exact hle

theorem lexAt_error {d : Diagnostic} {next : ℕ} (h : lexAt plan source p o = .error (d, next)) : p < next := by
  unfold lexAt at h
  split at h
  · obtain ⟨-, rfl⟩ := Prod.mk.inj (Except.error.inj h)
    have := (sourceCodePoint_width (source.drop p)).1
    omega
  · cases h

/-- **Locality**: a token depends on the units up to the first one after what the lexer looked at. -/
theorem lexAt_congr {n : ℕ} (htake : source.take n = source'.take n) (h : lexAt plan source p o = .ok t)
    (hn : t.dependencyEnd < n) : lexAt plan source' p o = .ok t := by
  obtain ⟨stop, spec, hscan, rfl⟩ := lexAt_eq_ok.1 h
  have hsame : scanAt plan source' p = scanAt plan source p := by
    refine scanFrom_congr (n := n - p) ?_ rfl ?_
    · have hdrop := congrArg (List.drop p) htake
      rwa [List.drop_take, List.drop_take] at hdrop
    · have hle : p ≤ (scanAt plan source p).dependencyEnd := le_dependencyEnd le_rfl
      show (scanAt plan source p).dependencyEnd < p + (n - p)
      dsimp only at hn
      omega
  rw [lexAt_eq_ok, hsame]
  exact ⟨stop, spec, hscan, rfl⟩

/-- **Translation**: the same units give the same token, moved. -/
theorem lexAt_move (hdrop : source.drop p = source'.drop p') (h : lexAt plan source p o = .ok t) :
    lexAt plan source' p' o' = .ok { t with
      start := p', stop := t.stop - p + p', outputIndex := o', dependencyEnd := t.dependencyEnd - p + p' } := by
  have hzero : ∀ k, scanFrom plan.lexer (source.drop p) plan.lexer.startState k ⟨none, k⟩ =
      (scanFrom plan.lexer (source.drop p) plan.lexer.startState 0 ⟨none, 0⟩).shift k := by
    intro k
    have hshift := @scanFrom_shift plan.lexer (source.drop p) plan.lexer.startState 0 ⟨none, 0⟩ k
    rwa [Scan.shift, Option.map_none, Nat.zero_add] at hshift
  obtain ⟨stop, spec, hscan, rfl⟩ := lexAt_eq_ok.1 h
  have hscan' : scanAt plan source' p' =
      (scanFrom plan.lexer (source.drop p) plan.lexer.startState 0 ⟨none, 0⟩).shift p' := by
    unfold scanAt
    rw [← hdrop, hzero]
  unfold scanAt at hscan ⊢
  rw [hzero] at hscan ⊢
  rw [lexAt_eq_ok, hscan']
  generalize scanFrom plan.lexer (source.drop p) plan.lexer.startState 0 ⟨none, 0⟩ = scan at hscan ⊢
  obtain ⟨accepted, dependencyEnd⟩ := scan
  obtain ⟨e, rfl, he⟩ := Option.map_eq_some_iff.1 hscan
  obtain ⟨rfl, rfl⟩ := Prod.mk.inj he
  refine ⟨e.1 + p', e.2, rfl, ?_⟩
  simp only [Scan.shift, Nat.add_sub_cancel]

end LexAt

/-- The loop of `lex_from`. -/
def lexFromLoop (plan : FrontendPlan) (source : List UInt16) (outputIndex position : ℕ) (tokens : List Token)
    (diagnostics : List Diagnostic) : List Token × List Diagnostic :=
  if position < source.length then
    match _h : lexAt plan source position (outputIndex + tokens.length) with
    | .ok token => lexFromLoop plan source outputIndex token.stop (tokens ++ [token]) diagnostics
    | .error (diagnostic, next) => lexFromLoop plan source outputIndex next tokens (diagnostics ++ [diagnostic])
  else (tokens, diagnostics)
termination_by source.length - position
decreasing_by
  · have := (lexAt_ok _h).2.2
    omega
  · have := lexAt_error _h
    omega

def lexFrom (plan : FrontendPlan) (source : List UInt16) (start outputIndex : ℕ) : List Token × List Diagnostic :=
  lexFromLoop plan source outputIndex start [] []

inductive Lexes (plan : FrontendPlan) (source : List UInt16) : ℕ → ℕ → List Token → Prop where
  | done {p o : ℕ} (h : source.length ≤ p) : Lexes plan source p o []
  | token {p o : ℕ} {t : Token} {ts : List Token} (hp : p < source.length) (h : lexAt plan source p o = .ok t)
      (hrest : Lexes plan source t.stop (o + 1) ts) : Lexes plan source p o (t :: ts)

section LexFrom

variable {plan : FrontendPlan} {source source' : List UInt16} {p p' o o' : ℕ} {t : Token} {ts tokens : List Token}
  {diagnostics : List Diagnostic}

theorem lexFromLoop_done (h : source.length ≤ p) :
    lexFromLoop plan source o p tokens diagnostics = (tokens, diagnostics) := by
  rw [lexFromLoop, if_neg (by omega)]

theorem lexFromLoop_token (hp : p < source.length) (h : lexAt plan source p (o + tokens.length) = .ok t) :
    lexFromLoop plan source o p tokens diagnostics = lexFromLoop plan source o t.stop (tokens ++ [t]) diagnostics := by
  rw [lexFromLoop, if_pos hp]
  split
  · rename_i token hok
    obtain rfl : token = t := Except.ok.inj (hok.symm.trans h)
    rfl
  · rename_i hno
    cases hno.symm.trans h

theorem lexFromLoop_error {d : Diagnostic} {next : ℕ} (hp : p < source.length)
    (h : lexAt plan source p (o + tokens.length) = .error (d, next)) :
    lexFromLoop plan source o p tokens diagnostics = lexFromLoop plan source o next tokens (diagnostics ++ [d]) := by
  rw [lexFromLoop, if_pos hp]
  split
  · rename_i hok
    cases hok.symm.trans h
  · rename_i d' next' hno
    obtain ⟨rfl, rfl⟩ := Prod.mk.inj (Except.error.inj (hno.symm.trans h))
    rfl

/-- The loop finishes with the tokens of the rest. -/
theorem Lexes.loop (h : Lexes plan source p (o + tokens.length) ts) :
    lexFromLoop plan source o p tokens diagnostics = (tokens ++ ts, diagnostics) := by
  generalize hn : o + tokens.length = n at h
  induction h generalizing tokens with
  | done h => rw [lexFromLoop_done h, List.append_nil]
  | token hp h _ ih =>
    subst hn
    rw [lexFromLoop_token hp h, ih (by rw [List.length_append, List.length_singleton]; omega), List.append_assoc]
    rfl

theorem loop_diagnostics (h : (lexFromLoop plan source o p tokens diagnostics).2 = []) : diagnostics = [] := by
  fun_induction lexFromLoop plan source o p tokens diagnostics with
  | case1 p tokens diagnostics hp t hok ih => exact ih h
  | case2 p tokens diagnostics hp d next hno ih => exact absurd (ih h) (by simp)
  | case3 p tokens diagnostics hp => exact h

theorem lexes_of_loop (h : (lexFromLoop plan source o p tokens diagnostics).2 = []) :
    ∃ ts, (lexFromLoop plan source o p tokens diagnostics).1 = tokens ++ ts ∧
      Lexes plan source p (o + tokens.length) ts := by
  fun_induction lexFromLoop plan source o p tokens diagnostics with
  | case1 p tokens diagnostics hp t hok ih =>
    obtain ⟨ts, heq, hts⟩ := ih h
    refine ⟨t :: ts, ?_, .token hp hok ?_⟩
    · rw [heq, List.append_assoc]
      rfl
    · rwa [List.length_append, List.length_singleton, ← Nat.add_assoc] at hts
  | case2 p tokens diagnostics hp d next hno ih => exact absurd (loop_diagnostics h) (by simp)
  | case3 p tokens diagnostics hp => exact ⟨[], (List.append_nil _).symm, .done (by omega)⟩

/-- **A source without lexical errors is the sequence of its tokens.** -/
theorem lexes_of_lexFrom (h : (lexFrom plan source p o).2 = []) :
    Lexes plan source p o (lexFrom plan source p o).1 := by
  obtain ⟨ts, heq, hts⟩ := lexes_of_loop h
  unfold lexFrom
  rw [heq]
  exact hts

theorem Lexes.output (h : Lexes plan source p o ts) : ∀ i t, ts[i]? = some t → t.outputIndex = o + i := by
  induction h with
  | done => intro i t hi; simp at hi
  | token hp h _ ih =>
    intro i t hi
    cases i with
    | zero =>
      obtain rfl := Option.some.inj hi
      exact (lexAt_ok h).2.1
    | succ i =>
      rw [ih i t hi]
      omega

theorem Lexes.length_le (h : Lexes plan source p o ts) : ts.length ≤ source.length - p := by
  induction h with
  | done => exact Nat.zero_le _
  | token hp h _ ih =>
    have := (lexAt_ok h).2.2
    rw [List.length_cons]
    omega

theorem Lexes.within (h : Lexes plan source p o ts) (hp : p ≤ source.length) :
    ∀ t ∈ ts, p ≤ t.start ∧ t.start < t.stop ∧ t.stop ≤ source.length := by
  induction h with
  | done => intro t ht; cases ht
  | @token p o t ts hlt h _ ih =>
    obtain ⟨hstart, -, hstop⟩ := lexAt_ok h
    have hle := stop_le_length hp h
    rw [List.forall_mem_cons]
    refine ⟨⟨hstart.ge, hstart ▸ hstop, hle⟩, fun u hu => ?_⟩
    obtain ⟨hu₁, hu₂⟩ := ih hle u hu
    exact ⟨by omega, hu₂⟩

theorem Lexes.ascending (h : Lexes plan source p o ts) (hp : p ≤ source.length) :
    ts.Pairwise fun a b => a.stop ≤ b.start := by
  induction h with
  | done => exact .nil
  | @token p o t ts hlt h hrest ih =>
    have hle := stop_le_length hp h
    exact .cons (fun u hu => (hrest.within hle u hu).1) (ih hle)

end LexFrom

end Blot.Frontend
