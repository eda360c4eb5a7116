import Blot.Frontend.Islands

/-!
# Lexing after an edit (`frontend.rs`)

The tokens before the edit that did not look at it are kept, the lexer starts again after them, and as soon as it finds
a token of the common suffix again the rest of the old tokens is moved.  The tokens are those of a fresh lexer.
-/

namespace Blot.Frontend

/-- `FrontendState`, without the node reuse that it reports. -/
structure FrontendState where
  source : Source
  tokens : List Token
  program : CompactProgram
  parserExecuted : Bool
  semanticInputUnchanged : Bool

/-- `usize::checked_add_signed`; no sum here reaches the upper end. -/
def checkedAddSigned (n : ℕ) (k : ℤ) : Option ℕ := if 0 ≤ n + k then some (n + k).toNat else none

/-- Where the sources first differ: `edit_start`. -/
def editStart (source previous : List UInt16) : ℕ :=
  ((source.zip previous).findIdx? fun pair => pair.1 ≠ pair.2).getD (min source.length previous.length)

/-- The loop that counts the common suffix; the last argument is how far it may still go. -/
def commonSuffix (source previous : List UInt16) (common : ℕ) : ℕ → ℕ
  | 0 => common
  | remaining + 1 =>
    if source[source.length - common - 1]? = previous[previous.length - common - 1]? then
      commonSuffix source previous (common + 1) remaining
    else common

def tokenMatchesShifted (current previous : Token) (shift : ℤ) : Bool :=
  checkedAddSigned previous.start shift = some current.start ∧
    checkedAddSigned previous.stop shift = some current.stop ∧
    checkedAddSigned previous.dependencyEnd shift = some current.dependencyEnd ∧
    previous.terminal = current.terminal ∧ previous.lexicalIdentity = current.lexicalIdentity

/-- `shift_token`; `none` is the panic of a shift that underflows. -/
def shiftToken (token : Token) (shift : ℤ) (outputIndex : ℕ) : Option Token := do
  let start ← checkedAddSigned token.start shift
  let stop ← checkedAddSigned token.stop shift
  let dependencyEnd ← checkedAddSigned token.dependencyEnd shift
  some { token with start := start, stop := stop, outputIndex := outputIndex, dependencyEnd := dependencyEnd }

def shiftTokens (shift : ℤ) : List Token → List Token → Option (List Token)
  | [], tokens => some tokens
  | old :: rest, tokens => do
    let token ← shiftToken old shift tokens.length
    shiftTokens shift rest (tokens ++ [token])

/-- The part of the old source that `lex_incremental` compares with. -/
structure Resync where
  previous : FrontendState
  prefixCount : ℕ
  newSuffixStart : ℕ
  oldSuffixStart : ℕ
  shift : ℤ

def Resync.find (r : Resync) (token : Token) : Option (Token × ℕ) := do
  if token.start < r.newSuffixStart then none
  else
    let oldStart ← checkedAddSigned token.start (-r.shift)
    if oldStart < r.oldSuffixStart then none
    else
      let (old, oldIndex) ← (r.previous.tokens.zipIdx.drop r.prefixCount).find? fun entry => entry.1.start = oldStart
      if tokenMatchesShifted token old r.shift then some (old, oldIndex) else none

/-- The loop of `lex_incremental`. -/
def relexLoop (plan : FrontendPlan) (source : List UInt16) (r : Resync) (position : ℕ) (tokens : List Token)
    (diagnostics : List Diagnostic) : Option (List Token × List Diagnostic) :=
  if position < source.length then
    match _h : lexAt plan source position tokens.length with
    | .ok token =>
      match r.find token with
      | some (_, oldIndex) =>
        (shiftTokens r.shift (r.previous.tokens.drop oldIndex) tokens).map fun tokens => (tokens, diagnostics)
      | none => relexLoop plan source r token.stop (tokens ++ [token]) diagnostics
    | .error (diagnostic, next) => relexLoop plan source r next tokens (diagnostics ++ [diagnostic])
  else some (tokens, diagnostics)
termination_by source.length - position
decreasing_by
  · have := (lexAt_ok _h).2.2
    omega
  · have := lexAt_error _h
    omega

def lexIncremental (plan : FrontendPlan) (source : List UInt16) (previous : FrontendState) :
    Option (List Token × List Diagnostic) :=
  let old := previous.source.units
  if source = old then some (previous.tokens, [])
  else
    let start := editStart source old
    let prefixCount := (previous.tokens.findIdx? fun token => start ≤ token.dependencyEnd).getD previous.tokens.length
    let relexStart := min ((previous.tokens[prefixCount]?.map Token.start).getD old.length) source.length
    let suffixLimit := min (source.length - start) (old.length - start)
    let common := commonSuffix source old 0 suffixLimit
    relexLoop plan source ⟨previous, prefixCount, source.length - common, old.length - common,
      source.length - old.length⟩ relexStart (previous.tokens.take prefixCount) []

section Common

variable {source old : List UInt16}

theorem editStart_le (source old : List UInt16) :
    editStart source old ≤ source.length ∧ editStart source old ≤ old.length := by
  unfold editStart
  cases h : (source.zip old).findIdx? fun pair => decide (pair.1 ≠ pair.2) with
  | none =>
    rw [Option.getD_none]
    omega
  | some i =>
    obtain ⟨hi, -⟩ := List.findIdx?_eq_some_iff_getElem.1 h
    rw [List.length_zip] at hi
    rw [Option.getD_some]
    omega

/-- The sources agree before the edit. -/
theorem take_editStart (source old : List UInt16) :
    source.take (editStart source old) = old.take (editStart source old) := by
  obtain ⟨hsource, hold⟩ := editStart_le source old
  refine List.ext_getElem (by rw [List.length_take, List.length_take]; omega) fun i hi hi' => ?_
  rw [List.length_take] at hi
  rw [List.getElem_take, List.getElem_take]
  have hzip : i < (source.zip old).length := by rw [List.length_zip]; omega
  have hsame : ¬ (source.zip old)[i].1 ≠ (source.zip old)[i].2 := by
    unfold editStart at hi
    cases h : (source.zip old).findIdx? fun pair => decide (pair.1 ≠ pair.2) with
    | none =>
      have hnone := List.findIdx?_eq_none_iff.1 h _ (List.getElem_mem hzip)
      exact of_decide_eq_false hnone
    | some k =>
      rw [h, Option.getD_some] at hi
      obtain ⟨_, _, hbefore⟩ := List.findIdx?_eq_some_iff_getElem.1 h
      have hnot := hbefore i (by omega)
      rw [decide_eq_true_iff] at hnot
      exact hnot
  rw [List.getElem_zip] at hsame
  exact not_not.1 hsame

theorem commonSuffix_le (common remaining : ℕ) : commonSuffix source old common remaining ≤ common + remaining := by
  induction remaining generalizing common with
  | zero => exact le_rfl
  | succ remaining ih =>
    rw [commonSuffix]
    split
    · have := ih (common + 1)
      omega
    · omega

theorem drop_commonSuffix {common remaining : ℕ} (hsource : common + remaining ≤ source.length)
    (hold : common + remaining ≤ old.length)
    (h : source.drop (source.length - common) = old.drop (old.length - common)) :
    source.drop (source.length - commonSuffix source old common remaining) =
      old.drop (old.length - commonSuffix source old common remaining) := by
  induction remaining generalizing common with
  | zero => exact h
  | succ remaining ih =>
    rw [commonSuffix]
    split
    · rename_i hsame
      refine ih (by omega) (by omega) ?_
      have hdrop : ∀ xs : List UInt16, common + 1 ≤ xs.length → ∀ x, xs[xs.length - common - 1]? = some x →
          xs.drop (xs.length - (common + 1)) = x :: xs.drop (xs.length - common) := by
        intro xs hxs x hx
        obtain ⟨hlt, hget⟩ := List.getElem?_eq_some_iff.1 hx
        rw [← Nat.sub_sub, List.drop_eq_getElem_cons hlt, hget]
        congr 2
        omega
      have hlt : source.length - common - 1 < source.length := by omega
      obtain ⟨x, hx⟩ : ∃ x, source[source.length - common - 1]? = some x := ⟨_, List.getElem?_eq_getElem hlt⟩
      rw [hdrop source (by omega) x hx, hdrop old (by omega) x (hsame ▸ hx), h]
    · exact h

end Common

section Relexing

variable {plan : FrontendPlan} {source old : List UInt16} {p p' o : ℕ} {shift : ℤ} {t : Token} {ts tokens : List Token}
  {diagnostics : List Diagnostic}

theorem checkedAddSigned_eq {n m : ℕ} {k : ℤ} (h : (m : ℤ) = n + k) : checkedAddSigned n k = some m := by
  unfold checkedAddSigned
  rw [if_pos (by omega), ← h, Int.toNat_natCast]

/-- **The old tokens, moved, are the tokens of the same units elsewhere.** -/
theorem shiftTokens_lexes (h : Lexes plan old p o ts) (hdrop : old.drop p = source.drop p')
    (hshift : (p' : ℤ) = p + shift) :
    ∃ ts', shiftTokens shift ts tokens = some (tokens ++ ts') ∧ Lexes plan source p' tokens.length ts' := by
  induction h generalizing p' tokens with
  | @done p o hp =>
    refine ⟨[], by rw [shiftTokens, List.append_nil], .done ?_⟩
    rw [List.drop_eq_nil_of_le hp] at hdrop
    exact List.drop_eq_nil_iff.1 hdrop.symm
  | @token p o t ts hp h _ ih =>
    obtain ⟨hstart, -, hstop⟩ := lexAt_ok h
    have hdependency := stop_le_dependencyEnd h
    have hmoved : lexAt plan source p' tokens.length = _ := lexAt_move hdrop h
    have hp' : p' < source.length := by
      by_contra hle
      rw [List.drop_eq_nil_of_le (Nat.le_of_not_lt hle)] at hdrop
      exact absurd (List.drop_eq_nil_iff.1 hdrop) (by omega)
    have hrest : old.drop t.stop = source.drop (t.stop - p + p') := by
      have hboth := congrArg (List.drop (t.stop - p)) hdrop
      rwa [List.drop_drop, List.drop_drop, Nat.add_sub_of_le hstop.le, Nat.add_comm p'] at hboth
    obtain ⟨ts', hts', hlexes⟩ := @ih (t.stop - p + p') (tokens ++ [{ t with
      start := p', stop := t.stop - p + p', outputIndex := tokens.length
      dependencyEnd := t.dependencyEnd - p + p' }]) hrest (by omega)
    refine ⟨_ :: ts', ?_, .token hp' hmoved ?_⟩
    · rw [shiftTokens, shiftToken, checkedAddSigned_eq (m := p') (by omega),
        checkedAddSigned_eq (m := t.stop - p + p') (by omega),
        checkedAddSigned_eq (m := t.dependencyEnd - p + p') (by omega)]
      show shiftTokens shift ts _ = _
      rw [hts', List.append_assoc]
      rfl
    · rwa [List.length_append, List.length_singleton] at hlexes

/-- What the loop needs to know about the old source. -/
structure Resync.Sound (r : Resync) (plan : FrontendPlan) (source : List UInt16) : Prop where
  lexes : Lexes plan r.previous.source.units 0 0 r.previous.tokens
  same : ∀ q q' : ℕ, r.newSuffixStart ≤ q → (q : ℤ) = q' + r.shift → source.drop q = r.previous.source.units.drop q'

/-- The rest of the tokens lexes the rest of the source. -/
theorem Lexes.drop (h : Lexes plan source p o ts) {i : ℕ} (hi : ts[i]? = some t) :
    Lexes plan source t.start (o + i) (ts.drop i) := by
  induction h generalizing i with
  | done => cases hi
  | @token p o u ts hp h hrest ih =>
    cases i with
    | zero =>
      obtain rfl := Option.some.inj hi
      rw [(lexAt_ok h).1]
      exact .token hp h hrest
    | succ i =>
      have hdrop := ih hi
      rwa [Nat.add_right_comm] at hdrop

theorem Resync.Sound.find {r : Resync} (hr : r.Sound plan source) (h : lexAt plan source p o = .ok t) {old : Token}
    {i : ℕ} (hfind : r.find t = some (old, i)) : ∃ ts', shiftTokens r.shift (r.previous.tokens.drop i) tokens =
      some (tokens ++ ts') ∧ Lexes plan source p tokens.length ts' := by
  obtain ⟨hstart, -, -⟩ := lexAt_ok h
  unfold Resync.find at hfind
  split at hfind
  · cases hfind
  · rename_i hsuffix
    obtain ⟨oldStart, hold, hfind⟩ := Option.bind_eq_some_iff.1 hfind
    split at hfind
    · cases hfind
    · obtain ⟨⟨old', i'⟩, hentry, hmatch⟩ := Option.bind_eq_some_iff.1 hfind
      dsimp only at hmatch
      split at hmatch
      · obtain ⟨rfl, rfl⟩ := Prod.mk.inj (Option.some.inj hmatch)
        have hat : r.previous.tokens[i']? = some old' :=
          List.mem_zipIdx_iff_getElem?.1 (List.mem_of_mem_drop (List.mem_of_find?_eq_some hentry))
        have hat' : old'.start = oldStart := by simpa using List.find?_some hentry
        have hmoved : (p : ℤ) = old'.start + r.shift := by
          unfold checkedAddSigned at hold
          split at hold
          · have := Option.some.inj hold
            omega
          · cases hold
        exact shiftTokens_lexes (hr.lexes.drop hat) (hr.same p old'.start (by omega) hmoved).symm hmoved
      · cases hmatch

/-- **The loop finds the tokens of a fresh lexer.** -/
theorem relexLoop_eq {r : Resync} (hr : r.Sound plan source) (p : ℕ) (tokens : List Token)
    (diagnostics : List Diagnostic) :
    relexLoop plan source r p tokens diagnostics = some (lexFromLoop plan source 0 p tokens diagnostics) := by
  fun_induction relexLoop plan source r p tokens diagnostics with
  | case1 p tokens diagnostics hp t hok old i hfind =>
    obtain ⟨ts', hts', hlexes⟩ := hr.find hok hfind
    rw [hts', Option.map_some, Lexes.loop (o := 0) (by rwa [Nat.zero_add])]
  | case2 p tokens diagnostics hp t hok hfind ih =>
    rw [ih, lexFromLoop_token hp (by rwa [Nat.zero_add])]
  | case3 p tokens diagnostics hp d next hno ih =>
    rw [ih, lexFromLoop_error hp (by rwa [Nat.zero_add])]
  | case4 p tokens diagnostics hp => rw [lexFromLoop_done (by omega)]

/-- **The tokens that did not look at the edit are lexed again.** -/
theorem prefix_loop {e n : ℕ} (h : Lexes plan old p o ts) (htake : old.take e = source.take e)
    (hsource : e ≤ source.length) (hn : ∀ t ∈ ts.take n, t.dependencyEnd < e) (ho : o = tokens.length) :
    ∃ q, lexFromLoop plan source 0 p tokens diagnostics =
        lexFromLoop plan source 0 q (tokens ++ ts.take n) diagnostics ∧
      Lexes plan old q (o + n) (ts.drop n) ∧ (q = p ∨ q < e) := by
  induction h generalizing n tokens with
  | @done p o hp =>
    refine ⟨p, by rw [List.take_nil, List.append_nil], ?_, .inl rfl⟩
    rw [List.drop_nil]
    exact .done hp
  | @token p o t ts hp h hrest ih =>
    cases n with
    | zero =>
      refine ⟨p, by rw [List.take_zero, List.append_nil], .token hp h hrest, .inl rfl⟩
    | succ n =>
      rw [List.take_succ_cons, List.forall_mem_cons] at hn
      obtain ⟨ht, hn⟩ := hn
      have hstop := stop_le_dependencyEnd h
      have hstart := (lexAt_ok h).2.2
      have hagain : lexAt plan source p (0 + tokens.length) = .ok t := by
        rw [Nat.zero_add, ← ho]
        exact lexAt_congr htake h ht
      obtain ⟨q, hloop, hlexes, hq⟩ := @ih (tokens ++ [t]) n hn
        (by rw [List.length_append, List.length_singleton, ho])
      refine ⟨q, ?_, ?_, ?_⟩
      · rw [lexFromLoop_token (by omega) hagain, hloop, List.append_assoc]
        rfl
      · rwa [Nat.add_right_comm] at hlexes
      · omega

/-- **Lexing after an edit gives the tokens and the diagnostics of a fresh lexer.** -/
theorem lexIncremental_eq {previous : FrontendState}
    (h : Lexes plan previous.source.units 0 0 previous.tokens) :
    lexIncremental plan source previous = some (lexFrom plan source 0 0) := by
  unfold lexIncremental
  dsimp only
  split
  · rename_i hsame
    unfold lexFrom
    rw [hsame, Lexes.loop (o := 0) h, List.nil_append]
  · obtain ⟨hsource, hold⟩ := editStart_le source previous.source.units
    have htake := take_editStart source previous.source.units
    set e := editStart source previous.source.units
    set n := (previous.tokens.findIdx? fun token => e ≤ token.dependencyEnd).getD previous.tokens.length with hn
    have hbefore : ∀ t ∈ previous.tokens.take n, t.dependencyEnd < e := by
      intro t ht
      cases hfind : previous.tokens.findIdx? fun token => decide (e ≤ token.dependencyEnd) with
      | none =>
        have hnot := List.findIdx?_eq_none_iff.1 hfind t (List.mem_of_mem_take ht)
        exact Nat.lt_of_not_le (of_decide_eq_false hnot)
      | some k =>
        rw [hfind, Option.getD_some] at hn
        obtain ⟨i, hi, rfl⟩ := List.mem_take_iff_getElem.1 ht
        obtain ⟨_, _, hnot⟩ := List.findIdx?_eq_some_iff_getElem.1 hfind
        have hnot := hnot i (by omega)
        rw [decide_eq_true_iff] at hnot
        exact Nat.lt_of_not_le hnot
    obtain ⟨q, hloop, hlexes, hq⟩ := @prefix_loop plan source _ 0 0 _ [] [] e n h htake.symm hsource hbefore rfl
    have hrelex : min ((previous.tokens[n]?.map Token.start).getD previous.source.units.length) source.length = q := by
      cases hat : previous.tokens[n]? with
      | none =>
        rw [List.drop_eq_nil_of_le (List.getElem?_eq_none_iff.1 hat)] at hlexes
        cases hlexes with
        | done hle =>
          rw [Option.map_none, Option.getD_none]
          omega
      | some t =>
        rw [Option.map_some, Option.getD_some]
        rw [List.drop_eq_getElem_cons (List.getElem?_eq_some_iff.1 hat).1] at hlexes
        cases hlexes with
        | token hlt ht hrest =>
          have hstart := (lexAt_ok ht).1
          rw [(List.getElem?_eq_some_iff.1 hat).2] at hstart
          omega
    rw [hrelex, relexLoop_eq ⟨h, ?_⟩]
    · unfold lexFrom
      rw [hloop, List.nil_append]
    · set remaining := min (source.length - e) (previous.source.units.length - e)
      have hcommon := @commonSuffix_le source previous.source.units 0 remaining
      have hsuffix := @drop_commonSuffix source previous.source.units 0 remaining (by omega) (by omega)
        (by rw [Nat.sub_zero, Nat.sub_zero, List.drop_length, List.drop_length])
      set common := commonSuffix source previous.source.units 0 remaining
      intro q q' hle hshift
      dsimp only at hle hshift
      have hboth := congrArg (List.drop (q - (source.length - common))) hsuffix
      rw [List.drop_drop, List.drop_drop] at hboth
      rwa [show source.length - common + (q - (source.length - common)) = q by omega,
        show previous.source.units.length - common + (q - (source.length - common)) = q' by omega] at hboth

end Relexing

end Blot.Frontend
