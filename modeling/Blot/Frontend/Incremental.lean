import Blot.Support.Checks
import Blot.Frontend.Parametric
import Blot.Frontend.Relexing

/-!
# The incremental frontend (`frontend.rs`)

After an edit the frontend lexes only what the edit can have changed, and keeps the tree of the last success when the
grammar sees the same sequence.  Whatever the history, the result is that of a fresh run.
-/

namespace Blot.Frontend

/-! ### Relocation -/

/-- What `same_syntax_tokens` compares. -/
def Token.syntaxKey (token : Token) : ℤ × ℕ × ℕ × ℤ × ℕ :=
  (token.terminal, token.start, token.stop, token.lexicalIdentity, token.outputIndex)

def sameSyntaxTokens (current previous : List Token) : Bool :=
  (syntaxTokens current).map Token.syntaxKey = (syntaxTokens previous).map Token.syntaxKey

def sameSemanticTokens (currentSource : List UInt16) (current : List Token) (previousSource : List UInt16)
    (previous : List Token) : Bool :=
  ((syntaxTokens current).zip (syntaxTokens previous)).all fun (current, previous) =>
    (currentSource.take current.stop).drop current.start = (previousSource.take previous.stop).drop previous.start

def missing : ℕ := 2 ^ 32 - 1

/-- The relocation tables of `relocate_same_grammar`. -/
structure Relocation where
  starts : List ℕ
  ends : List ℕ
  tokenIndices : List ℕ

/-- An entry of a table is set, if it is there and the value is a `u32`. -/
def writeTable (table : List ℕ) (index value : ℕ) : Option (List ℕ) :=
  if index < table.length ∧ value < 2 ^ 32 then some (table.set index value) else none

/-- The entry of a table at a position that is an `i32`, as an `i32`. -/
def readTable (table : List ℕ) (index : ℤ) : Option ℤ :=
  if index < 0 then none
  else do
    let value ← table[index.toNat]?
    if value < 2 ^ 31 then some value else none

/-- The loop of `relocate_same_grammar` over the tokens. -/
def fillRelocation : List (Token × Token) → Relocation → Option Relocation
  | [], r => some r
  | (old, new) :: rest, r => do
    let starts ← writeTable r.starts old.start new.start
    let ends ← writeTable r.ends old.stop new.stop
    let tokenIndices ← writeTable r.tokenIndices old.outputIndex new.outputIndex
    fillRelocation rest ⟨starts, ends, tokenIndices⟩

def relocateNode (r : Relocation) (node : NodeRecord) : Option NodeRecord := do
  if node.start < 0 ∨ node.stop < 0 ∨ node.start = node.stop then none
  else
    let start ← readTable r.starts node.start
    let stop ← readTable r.ends node.stop
    some { node with start := start, stop := stop }

def relocateEdge (r : Relocation) (edge : EdgeRecord) : Option EdgeRecord :=
  if edge.category = 0 then do
    let target ← readTable r.tokenIndices edge.target
    some { edge with target := target }
  else some edge

def relocateSameGrammar (previous : FrontendState) (current : List Token) : Option CompactProgram :=
  let old := syntaxTokens previous.tokens
  let new := syntaxTokens current
  if old.map (fun t => (t.terminal, t.lexicalIdentity)) ≠ new.map (fun t => (t.terminal, t.lexicalIdentity)) then none
  else do
    let positions := List.replicate (previous.source.units.length + 1) missing
    let r ← fillRelocation (old.zip new) ⟨positions, positions, List.replicate previous.tokens.length missing⟩
    let nodes ← previous.program.nodes.mapM (relocateNode r)
    let edges ← previous.program.edges.mapM (relocateEdge r)
    some ⟨[], nodes, edges⟩

/-! ### The frontend -/

/-- `sort_by_key` on the start of the span and the code, which is stable. -/
def sortDiagnostics (diagnostics : List Diagnostic) : List Diagnostic :=
  diagnostics.mergeSort fun a b => a.span.start < b.span.start ∨ a.span.start = b.span.start ∧ a.code ≤ b.code

def lexSource (plan : FrontendPlan) (source : List UInt16) :
    Option FrontendState → Option (List Token × List Diagnostic)
  | some previous => lexIncremental plan source previous
  | none => some (lexFrom plan source 0 0)

def reusedProgram (previous : FrontendState) (tokens : List Token) : Option CompactProgram :=
  if sameSyntaxTokens tokens previous.tokens then some ⟨[], previous.program.nodes, previous.program.edges⟩
  else relocateSameGrammar previous tokens

/-- `ingest_incremental` on a source that is not the old one. -/
def ingestChanged (plan : FrontendPlan) (fuel : ℕ) (source : Source) (previous : Option FrontendState) :
    Option (Except (List Diagnostic) (CompactProgram × FrontendState)) := do
  let (tokens, lexical) ← lexSource plan source.units previous
  let positionedSyntaxUnchanged := previous.any fun previous => sameSyntaxTokens tokens previous.tokens
  let semanticInputUnchanged := positionedSyntaxUnchanged && previous.any fun previous =>
    sameSemanticTokens source.units tokens previous.source.units previous.tokens
  let (delimiterMatches, malformed) := matchDelimiters plan.boundaries tokens
  if lexical ++ malformed ≠ [] then some (.error (sortDiagnostics (lexical ++ malformed)))
  else
    match previous.bind fun previous => reusedProgram previous tokens with
    | some program =>
      let program := { program with tokens := materializeTokens tokens }
      some (.ok (program, ⟨source, tokens, program, false, semanticInputUnchanged⟩))
    | none =>
      match ← executeRootIsland plan fuel tokens delimiterMatches with
      | .error diagnostic => some (.error (sortDiagnostics [diagnostic]))
      | .ok root =>
        let program := materialize plan tokens root
        some (.ok (program, ⟨source, tokens, program, true, semanticInputUnchanged⟩))

/-- `ingest_incremental`; `none` is a parser that has not finished. -/
def ingestIncremental (plan : FrontendPlan) (fuel : ℕ) (source : Source) (previous : Option FrontendState) :
    Option (Except (List Diagnostic) (CompactProgram × FrontendState)) :=
  match previous with
  | some state =>
    if source.units = state.source.units then
      some (.ok (state.program, ⟨source, state.tokens, state.program, false, true⟩))
    else ingestChanged plan fuel source previous
  | none => ingestChanged plan fuel source previous

def ingest (plan : FrontendPlan) (fuel : ℕ) (source : Source) : Option (Except (List Diagnostic) CompactProgram) :=
  (ingestIncremental plan fuel source none).map fun result => result.map Prod.fst

/-- A sequence of sources, each ingested with the state of the last success, and that state at the end. -/
inductive Session (plan : FrontendPlan) : List Source → Option FrontendState → Prop where
  | start : Session plan [] none
  | success {sources : List Source} {previous : Option FrontendState} {fuel : ℕ} {source : Source}
      {program : CompactProgram} {state : FrontendState} (h : Session plan sources previous)
      (hstep : ingestIncremental plan fuel source previous = some (.ok (program, state))) :
      Session plan (sources ++ [source]) (some state)
  | failure {sources : List Source} {previous : Option FrontendState} {fuel : ℕ} {source : Source}
      {diagnostics : List Diagnostic} (h : Session plan sources previous)
      (hstep : ingestIncremental plan fuel source previous = some (.error diagnostics)) :
      Session plan (sources ++ [source]) previous

/-! ### Relocated rows are those of the new tree -/

section Relocation

variable {old new : List Token} {pairs : List (Token × Token)} {r : Relocation}

/-- Every entry of a table is missing or comes from a pair of tokens. -/
def TableFrom (key : Token → ℕ) (pairs : List (Token × Token)) (table : List ℕ) : Prop :=
  ∀ (k v : ℕ), table[k]? = some v → v = missing ∨ ∃ pair ∈ pairs, key pair.1 = k ∧ key pair.2 = v

theorem tableFrom_replicate (key : Token → ℕ) (n : ℕ) : TableFrom key pairs (List.replicate n missing) := by
  intro k v h
  obtain ⟨hk, hget⟩ := List.getElem?_eq_some_iff.1 h
  rw [List.getElem_replicate] at hget
  exact .inl hget.symm

theorem TableFrom.write {key : Token → ℕ} {table table' : List ℕ} (h : TableFrom key pairs table)
    {pair : Token × Token} (hpair : pair ∈ pairs) (hwrite : writeTable table (key pair.1) (key pair.2) = some table') :
    TableFrom key pairs table' := by
  unfold writeTable at hwrite
  split at hwrite
  · obtain rfl := Option.some.inj hwrite
    intro k v hk
    rw [List.getElem?_set] at hk
    split at hk
    · rename_i heq
      split at hk
      · exact .inr ⟨pair, hpair, heq, Option.some.inj hk⟩
      · cases hk
    · exact h k v hk
  · cases hwrite

structure Relocation.From (pairs : List (Token × Token)) (r : Relocation) : Prop where
  starts : TableFrom Token.start pairs r.starts
  ends : TableFrom Token.stop pairs r.ends
  tokenIndices : TableFrom Token.outputIndex pairs r.tokenIndices

/-- **The tables hold what the pairs of tokens say.** -/
theorem fillRelocation_from {rest : List (Token × Token)} (hr : r.From pairs) (hrest : ∀ pair ∈ rest, pair ∈ pairs)
    {r' : Relocation} (h : fillRelocation rest r = some r') : r'.From pairs := by
  induction rest generalizing r with
  | nil =>
    obtain rfl := Option.some.inj h
    exact hr
  | cons pair rest ih =>
    obtain ⟨old, new⟩ := pair
    rw [List.forall_mem_cons] at hrest
    obtain ⟨starts, hstarts, h⟩ := Option.bind_eq_some_iff.1 h
    obtain ⟨ends, hends, h⟩ := Option.bind_eq_some_iff.1 h
    obtain ⟨tokenIndices, htokens, h⟩ := Option.bind_eq_some_iff.1 h
    exact ih ⟨hr.starts.write hrest.1 hstarts, hr.ends.write hrest.1 hends,
      hr.tokenIndices.write hrest.1 htokens⟩ hrest.2 h

theorem asI32_eq {n : ℕ} (h : n < 2 ^ 31) : asI32 n = n := by
  unfold asI32
  exact Int.bmod_eq_of_le (by omega) (by omega)

theorem TableFrom.read {key : Token → ℕ} {table : List ℕ} (h : TableFrom key pairs table) {k : ℕ} (hk : k < 2 ^ 31)
    {v : ℤ} (hread : readTable table (asI32 k) = some v) :
    ∃ pair ∈ pairs, key pair.1 = k ∧ v = asI32 (key pair.2) := by
  rw [asI32_eq hk, readTable, if_neg (by omega)] at hread
  obtain ⟨n, hn, hv⟩ := Option.bind_eq_some_iff.1 hread
  rw [Int.toNat_natCast] at hn
  split at hv
  · rename_i hlt
    obtain rfl := Option.some.inj hv
    obtain hmissing | ⟨pair, hpair, hkey, rfl⟩ := h k n hn
    · exact absurd hmissing (by unfold missing; omega)
    · exact ⟨pair, hpair, hkey, (asI32_eq hlt).symm⟩
  · cases hv

/-- Tokens that stand one after the other in a source. -/
structure Placed (tokens : List Token) : Prop where
  ascending : tokens.Pairwise fun a b => a.stop ≤ b.start
  nonempty : ∀ t ∈ tokens, t.start < t.stop
  bounded : ∀ t ∈ tokens, t.stop < 2 ^ 31
  output : tokens.Pairwise fun a b => a.outputIndex < b.outputIndex
  outputBounded : ∀ t ∈ tokens, t.outputIndex < 2 ^ 31

theorem Placed.filter (h : Placed old) (f : Token → Bool) : Placed (old.filter f) where
  ascending := h.ascending.filter f
  nonempty := fun t ht => h.nonempty t (List.mem_of_mem_filter ht)
  bounded := fun t ht => h.bounded t (List.mem_of_mem_filter ht)
  output := h.output.filter f
  outputBounded := fun t ht => h.outputBounded t (List.mem_of_mem_filter ht)

section Placed

variable (h : Placed old) {i k : ℕ} {t u : Token} (hi : old[i]? = some t) (hk : old[k]? = some u)
include h hi hk

/-- A later token starts after an earlier one ends. -/
theorem Placed.lt (hlt : i < k) : t.start < t.stop ∧ t.stop ≤ u.start ∧ u.start < u.stop ∧
    t.outputIndex < u.outputIndex := by
  obtain ⟨hi', rfl⟩ := List.getElem?_eq_some_iff.1 hi
  obtain ⟨hk', rfl⟩ := List.getElem?_eq_some_iff.1 hk
  exact ⟨h.nonempty _ (List.getElem_mem hi'), List.pairwise_iff_getElem.1 h.ascending i k hi' hk' hlt,
    h.nonempty _ (List.getElem_mem hk'), List.pairwise_iff_getElem.1 h.output i k hi' hk' hlt⟩

theorem Placed.unique (hsame : t.start = u.start ∨ t.stop = u.stop ∨ t.outputIndex = u.outputIndex) : i = k := by
  obtain hlt | heq | hlt := lt_trichotomy i k
  · have := h.lt hi hk hlt
    omega
  · exact heq
  · have := h.lt hk hi hlt
    omega

end Placed

theorem Placed.startAt_lt (h : Placed old) (i : ℕ) : startAt old i < 2 ^ 31 := by
  unfold startAt
  cases hi : old[i]? with
  | none =>
    rw [Option.map_none, Option.getD_none]
    omega
  | some t =>
    have ht := List.mem_of_getElem? hi
    exact (h.nonempty t ht).trans (h.bounded t ht)

theorem Placed.stopAt_lt (h : Placed old) (i : ℕ) : stopAt old i < 2 ^ 31 := by
  unfold stopAt
  cases hi : old[i]? with
  | none =>
    rw [Option.map_none, Option.getD_none]
    omega
  | some t => exact h.bounded t (List.mem_of_getElem? hi)

/-- **A relocated row is the row of the new tree.** -/
theorem relocateNode_eq (hr : r.From (old.zip new)) (hold : Placed old) {row row' result : NodeRecord}
    (halike : NodeRecordAlike old new row row') (h : relocateNode r row = some result) : result = row' := by
  obtain ⟨ruleId, start, stop, firstEdge, edgeCount⟩ := row
  obtain ⟨ruleId', start', stop', firstEdge', edgeCount'⟩ := row'
  obtain ⟨hrule, hfirst, hcount, _, _, _, _, ⟨i, rfl, rfl, hstop⟩, hspan⟩ := halike
  dsimp only at hrule hfirst hcount hspan
  obtain ⟨rfl, rfl, rfl, rfl⟩ := hspan
  subst hrule hfirst hcount
  unfold relocateNode at h
  split at h
  · cases h
  · rename_i hbad
    obtain ⟨start, stop, hstart, hend, rfl⟩ := Support.bind₂_eq_some.1 h
    obtain ⟨rfl, rfl⟩ | ⟨j, hij, rfl, rfl⟩ := hstop
    · exact absurd (.inr (.inr rfl)) hbad
    · dsimp only at hstart hend
      obtain ⟨⟨t, t'⟩, ht, htstart, rfl⟩ := hr.starts.read (hold.startAt_lt i) hstart
      obtain ⟨⟨u, u'⟩, hu, hustop, rfl⟩ := hr.ends.read (hold.stopAt_lt j) hend
      obtain ⟨k, hk⟩ := List.mem_iff_getElem?.1 ht
      obtain ⟨l, hl⟩ := List.mem_iff_getElem?.1 hu
      obtain ⟨hk, hk'⟩ := List.getElem?_zip_eq_some.1 hk
      obtain ⟨hl, hl'⟩ := List.getElem?_zip_eq_some.1 hl
      dsimp only at htstart hustop hk hk' hl hl' ⊢
      -- the span ends with a token, so it also starts with one
      have hupos := hold.nonempty u (List.mem_of_getElem? hl)
      obtain ⟨v, hv⟩ : ∃ v, old[j]? = some v := by
        rw [← Option.isSome_iff_exists, Option.isSome_iff_ne_none]
        intro hnone
        rw [stopAt, hnone] at hustop
        exact absurd hustop (by rw [Option.map_none, Option.getD_none]; omega)
      obtain ⟨w, hw⟩ : ∃ w, old[i]? = some w :=
        ⟨_, List.getElem?_eq_getElem (hij.trans_lt (List.getElem?_eq_some_iff.1 hv).1)⟩
      rw [startAt, hw] at htstart
      rw [stopAt, hv] at hustop
      obtain rfl := hold.unique hk hw (.inl htstart)
      obtain rfl := hold.unique hl hv (.inr (.inl hustop))
      rw [startAt, stopAt, hk', hl']
      rfl

/-- **A relocated edge is the edge of the new tree.** -/
theorem relocateEdge_eq (hr : r.From (old.zip new)) (hold : Placed old) {row row' result : EdgeRecord}
    (halike : EdgeRecordAlike old new row row') (h : relocateEdge r row = some result) : result = row' := by
  cases halike with
  | @token t t' field ordinal i ht ht' =>
    rw [relocateEdge, if_pos rfl] at h
    obtain ⟨target, htarget, h⟩ := Option.bind_eq_some_iff.1 h
    obtain rfl := Option.some.inj h
    obtain ⟨⟨u, u'⟩, hu, houtput, rfl⟩ :=
      hr.tokenIndices.read (hold.outputBounded t (List.mem_of_getElem? ht)) htarget
    obtain ⟨k, hk⟩ := List.mem_iff_getElem?.1 hu
    obtain ⟨hk, hk'⟩ := List.getElem?_zip_eq_some.1 hk
    obtain rfl := hold.unique hk ht (.inr (.inr houtput))
    obtain rfl := Option.some.inj (hk'.symm.trans ht')
    rfl
  | child field ordinal target =>
    rw [relocateEdge, if_neg (show ¬ (1 : ℤ) = 0 by decide)] at h
    exact (Option.some.inj h).symm

theorem eq_of_mapM {α β : Type} {R : α → β → Prop} {f : α → Option β}
    (hf : ∀ a b b', R a b → f a = some b' → b' = b) {l : List α} {m m' : List β} (hlm : List.Forall₂ R l m)
    (h : l.mapM f = some m') : m' = m := by
  induction hlm generalizing m' with
  | nil => exact (Option.some.inj h).symm
  | cons hab _ ih =>
    rw [List.mapM_cons] at h
    obtain ⟨b', m'', hb', hm'', rfl⟩ := Support.bind₂_eq_some.1 h
    rw [hf _ _ _ hab hb', ih hm'']

end Relocation

/-! ### Every history gives the fresh result -/

/-- The state is that of a fresh success. -/
structure FrontendState.Fresh (plan : FrontendPlan) (state : FrontendState) : Prop where
  lexes : Lexes plan state.source.units 0 0 state.tokens
  clean : (matchDelimiters plan.boundaries state.tokens).2 = []
  parsed : ∃ fuel root, executeRootIsland plan fuel state.tokens (matchDelimiters plan.boundaries state.tokens).1 =
    some (.ok root) ∧ state.program = materialize plan state.tokens root

section Fresh

variable {plan : FrontendPlan} {source : Source} {state : FrontendState} {tokens : List Token}

theorem Lexes.placed (h : Lexes plan source.units 0 0 tokens) : Placed tokens := by
  have hfits := source.fits
  have hwithin := h.within (Nat.zero_le _)
  have houtput : ∀ i (hi : i < tokens.length), tokens[i].outputIndex = i := fun i hi => by
    rw [h.output i _ (List.getElem?_eq_getElem hi), Nat.zero_add]
  have hlength := h.length_le
  refine ⟨h.ascending (Nat.zero_le _), fun t ht => (hwithin t ht).2.1, fun t ht => ?_, ?_, fun t ht => ?_⟩
  · have := (hwithin t ht).2.2
    omega
  · rw [List.pairwise_iff_getElem]
    intro i j hi hj hij
    rw [houtput i hi, houtput j hj]
    exact hij
  · obtain ⟨i, hi, rfl⟩ := List.mem_iff_getElem.1 ht
    rw [houtput i hi]
    omega

/-- The parser finds the same tree again. -/
theorem FrontendState.Fresh.again (hstate : state.Fresh plan) (hlexes : Lexes plan source.units 0 0 tokens)
    (hsame : SameTerminals (syntaxTokens state.tokens) (syntaxTokens tokens)) : ∃ fuel root root',
      executeRootIsland plan fuel tokens (matchDelimiters plan.boundaries tokens).1 = some (.ok root') ∧
      state.program = materialize plan state.tokens root ∧
      NodeAlike (syntaxTokens state.tokens) (syntaxTokens tokens) root root' := by
  obtain ⟨fuel, root, hparsed, hprogram⟩ := hstate.parsed
  have hne : ∀ {ts : List Token}, Placed ts → ts.Pairwise fun a b => a.outputIndex ≠ b.outputIndex :=
    fun hplaced => hplaced.output.imp fun hlt => hlt.ne
  have hclosings : syntaxMatches state.tokens (matchDelimiters plan.boundaries state.tokens).1 =
      syntaxMatches tokens (matchDelimiters plan.boundaries tokens).1 :=
    syntaxMatches_congr hsame (hne hstate.lexes.placed) (hne hlexes.placed)
  obtain ⟨root', hparsed', halike⟩ := executeRootIsland_alike hsame hclosings le_rfl hparsed
  exact ⟨fuel, root, root', hparsed', hprogram, halike⟩

theorem syntaxKey_startAt {old new : List Token} (h : new.map Token.syntaxKey = old.map Token.syntaxKey) (i : ℕ) :
    startAt old i = startAt new i ∧ stopAt old i = stopAt new i ∧
      ∀ t t', old[i]? = some t → new[i]? = some t' → t.outputIndex = t'.outputIndex := by
  have hi : (new.map Token.syntaxKey)[i]? = (old.map Token.syntaxKey)[i]? := congrArg (·[i]?) h
  rw [List.getElem?_map, List.getElem?_map] at hi
  unfold startAt stopAt
  cases ht : old[i]? with
  | none =>
    rw [ht] at hi
    cases ht' : new[i]? with
    | none => exact ⟨rfl, rfl, fun t t' ht => by cases ht⟩
    | some t' => rw [ht'] at hi; cases hi
  | some t =>
    rw [ht] at hi
    cases ht' : new[i]? with
    | none => rw [ht'] at hi; cases hi
    | some t' =>
      rw [ht'] at hi
      have hkey : t'.syntaxKey = t.syntaxKey := Option.some.inj hi
      simp only [Token.syntaxKey, Prod.mk.injEq] at hkey
      obtain ⟨-, hstart, hstop, -, houtput⟩ := hkey
      refine ⟨by rw [Option.map_some, Option.map_some, hstart], by rw [Option.map_some, Option.map_some, hstop], ?_⟩
      intro u u' hu hu'
      obtain rfl := Option.some.inj hu
      obtain rfl := Option.some.inj hu'
      exact houtput.symm

theorem VectorsAlike.eq {old new : List Token} (hkeys : new.map Token.syntaxKey = old.map Token.syntaxKey)
    {v v' : List NodeRecord × List EdgeRecord} (h : VectorsAlike old new v v') : v = v' := by
  refine Prod.ext (List.forall₂_eq_eq_eq ▸ h.1.imp fun row row' hrow => ?_)
    (List.forall₂_eq_eq_eq ▸ h.2.imp fun row row' hrow => ?_)
  · obtain ⟨ruleId, start, stop, firstEdge, edgeCount⟩ := row
    obtain ⟨ruleId', start', stop', firstEdge', edgeCount'⟩ := row'
    obtain ⟨hrule, hfirst, hcount, _, _, _, _, ⟨i, rfl, rfl, hstop⟩, hspan⟩ := hrow
    dsimp only at hrule hfirst hcount hspan
    obtain ⟨rfl, rfl, rfl, rfl⟩ := hspan
    subst hrule hfirst hcount
    obtain ⟨rfl, rfl⟩ | ⟨j, -, rfl, rfl⟩ := hstop
    · rw [(syntaxKey_startAt hkeys i).1]
    · rw [(syntaxKey_startAt hkeys i).1, (syntaxKey_startAt hkeys j).2.1]
  · cases hrow with
    | token field ordinal i ht ht' => rw [(syntaxKey_startAt hkeys i).2.2 _ _ ht ht']
    | child => rfl

/-- **A reused program is the program of the tree that the parser finds.** -/
theorem FrontendState.Fresh.reuse (hstate : state.Fresh plan) (hlexes : Lexes plan source.units 0 0 tokens)
    {program : CompactProgram} (h : reusedProgram state tokens = some program) : ∃ fuel root,
      executeRootIsland plan fuel tokens (matchDelimiters plan.boundaries tokens).1 = some (.ok root) ∧
      { program with tokens := materializeTokens tokens } = materialize plan tokens root := by
  unfold reusedProgram at h
  split at h
  · rename_i hkeys
    have hkeys : (syntaxTokens tokens).map Token.syntaxKey = (syntaxTokens state.tokens).map Token.syntaxKey :=
      of_decide_eq_true hkeys
    have hsame : SameTerminals (syntaxTokens state.tokens) (syntaxTokens tokens) := by
      have hfirst := congrArg (List.map Prod.fst) hkeys.symm
      rwa [List.map_map, List.map_map] at hfirst
    obtain ⟨fuel, root, root', hparsed, hprogram, halike⟩ := hstate.again hlexes hsame
    refine ⟨fuel, root', hparsed, ?_⟩
    obtain rfl := Option.some.inj h
    have hvectors : vectors plan root = vectors plan root' := halike.vectors.eq hkeys
    rw [hprogram, materialize_eq, materialize_eq, hvectors]
  · unfold relocateSameGrammar at h
    dsimp only at h
    split at h
    · cases h
    · rename_i hpairs
      have hpairs := not_not.1 hpairs
      have hsame : SameTerminals (syntaxTokens state.tokens) (syntaxTokens tokens) := by
        have hfirst := congrArg (List.map Prod.fst) hpairs
        rwa [List.map_map, List.map_map] at hfirst
      obtain ⟨fuel, root, root', hparsed, hprogram, halike⟩ := hstate.again hlexes hsame
      refine ⟨fuel, root', hparsed, ?_⟩
      obtain ⟨r, hr, h⟩ := Option.bind_eq_some_iff.1 h
      obtain ⟨nodes, edges, hnodes, hedges, rfl⟩ := Support.bind₂_eq_some.1 h
      have hfrom : r.From ((syntaxTokens state.tokens).zip (syntaxTokens tokens)) :=
        fillRelocation_from ⟨tableFrom_replicate _ _, tableFrom_replicate _ _, tableFrom_replicate _ _⟩
          (fun pair hpair => hpair) hr
      have hplaced : Placed (syntaxTokens state.tokens) := hstate.lexes.placed.filter _
      have hvectors : VectorsAlike _ _ (vectors plan root) (vectors plan root') := halike.vectors
      obtain ⟨hnodesAlike, hedgesAlike⟩ := hvectors
      rw [hprogram, materialize_eq] at hnodes hedges
      have hnodes := eq_of_mapM (f := relocateNode r)
        (fun _ _ _ hrow h => relocateNode_eq hfrom hplaced hrow h) hnodesAlike hnodes
      have hedges := eq_of_mapM (f := relocateEdge r)
        (fun _ _ _ hrow h => relocateEdge_eq hfrom hplaced hrow h) hedgesAlike hedges
      rw [hnodes, hedges, materialize_eq]

end Fresh

/-- What a fresh run returns. -/
def freshResult (plan : FrontendPlan) (fuel : ℕ) (source : List UInt16) :
    Option (Except (List Diagnostic) CompactProgram) :=
  let (tokens, lexical) := lexFrom plan source 0 0
  let (delimiterMatches, malformed) := matchDelimiters plan.boundaries tokens
  if lexical ++ malformed ≠ [] then some (.error (sortDiagnostics (lexical ++ malformed)))
  else
    (executeRootIsland plan fuel tokens delimiterMatches).map fun
      | .error diagnostic => .error (sortDiagnostics [diagnostic])
      | .ok root => .ok (materialize plan tokens root)

section Fresh

variable {plan : FrontendPlan} {source : Source} {previous : Option FrontendState} {fuel fuel' : ℕ}

theorem ingest_eq : ingest plan fuel source = freshResult plan fuel source.units := by
  unfold ingest ingestIncremental ingestChanged lexSource freshResult
  dsimp only [Option.bind_eq_bind, Option.bind_some, Option.bind_none, Option.any_none]
  split
  · rfl
  · cases executeRootIsland plan fuel _ _ with
    | none => rfl
    | some parsed =>
      cases parsed with
      | error diagnostic => rfl
      | ok root => rfl

/-- More fuel changes nothing. -/
theorem freshResult_mono (hfuel : fuel ≤ fuel') {r : Except (List Diagnostic) CompactProgram}
    (h : freshResult plan fuel source.units = some r) : freshResult plan fuel' source.units = some r := by
  unfold freshResult at h ⊢
  dsimp only at h ⊢
  split at h
  · rename_i hbad
    rwa [if_pos hbad]
  · rename_i hclean
    rw [if_neg hclean]
    obtain ⟨parsed, hparsed, hr⟩ := Option.map_eq_some_iff.1 h
    exact Option.map_eq_some_iff.2 ⟨parsed, executeRootIsland_mono hfuel hparsed, hr⟩

theorem lexSource_eq (hprevious : ∀ state ∈ previous, state.Fresh plan) :
    lexSource plan source.units previous = some (lexFrom plan source.units 0 0) := by
  cases previous with
  | none => rfl
  | some state => exact lexIncremental_eq (hprevious state rfl).lexes

/-- What a step does: its result is fresh, and so is the state that it leaves. -/
structure StepSound (plan : FrontendPlan) (source : Source)
    (result : Except (List Diagnostic) (CompactProgram × FrontendState)) : Prop where
  fresh : ∃ fuel, freshResult plan fuel source.units = some (result.map Prod.fst)
  state : ∀ program state, result = .ok (program, state) → state.Fresh plan

theorem StepSound.success {tokens : List Token} {lexical : List Diagnostic}
    (hlexed : lexFrom plan source.units 0 0 = (tokens, lexical))
    (hclean : lexical ++ (matchDelimiters plan.boundaries tokens).2 = []) {root : PendingNode}
    (hparsed : executeRootIsland plan fuel tokens (matchDelimiters plan.boundaries tokens).1 = some (.ok root))
    (parserExecuted semanticInputUnchanged : Bool) :
    StepSound plan source (.ok (materialize plan tokens root,
      ⟨source, tokens, materialize plan tokens root, parserExecuted, semanticInputUnchanged⟩)) := by
  refine ⟨⟨fuel, ?_⟩, ?_⟩
  · unfold freshResult
    dsimp only
    rw [hlexed]
    dsimp only
    rw [if_neg (not_not.2 hclean), hparsed]
    rfl
  · rintro program state h
    obtain ⟨-, rfl⟩ := Prod.mk.inj (Except.ok.inj h)
    obtain ⟨hlexical, hmalformed⟩ := List.append_eq_nil_iff.1 hclean
    refine ⟨?_, hmalformed, fuel, root, hparsed, rfl⟩
    have hlexes : Lexes plan source.units 0 0 (lexFrom plan source.units 0 0).1 :=
      lexes_of_lexFrom (by rw [hlexed]; exact hlexical)
    rwa [hlexed] at hlexes

theorem ingestChanged_sound (hprevious : ∀ state ∈ previous, state.Fresh plan)
    {result : Except (List Diagnostic) (CompactProgram × FrontendState)}
    (h : ingestChanged plan fuel source previous = some result) : StepSound plan source result := by
  unfold ingestChanged at h
  rw [lexSource_eq hprevious, Option.bind_eq_bind, Option.bind_some] at h
  obtain ⟨tokens, lexical, hlexed⟩ : ∃ tokens lexical, lexFrom plan source.units 0 0 = (tokens, lexical) :=
    ⟨_, _, rfl⟩
  rw [hlexed] at h
  dsimp only at h
  split at h
  · rename_i hbad
    obtain rfl := Option.some.inj h
    refine ⟨⟨0, ?_⟩, fun _ _ h => by cases h⟩
    unfold freshResult
    rw [hlexed]
    dsimp only
    rw [if_pos hbad]
    rfl
  · rename_i hclean
    have hclean := not_not.1 hclean
    split at h
    · rename_i program hreused
      obtain ⟨state, hstate, hreused⟩ := Option.bind_eq_some_iff.1 hreused
      have hlexes : Lexes plan source.units 0 0 (lexFrom plan source.units 0 0).1 :=
        lexes_of_lexFrom (by rw [hlexed]; exact (List.append_eq_nil_iff.1 hclean).1)
      rw [hlexed] at hlexes
      obtain ⟨fuel', root, hparsed, hprogram⟩ := (hprevious state hstate).reuse hlexes hreused
      rw [hprogram] at h
      obtain rfl := Option.some.inj h
      exact .success hlexed hclean hparsed _ _
    · obtain ⟨parsed, hparsed, h⟩ := Option.bind_eq_some_iff.1 h
      cases parsed with
      | error diagnostic =>
        obtain rfl := Option.some.inj h
        refine ⟨⟨fuel, ?_⟩, fun _ _ h => by cases h⟩
        unfold freshResult
        rw [hlexed]
        dsimp only
        rw [if_neg (not_not.2 hclean), hparsed]
        rfl
      | ok root =>
        obtain rfl := Option.some.inj h
        exact .success hlexed hclean hparsed _ _

/-- **What one step preserves.** -/
theorem ingestIncremental_sound (hprevious : ∀ state ∈ previous, state.Fresh plan)
    {result : Except (List Diagnostic) (CompactProgram × FrontendState)}
    (h : ingestIncremental plan fuel source previous = some result) : StepSound plan source result := by
  unfold ingestIncremental at h
  cases previous with
  | none => exact ingestChanged_sound hprevious h
  | some state =>
    dsimp only at h
    split at h
    · rename_i hsame
      obtain rfl := Option.some.inj h
      obtain ⟨hlexes, hclean, fuel, root, hparsed, hprogram⟩ := hprevious state rfl
      rw [hprogram]
      have hlexed : lexFrom plan source.units 0 0 = (state.tokens, []) := by
        unfold lexFrom
        rw [hsame, Lexes.loop (o := 0) hlexes, List.nil_append]
      exact .success hlexed hclean hparsed _ _
    · exact ingestChanged_sound hprevious h

theorem ingestIncremental_finishes (hprevious : ∀ state ∈ previous, state.Fresh plan)
    {r : Except (List Diagnostic) CompactProgram} (h : freshResult plan fuel source.units = some r) :
    ∃ result, ingestIncremental plan fuel source previous = some result := by
  have hchanged : ∃ result, ingestChanged plan fuel source previous = some result := by
    unfold ingestChanged
    rw [lexSource_eq hprevious, Option.bind_eq_bind, Option.bind_some]
    unfold freshResult at h
    dsimp only at h ⊢
    split
    · exact ⟨_, rfl⟩
    · rename_i hclean
      rw [if_neg hclean] at h
      obtain ⟨parsed, hparsed, -⟩ := Option.map_eq_some_iff.1 h
      split
      · exact ⟨_, rfl⟩
      · rw [hparsed, Option.bind_eq_bind, Option.bind_some]
        cases parsed with
        | error diagnostic => exact ⟨_, rfl⟩
        | ok root => exact ⟨_, rfl⟩
  unfold ingestIncremental
  cases previous with
  | none => exact hchanged
  | some state =>
    dsimp only
    split
    · exact ⟨_, rfl⟩
    · exact hchanged

/-- **What a session preserves.** -/
theorem Session.fresh {sources : List Source} (h : Session plan sources previous) :
    ∀ state ∈ previous, state.Fresh plan := by
  induction h with
  | start => intro state hstate; cases hstate
  | success _ hstep ih =>
    intro state hstate
    obtain rfl := Option.some.inj hstate
    exact (ingestIncremental_sound ih hstep).state _ _ rfl
  | failure _ _ ih => exact ih

/-- **After any sequence of edits the result is that of a fresh run.** -/
theorem incremental_is_fresh {sources : List Source} (h : Session plan sources previous) (source : Source)
    (result : Except (List Diagnostic) CompactProgram) :
    (∃ fuel, (ingestIncremental plan fuel source previous).map (fun r => r.map Prod.fst) = some result) ↔
      ∃ fuel, ingest plan fuel source = some result := by
  have hprevious := h.fresh
  constructor
  · rintro ⟨fuel, hresult⟩
    obtain ⟨stepped, hstep, rfl⟩ := Option.map_eq_some_iff.1 hresult
    obtain ⟨fuel', hfresh⟩ := (ingestIncremental_sound hprevious hstep).fresh
    exact ⟨fuel', ingest_eq.trans hfresh⟩
  · rintro ⟨fuel, hfresh⟩
    rw [ingest_eq] at hfresh
    obtain ⟨stepped, hstep⟩ := ingestIncremental_finishes hprevious hfresh
    obtain ⟨fuel', hfresh'⟩ := (ingestIncremental_sound hprevious hstep).fresh
    have hsame := (freshResult_mono (le_max_left fuel fuel') hfresh).symm.trans
      (freshResult_mono (le_max_right fuel fuel') hfresh')
    exact ⟨fuel, by rw [hstep, Option.map_some, Option.some.inj hsame]⟩

end Fresh

/-- Tables with one terminal, of one ASCII character, and sequences of it as the grammar. -/
def charPlan : FrontendPlan where
  rootIsland := 0
  terminalClassification := [0]
  boundaries := [.root]
  islands := [⟨7, 0, [⟨true, [⟨.terminal, 0, 0, 3⟩]⟩]⟩]
  lexer := ⟨0, List.replicate 128 1 ++ List.replicate 128 (-1), [0, 0, 0], [], [-1, 0]⟩

def twoChars : Source := ⟨[97, 98], by decide⟩

def oneChar : Source := ⟨[98], by decide⟩

/-- The second character alone, after both of them: the tree is the same as that of a fresh run. -/
theorem incremental_is_fresh_oneChar : ∃ previous, Session charPlan [twoChars] (some previous) ∧
    ∃ fuel, (ingestIncremental charPlan fuel oneChar (some previous)).map (fun r => r.map Prod.fst) =
      some (.ok ⟨[⟨0, 0, 1, 0⟩], [⟨7, 0, 1, 0, 1⟩], [⟨3, 0, 0, 0⟩]⟩) := by
  have htwo : ingest charPlan 9 twoChars = some (.ok ⟨[⟨0, 0, 1, 0⟩, ⟨0, 1, 2, 0⟩], [⟨7, 0, 2, 0, 2⟩],
      [⟨3, 0, 0, 0⟩, ⟨3, 1, 0, 1⟩]⟩) := by decide +kernel
  have hone : ingest charPlan 9 oneChar = some (.ok ⟨[⟨0, 0, 1, 0⟩], [⟨7, 0, 1, 0, 1⟩], [⟨3, 0, 0, 0⟩]⟩) := by
    decide +kernel
  obtain ⟨result, hresult, hmap⟩ := Option.map_eq_some_iff.1 htwo
  cases result with
  | error diagnostics => cases hmap
  | ok success =>
    obtain ⟨program, state⟩ := success
    have hsession : Session charPlan [twoChars] (some state) := Session.start.success hresult
    exact ⟨state, hsession, (incremental_is_fresh hsession oneChar _).2 ⟨9, hone⟩⟩

end Blot.Frontend
