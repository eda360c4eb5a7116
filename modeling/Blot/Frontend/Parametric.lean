import Blot.Frontend.Islands

/-!
# The parser sees only the terminals

Runs of the parser over two token sequences with the same terminals and the same delimiter matches, the second with no
less fuel, give trees of one shape whose positions come from the same indices.
-/

namespace Blot.Frontend

section Alike

variable (tokens tokens' : List Token)

def SameTerminals : Prop := tokens.map Token.terminal = tokens'.map Token.terminal

/-- Two spans that come from the same indices; a span without tokens is where its first token starts. -/
def SpanAlike (start stop start' stop' : ℕ) : Prop :=
  ∃ i, start = startAt tokens i ∧ start' = startAt tokens' i ∧
    (stop = start ∧ stop' = start' ∨ ∃ j, i ≤ j ∧ stop = stopAt tokens j ∧ stop' = stopAt tokens' j)

mutual
inductive NodeAlike : PendingNode → PendingNode → Prop where
  | mk {start stop start' stop' : ℕ} {edges edges' : List PendingEdge} (island id : ℕ)
      (hspan : SpanAlike tokens tokens' start stop start' stop') (hedges : EdgesAlike edges edges') :
      NodeAlike (.mk island start stop edges id) (.mk island start' stop' edges' id)

inductive EdgesAlike : List PendingEdge → List PendingEdge → Prop where
  | nil : EdgesAlike [] []
  | token {t t' : Token} {rest rest' : List PendingEdge} (field : ℤ) (ordinal i : ℕ) (ht : tokens[i]? = some t)
      (ht' : tokens'[i]? = some t') (hrest : EdgesAlike rest rest') :
      EdgesAlike (.token field t ordinal :: rest) (.token field t' ordinal :: rest')
  | child {node node' : PendingNode} {rest rest' : List PendingEdge} (field : ℤ) (ordinal : ℕ)
      (hnode : NodeAlike node node') (hrest : EdgesAlike rest rest') :
      EdgesAlike (.child field node ordinal :: rest) (.child field node' ordinal :: rest')
end

def MatchAlike (m m' : IslandMatch) : Prop := NodeAlike tokens tokens' m.node m'.node ∧ m.nextToken = m'.nextToken

def BestAlike (b b' : IslandTransition × IslandMatch) : Prop := b.1 = b'.1 ∧ MatchAlike tokens tokens' b.2 b'.2

structure WalkAlike (w w' : Walk) : Prop where
  state : w.state = w'.state
  cursor : w.cursor = w'.cursor
  ordinal : w.ordinal = w'.ordinal
  edges : EdgesAlike tokens tokens' w.edges w'.edges

/-- What a finished run finds, the other run finds too. -/
def Follows {α : Type} (R : α → α → Prop) (r r' : Option (Option α × IslandProgress)) : Prop :=
  ∀ m p, r = some (m, p) → ∃ m', r' = some (m', p) ∧ Option.Rel R m m'

end Alike

section Follows

variable {α β : Type} {R : α → α → Prop} {S : β → β → Prop}

theorem Follows.none {r' : Option (Option α × IslandProgress)} : Follows R none r' := by
  intro m p h
  cases h

theorem Follows.some {m m' : Option α} {p : IslandProgress} (h : Option.Rel R m m') :
    Follows R (some (m, p)) (some (m', p)) := by
  intro m₁ p₁ h₁
  obtain ⟨rfl, rfl⟩ := Prod.mk.inj (Option.some.inj h₁)
  exact ⟨m', rfl, h⟩

/-- Runs that follow each other can be continued. -/
theorem Follows.bind {r r' : Option (Option α × IslandProgress)}
    {k k' : Option α × IslandProgress → Option (Option β × IslandProgress)} (h : Follows R r r')
    (hk : ∀ m m' p, Option.Rel R m m' → Follows S (k (m, p)) (k' (m', p))) : Follows S (r >>= k) (r' >>= k') := by
  intro m p hm
  obtain ⟨⟨a, q⟩, hr, hka⟩ := Option.bind_eq_some_iff.1 hm
  obtain ⟨a', hr', ha⟩ := h a q hr
  obtain ⟨m', hm', hrel⟩ := hk a a' q ha m p hka
  exact ⟨m', Option.bind_eq_some_iff.2 ⟨(a', q), hr', hm'⟩, hrel⟩

end Follows

section Runs

variable {plan : FrontendPlan} {tokens tokens' : List Token} {closings : List (ℕ × ℕ)} {run run' : Run}

theorem SameTerminals.get (h : SameTerminals tokens tokens') (i : ℕ) :
    tokens[i]?.map Token.terminal = tokens'[i]?.map Token.terminal := by
  have hi : (tokens.map Token.terminal)[i]? = (tokens'.map Token.terminal)[i]? := congrArg (·[i]?) h
  rwa [List.getElem?_map, List.getElem?_map] at hi

theorem SameTerminals.cases (h : SameTerminals tokens tokens') (i : ℕ) :
    tokens[i]? = none ∧ tokens'[i]? = none ∨
      ∃ t t', tokens[i]? = some t ∧ tokens'[i]? = some t' ∧ t.terminal = t'.terminal := by
  have hi := h.get i
  cases ht : tokens[i]? with
  | none =>
    rw [ht] at hi
    cases ht' : tokens'[i]? with
    | none => exact .inl ⟨rfl, rfl⟩
    | some t' => rw [ht'] at hi; cases hi
  | some t =>
    rw [ht] at hi
    cases ht' : tokens'[i]? with
    | none => rw [ht'] at hi; cases hi
    | some t' =>
      rw [ht'] at hi
      exact .inr ⟨t, t', rfl, rfl, Option.some.inj hi⟩

theorem EdgesAlike.append {edges edges' last last' : List PendingEdge} (h : EdgesAlike tokens tokens' edges edges')
    (hlast : EdgesAlike tokens tokens' last last') : EdgesAlike tokens tokens' (edges ++ last) (edges' ++ last') := by
  induction edges generalizing edges' with
  | nil =>
    cases h
    exact hlast
  | cons edge edges ih =>
    cases h with
    | token field ordinal i ht ht' hrest => exact .token field ordinal i ht ht' (ih hrest)
    | child field ordinal hnode hrest => exact .child field ordinal hnode (ih hrest)

theorem islandLimit_congr (h : SameTerminals tokens tokens') (island start outerLimit : ℕ) :
    islandLimit plan tokens closings island start outerLimit =
      islandLimit plan tokens' closings island start outerLimit := by
  unfold islandLimit
  split
  · rfl
  · obtain ⟨ht, ht'⟩ | ⟨t, t', ht, ht', hsame⟩ := h.cases start
    · rw [ht, ht']
    · rw [ht, ht', Option.bind_eq_bind, Option.bind_eq_bind, Option.bind_some, Option.bind_some, hsame]

/-- **The nested matches are alike.** -/
theorem nestedMatches_follows (hsame : SameTerminals tokens tokens')
    (hrun : ∀ i s l p, Follows (MatchAlike tokens tokens') (run i s l p) (run' i s l p)) (cursor limit : ℕ)
    (transitions : List IslandTransition) (best best' : Option (IslandTransition × IslandMatch))
    (hbest : Option.Rel (BestAlike tokens tokens') best best') (progress : IslandProgress) :
    Follows (Option.Rel (BestAlike tokens tokens'))
      (nestedMatches plan tokens closings run cursor limit transitions best progress)
      (nestedMatches plan tokens' closings run' cursor limit transitions best' progress) := by
  induction transitions generalizing best best' progress with
  | nil =>
    rw [nestedMatches, nestedMatches]
    exact .some (.some hbest)
  | cons transition rest ih =>
    rw [nestedMatches, nestedMatches, ← islandLimit_congr hsame]
    cases islandLimit plan tokens closings transition.input.toNat cursor limit with
    | none => exact ih best best' hbest progress
    | some nestedLimit =>
      dsimp only
      cases hr : run transition.input.toNat cursor nestedLimit progress with
      | none => exact .none
      | some result =>
        obtain ⟨m, p⟩ := result
        obtain ⟨m', hr', hm⟩ := hrun _ _ _ _ m p hr
        rw [hr']
        cases hm with
        | none => exact ih best best' hbest p
        | @some candidate candidate' hm =>
          have hb : BestAlike tokens tokens' (transition, candidate) (transition, candidate') := ⟨rfl, hm⟩
          dsimp only
          rw [hm.2]
          split
          · exact ih best best' hbest p
          · cases hbest with
            | none => exact ih _ _ (.some hb) p
            | @some b b' hbest =>
              dsimp only
              rw [← hbest.2.2]
              split
              · exact .some .none
              · split
                · exact ih _ _ (.some hbest) p
                · exact ih _ _ (.some hb) p

/-- **The loop of an island goes alike.** -/
theorem walkIsland_follows (hsame : SameTerminals tokens tokens')
    (hrun : ∀ i s l p, Follows (MatchAlike tokens tokens') (run i s l p) (run' i s l p)) (islandId limit : ℕ)
    (island : Island) {fuel fuel' : ℕ} (hfuel : fuel ≤ fuel') (walk walk' : Walk)
    (hwalk : WalkAlike tokens tokens' walk walk') (progress : IslandProgress) :
    Follows (WalkAlike tokens tokens') (walkIsland plan tokens closings run islandId limit island fuel walk progress)
      (walkIsland plan tokens' closings run' islandId limit island fuel' walk' progress) := by
  induction fuel generalizing fuel' walk walk' progress with
  | zero => exact .none
  | succ fuel ih =>
    obtain ⟨fuel', rfl⟩ := Nat.exists_eq_succ_of_ne_zero (by omega : fuel' ≠ 0)
    have hfuel : fuel ≤ fuel' := by omega
    rw [walkIsland, walkIsland, ← hwalk.cursor, ← hwalk.state, ← hwalk.ordinal]
    split
    · obtain ⟨ht, -⟩ | ⟨t, t', ht, ht', hterminal⟩ := hsame.cases walk.cursor
      · rw [ht]
        exact .none
      · rw [ht, ht', Option.bind_eq_bind, Option.bind_eq_bind, Option.bind_some, Option.bind_some, hterminal]
        refine Follows.bind (nestedMatches_follows hsame hrun _ _ _ _ _ .none _) fun m m' p hm => ?_
        -- the token or the child that the loop takes
        have htoken : ∀ (transition : IslandTransition), Follows (WalkAlike tokens tokens')
            (walkIsland plan tokens closings run islandId limit island fuel ⟨transition.target, walk.cursor + 1,
              walk.edges ++ [.token transition.field t walk.ordinal], walk.ordinal + 1⟩ p)
            (walkIsland plan tokens' closings run' islandId limit island fuel' ⟨transition.target, walk.cursor + 1,
              walk'.edges ++ [.token transition.field t' walk.ordinal], walk.ordinal + 1⟩ p) := by
          intro transition
          refine ih hfuel _ _ ?_ p
          exact ⟨rfl, rfl, rfl, hwalk.edges.append (.token _ _ walk.cursor ht ht' .nil)⟩
        have hchild : ∀ b b' : IslandTransition × IslandMatch, BestAlike tokens tokens' b b' →
            Follows (WalkAlike tokens tokens')
            (walkIsland plan tokens closings run islandId limit island fuel ⟨b.1.target, b.2.nextToken,
              walk.edges ++ [.child b.1.field b.2.node walk.ordinal], walk.ordinal + 1⟩ p)
            (walkIsland plan tokens' closings run' islandId limit island fuel' ⟨b'.1.target, b'.2.nextToken,
              walk'.edges ++ [.child b'.1.field b'.2.node walk.ordinal], walk.ordinal + 1⟩ p) := by
          intro b b' hb
          rw [← hb.1]
          refine ih hfuel _ _ ?_ p
          exact ⟨rfl, hb.2.2, rfl, hwalk.edges.append (.child _ _ hb.2.1 .nil)⟩
        cases hm with
        | none => exact .some .none
        | some hm =>
          dsimp only
          generalize List.find? _ _ = terminalTransition
          cases hm with
          | none =>
            cases terminalTransition with
            | none => exact .some (.some hwalk)
            | some terminal => exact htoken terminal
          | @some b b' hb =>
            cases terminalTransition with
            | none => exact hchild b b' hb
            | some terminal =>
              have hboth := hchild b b' hb
              dsimp only
              rw [← hb.2.2] at hboth ⊢
              split
              · exact .some .none
              · split
                · exact htoken terminal
                · exact hboth
    · exact .some (.some hwalk)

theorem runActiveIsland_follows (hsame : SameTerminals tokens tokens')
    (hrun : ∀ i s l p, Follows (MatchAlike tokens tokens') (run i s l p) (run' i s l p)) {fuel fuel' : ℕ}
    (hfuel : fuel ≤ fuel') (islandId start limit : ℕ) (progress : IslandProgress) :
    Follows (MatchAlike tokens tokens') (runActiveIsland plan tokens closings run fuel islandId start limit progress)
      (runActiveIsland plan tokens' closings run' fuel' islandId start limit progress) := by
  refine Follows.bind (walkIsland_follows hsame hrun _ _ _ hfuel _ _ ⟨rfl, rfl, rfl, .nil⟩ _) fun m m' p hm => ?_
  cases hm with
  | none => exact .some .none
  | @some walk walk' hwalk =>
    dsimp only
    rw [← hwalk.state, ← hwalk.cursor]
    split
    · refine .some (.some ⟨.mk _ _ ⟨start, rfl, rfl, ?_⟩ hwalk.edges, rfl⟩)
      split
      · rename_i hlt
        exact .inr ⟨walk.cursor - 1, by omega, rfl, rfl⟩
      · exact .inl ⟨rfl, rfl⟩
    · exact .some .none

/-- **The parser sees only the terminals**, and more fuel changes nothing. -/
theorem runIsland_follows (hsame : SameTerminals tokens tokens') {fuel fuel' : ℕ} (hfuel : fuel ≤ fuel')
    (active : List (ℕ × ℕ × ℕ)) (island start limit : ℕ) (progress : IslandProgress) :
    Follows (MatchAlike tokens tokens') (runIsland plan tokens closings fuel active island start limit progress)
      (runIsland plan tokens' closings fuel' active island start limit progress) := by
  induction fuel generalizing fuel' active island start limit progress with
  | zero => exact .none
  | succ fuel ih =>
    obtain ⟨fuel', rfl⟩ := Nat.exists_eq_succ_of_ne_zero (by omega : fuel' ≠ 0)
    have hfuel : fuel ≤ fuel' := by omega
    rw [runIsland, runIsland]
    split
    · exact .some .none
    · exact runActiveIsland_follows hsame (fun i s l p => ih hfuel _ i s l p) hfuel _ _ _ _

end Runs

/-! ### Delimiters -/

/-- The tokens that the grammar sees, with their indices. -/
def visibleEntries (tokens : List Token) : List (Token × ℕ) := tokens.zipIdx.filter fun entry => 0 ≤ entry.1.terminal

section Delimiters

variable (tokens tokens' : List Token)

def IndexAlike (i i' : ℕ) : Prop := ∃ k, syntaxIndex tokens i = some k ∧ syntaxIndex tokens' i' = some k

def EntryAlike (e e' : Token × ℕ) : Prop := e.1.terminal = e'.1.terminal ∧ IndexAlike tokens tokens' e.2 e'.2

/-- The two loops of `match_delimiters` stand at the same place. -/
structure DelimitersAlike (d d' : Delimiters) : Prop where
  stack : List.Forall₂ (fun a b => a.1 = b.1 ∧ IndexAlike tokens tokens' a.2 b.2) d.stack d'.stack
  closings : List.Forall₂ (fun a b => IndexAlike tokens tokens' a.1 b.1 ∧ IndexAlike tokens tokens' a.2 b.2)
    d.closings d'.closings

end Delimiters

section Delimiters

variable {boundaries : List Boundary} {tokens tokens' : List Token}

theorem matchDelimiter_alike {d d' : Delimiters} (h : DelimitersAlike tokens tokens' d d') {e e' : Token × ℕ}
    (he : EntryAlike tokens tokens' e e') :
    DelimitersAlike tokens tokens' (matchDelimiter boundaries d e) (matchDelimiter boundaries d' e') := by
  obtain ⟨t, i⟩ := e
  obtain ⟨t', i'⟩ := e'
  obtain ⟨hterminal, hindex⟩ := he
  dsimp only at hterminal hindex
  unfold matchDelimiter
  dsimp only
  rw [← hterminal]
  split
  · exact h
  · split
    · exact ⟨.cons ⟨rfl, hindex⟩ h.stack, h.closings⟩
    · split
      · obtain ⟨stack, closings, diagnostics⟩ := d
        obtain ⟨stack', closings', diagnostics'⟩ := d'
        obtain ⟨hstack, hclosings⟩ := h
        dsimp only at hstack hclosings ⊢
        cases hstack with
        | nil => exact ⟨.nil, hclosings⟩
        | @cons a b stack stack' hab hrest =>
          dsimp only
          rw [← hab.1]
          split
          · exact ⟨hrest, List.rel_append hclosings (.cons ⟨hab.2, hindex⟩ .nil)⟩
          · exact ⟨hrest, hclosings⟩
      · exact h

/-- The tokens that the grammar does not see are passed over. -/
theorem delimiters_eq : delimiters boundaries tokens =
    (visibleEntries tokens).foldl (matchDelimiter boundaries) ⟨[], [], []⟩ := by
  unfold delimiters visibleEntries
  rw [List.foldl_filter]
  congr 1
  funext d e
  obtain ⟨t, i⟩ := e
  by_cases ht : 0 ≤ t.terminal
  · rw [if_pos (decide_eq_true ht)]
  · rw [if_neg (by simpa using ht), matchDelimiter, if_pos (Int.not_le.1 ht)]

theorem visibleEntries_fst : (visibleEntries tokens).map Prod.fst = syntaxTokens tokens := by
  unfold visibleEntries syntaxTokens
  conv_rhs => rw [← List.zipIdx_map_fst 0 tokens]
  rw [List.filter_map]
  rfl

theorem syntaxIndex_visibleEntries (houtput : tokens.Pairwise fun a b => a.outputIndex ≠ b.outputIndex) {k : ℕ}
    {e : Token × ℕ} (he : (visibleEntries tokens)[k]? = some e) : syntaxIndex tokens e.2 = some k := by
  have hvisible : (syntaxTokens tokens)[k]? = some e.1 := by
    rw [← visibleEntries_fst, List.getElem?_map, he]
    rfl
  have htoken : tokens[e.2]? = some e.1 :=
    List.mem_zipIdx_iff_getElem?.1 (List.mem_of_mem_filter (List.mem_of_getElem? he))
  obtain ⟨hk, hget⟩ := List.getElem?_eq_some_iff.1 hvisible
  unfold syntaxIndex syntaxIndexByOutput
  rw [htoken, Option.bind_some, List.findIdx?_eq_some_iff_getElem]
  refine ⟨hk, by rw [hget]; exact decide_eq_true rfl, fun j hj => ?_⟩
  have hterminals : (syntaxTokens tokens).Pairwise fun a b => a.outputIndex ≠ b.outputIndex := houtput.filter _
  have hne := List.pairwise_iff_getElem.1 hterminals j k (hj.trans hk) hk hj
  rw [decide_eq_true_iff, ← hget]
  exact hne

theorem visibleEntries_alike (h : SameTerminals (syntaxTokens tokens) (syntaxTokens tokens'))
    (houtput : tokens.Pairwise fun a b => a.outputIndex ≠ b.outputIndex)
    (houtput' : tokens'.Pairwise fun a b => a.outputIndex ≠ b.outputIndex) :
    List.Forall₂ (EntryAlike tokens tokens') (visibleEntries tokens) (visibleEntries tokens') := by
  have hmap : (visibleEntries tokens).map (fun e => e.1.terminal) =
      (visibleEntries tokens').map fun e => e.1.terminal := by
    have h : (syntaxTokens tokens).map Token.terminal = (syntaxTokens tokens').map Token.terminal := h
    rwa [← visibleEntries_fst, ← visibleEntries_fst, List.map_map, List.map_map] at h
  rw [List.forall₂_iff_get]
  refine ⟨by simpa using congrArg List.length hmap, fun k hk hk' => ⟨?_, k, ?_, ?_⟩⟩
  · have hget := congrArg (·[k]?) hmap
    simpa [hk, hk'] using hget
  · exact syntaxIndex_visibleEntries houtput (List.getElem?_eq_getElem hk)
  · exact syntaxIndex_visibleEntries houtput' (List.getElem?_eq_getElem hk')

/-- **The delimiter matches that the parser reads are decided by the terminals.** -/
theorem syntaxMatches_congr (h : SameTerminals (syntaxTokens tokens) (syntaxTokens tokens'))
    (houtput : tokens.Pairwise fun a b => a.outputIndex ≠ b.outputIndex)
    (houtput' : tokens'.Pairwise fun a b => a.outputIndex ≠ b.outputIndex) :
    syntaxMatches tokens (matchDelimiters boundaries tokens).1 =
      syntaxMatches tokens' (matchDelimiters boundaries tokens').1 := by
  have halike : DelimitersAlike tokens tokens' (delimiters boundaries tokens) (delimiters boundaries tokens') := by
    rw [delimiters_eq, delimiters_eq]
    have hstart : DelimitersAlike tokens tokens' ⟨[], [], []⟩ ⟨[], [], []⟩ := ⟨.nil, .nil⟩
    exact List.rel_foldl (P := DelimitersAlike tokens tokens') (R := EntryAlike tokens tokens')
      (fun _ _ hd _ _ he => matchDelimiter_alike hd he) hstart (visibleEntries_alike h houtput houtput')
  unfold syntaxMatches
  rw [← List.forall₂_eq_eq_eq]
  refine List.rel_filterMap (fun a b hab => ?_) halike.closings
  obtain ⟨⟨i, hi, hi'⟩, j, hj, hj'⟩ := hab
  rw [hi, hi', hj, hj']
  exact .some rfl

end Delimiters

/-! ### The root island -/

section Root

variable {plan : FrontendPlan} {tokens tokens' : List Token} {closings closings' : List (ℕ × ℕ)} {fuel fuel' : ℕ}

/-- **A tree for the one sequence is a tree for the other.** -/
theorem executeRootIsland_alike (hsame : SameTerminals (syntaxTokens tokens) (syntaxTokens tokens'))
    (hclosings : syntaxMatches tokens closings = syntaxMatches tokens' closings') (hfuel : fuel ≤ fuel')
    {node : PendingNode} (h : executeRootIsland plan fuel tokens closings = some (.ok node)) :
    ∃ node', executeRootIsland plan fuel' tokens' closings' = some (.ok node') ∧
      NodeAlike (syntaxTokens tokens) (syntaxTokens tokens') node node' := by
  have hlength : (syntaxTokens tokens).length = (syntaxTokens tokens').length := by
    simpa using congrArg List.length hsame
  obtain ⟨⟨root, progress⟩, hrun, hroot⟩ := Option.bind_eq_some_iff.1 h
  obtain ⟨root', hrun', halike⟩ := runIsland_follows hsame hfuel _ _ _ _ _ root progress hrun
  rw [hlength, hclosings] at hrun'
  unfold executeRootIsland
  dsimp only
  rw [hrun', Option.bind_eq_bind, Option.bind_some]
  cases halike with
  | none =>
    dsimp only at hroot
    split at hroot
    · cases hroot
    · cases hroot
  | @some m m' hm =>
    dsimp only at hroot ⊢
    rw [← hm.2]
    obtain ⟨ht, ht'⟩ | ⟨t, t', ht, ht', -⟩ := hsame.cases m.nextToken
    · rw [ht] at hroot
      cases hroot
      rw [ht']
      exact ⟨m'.node, rfl, hm.1⟩
    · rw [ht] at hroot
      cases hroot

mutual
theorem NodeAlike.eq {node node' : PendingNode} (h : NodeAlike tokens tokens node node') : node = node' := by
  cases h with
  | mk island id hspan hedges =>
    obtain ⟨i, rfl, rfl, ⟨rfl, rfl⟩ | ⟨j, -, rfl, rfl⟩⟩ := hspan
    · rw [hedges.eq]
    · rw [hedges.eq]

theorem EdgesAlike.eq {edges edges' : List PendingEdge} (h : EdgesAlike tokens tokens edges edges') :
    edges = edges' := by
  cases h with
  | nil => rfl
  | token field ordinal i ht ht' hrest =>
    obtain rfl := Option.some.inj (ht.symm.trans ht')
    rw [hrest.eq]
  | child field ordinal hnode hrest => rw [hnode.eq, hrest.eq]
end

/-- **More fuel changes nothing.** -/
theorem executeRootIsland_mono (hfuel : fuel ≤ fuel') {r : Except Diagnostic PendingNode}
    (h : executeRootIsland plan fuel tokens closings = some r) :
    executeRootIsland plan fuel' tokens closings = some r := by
  obtain ⟨⟨root, progress⟩, hrun, hroot⟩ := Option.bind_eq_some_iff.1 h
  obtain ⟨root', hrun', halike⟩ := runIsland_follows rfl hfuel _ _ _ _ _ root progress hrun
  have hroots : root' = root := by
    cases halike with
    | none => rfl
    | @some m m' hm =>
      obtain ⟨node, nextToken⟩ := m
      obtain ⟨node', nextToken'⟩ := m'
      obtain ⟨hnode, hnext⟩ := hm
      dsimp only at hnode hnext
      rw [hnode.eq, hnext]
  rw [hroots] at hrun'
  exact Option.bind_eq_some_iff.2 ⟨(root, progress), hrun', hroot⟩

end Root

/-! ### The flat vectors -/

section Rows

variable (tokens tokens' : List Token)

/-- Rows of alike nodes. -/
structure NodeRecordAlike (r r' : NodeRecord) : Prop where
  ruleId : r.ruleId = r'.ruleId
  firstEdge : r.firstEdge = r'.firstEdge
  edgeCount : r.edgeCount = r'.edgeCount
  span : ∃ start stop start' stop', SpanAlike tokens tokens' start stop start' stop' ∧
    r.start = asI32 start ∧ r.stop = asI32 stop ∧ r'.start = asI32 start' ∧ r'.stop = asI32 stop'

inductive EdgeRecordAlike : EdgeRecord → EdgeRecord → Prop where
  | token {t t' : Token} (field : ℤ) (ordinal : ℤ) (i : ℕ) (ht : tokens[i]? = some t) (ht' : tokens'[i]? = some t') :
      EdgeRecordAlike ⟨field, ordinal, 0, asI32 t.outputIndex⟩ ⟨field, ordinal, 0, asI32 t'.outputIndex⟩
  | child (field ordinal target : ℤ) : EdgeRecordAlike ⟨field, ordinal, 1, target⟩ ⟨field, ordinal, 1, target⟩

def VectorsAlike (v v' : List NodeRecord × List EdgeRecord) : Prop :=
  List.Forall₂ (NodeRecordAlike tokens tokens') v.1 v'.1 ∧ List.Forall₂ (EdgeRecordAlike tokens tokens') v.2 v'.2

end Rows

section Rows

variable {plan : FrontendPlan} {tokens tokens' : List Token}

mutual
theorem NodeAlike.assignIds {node node' : PendingNode} (h : NodeAlike tokens tokens' node node') (n : ℕ) :
    NodeAlike tokens tokens' (assignIds node n).1 (assignIds node' n).1 ∧
      (Frontend.assignIds node n).2 = (Frontend.assignIds node' n).2 := by
  cases h with
  | mk island id hspan hedges =>
    rw [Frontend.assignIds, Frontend.assignIds]
    exact ⟨.mk island n hspan (hedges.assignIds (n + 1)).1, (hedges.assignIds (n + 1)).2⟩

theorem EdgesAlike.assignIds {edges edges' : List PendingEdge} (h : EdgesAlike tokens tokens' edges edges') (n : ℕ) :
    EdgesAlike tokens tokens' (assignEdgeIds edges n).1 (assignEdgeIds edges' n).1 ∧
      (assignEdgeIds edges n).2 = (assignEdgeIds edges' n).2 := by
  cases h with
  | nil => exact ⟨.nil, rfl⟩
  | token field ordinal i ht ht' hrest =>
    rw [assignEdgeIds, assignEdgeIds]
    exact ⟨.token field ordinal i ht ht' (hrest.assignIds n).1, (hrest.assignIds n).2⟩
  | child field ordinal hnode hrest =>
    rw [assignEdgeIds, assignEdgeIds]
    obtain ⟨hfirst, hnext⟩ := hnode.assignIds n
    dsimp only
    rw [hnext]
    exact ⟨.child field ordinal hfirst (hrest.assignIds _).1, (hrest.assignIds _).2⟩
end

theorem NodeAlike.id_eq {node node' : PendingNode} (h : NodeAlike tokens tokens' node node') : node.id = node'.id := by
  cases h with
  | mk => rfl

theorem EdgesAlike.length_eq {edges edges' : List PendingEdge} (h : EdgesAlike tokens tokens' edges edges') :
    edges.length = edges'.length := by
  induction edges generalizing edges' with
  | nil =>
    cases h
    rfl
  | cons edge edges ih =>
    cases h with
    | token field ordinal i ht ht' hrest => rw [List.length_cons, List.length_cons, ih hrest]
    | child field ordinal hnode hrest => rw [List.length_cons, List.length_cons, ih hrest]

theorem EdgesAlike.records {edges edges' : List PendingEdge} (h : EdgesAlike tokens tokens' edges edges') :
    List.Forall₂ (EdgeRecordAlike tokens tokens') (edges.map PendingEdge.record) (edges'.map PendingEdge.record) := by
  induction edges generalizing edges' with
  | nil =>
    cases h
    exact .nil
  | cons edge edges ih =>
    cases h with
    | token field ordinal i ht ht' hrest => exact .cons (.token _ _ i ht ht') (ih hrest)
    | child field ordinal hnode hrest =>
      rw [List.map_cons, List.map_cons, PendingEdge.record, PendingEdge.record, hnode.id_eq]
      exact .cons (.child _ _ _) (ih hrest)

mutual
/-- **Alike trees have alike vectors.** -/
theorem NodeAlike.materialize {node node' : PendingNode} (h : NodeAlike tokens tokens' node node')
    {v v' : List NodeRecord × List EdgeRecord} (hv : VectorsAlike tokens tokens' v v') :
    VectorsAlike tokens tokens' (materializeNode plan node v) (materializeNode plan node' v') := by
  cases h with
  | @mk start stop start' stop' edges edges' island id hspan hedges =>
    obtain ⟨nodes, records⟩ := v
    obtain ⟨nodes', records'⟩ := v'
    rw [materializeNode, materializeNode]
    refine hedges.materialize ⟨List.rel_append hv.1 (.cons ?_ .nil), List.rel_append hv.2 hedges.records⟩
    have hrecords : records.length = records'.length := hv.2.length_eq
    rw [hrecords, hedges.length_eq]
    exact ⟨rfl, rfl, rfl, start, stop, start', stop', hspan, rfl, rfl, rfl, rfl⟩

theorem EdgesAlike.materialize {edges edges' : List PendingEdge} (h : EdgesAlike tokens tokens' edges edges')
    {v v' : List NodeRecord × List EdgeRecord} (hv : VectorsAlike tokens tokens' v v') :
    VectorsAlike tokens tokens' (materializeEdges plan edges v) (materializeEdges plan edges' v') := by
  cases h with
  | nil =>
    rw [materializeEdges, materializeEdges]
    exact hv
  | token field ordinal i ht ht' hrest =>
    rw [materializeEdges, materializeEdges]
    exact hrest.materialize hv
  | child field ordinal hnode hrest =>
    rw [materializeEdges, materializeEdges]
    exact hrest.materialize (hnode.materialize hv)
end

/-- The vectors of a tree. -/
def vectors (plan : FrontendPlan) (root : PendingNode) : List NodeRecord × List EdgeRecord :=
  materializeNode plan (assignIds root 0).1 ([], [])

theorem materialize_eq (root : PendingNode) :
    materialize plan tokens root = ⟨materializeTokens tokens, (vectors plan root).1, (vectors plan root).2⟩ := by
  unfold materialize vectors
  cases materializeNode plan (assignIds root 0).1 ([], []) with
  | mk nodes edges => rfl

theorem NodeAlike.vectors {node node' : PendingNode} (h : NodeAlike tokens tokens' node node') :
    VectorsAlike tokens tokens' (vectors plan node) (vectors plan node') :=
  (h.assignIds 0).1.materialize ⟨.nil, .nil⟩

end Rows

end Blot.Frontend
