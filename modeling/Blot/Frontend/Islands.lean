import Mathlib.Data.List.Forall2
import Blot.Frontend.Lexer

/-!
# The island parser of the frontend (`frontend.rs`)

An island is a finite automaton over terminals and other islands.  The loop of an island can go round without taking a
token, so the parser has fuel; `none` on the outside is a run that has not finished.
-/

namespace Blot.Frontend

/-! ### Delimiters -/

def Boundary.terminals : Boundary → Option (ℤ × ℤ)
  | .paired openTerminal closeTerminal | .separated openTerminal closeTerminal _ => some (openTerminal, closeTerminal)
  | .root | .terminated _ => none

/-- `close_by_open`; the source asserts that an opener has one closer. -/
def closeByOpen (boundaries : List Boundary) (terminal : ℤ) : Option ℤ :=
  ((boundaries.filterMap Boundary.terminals).find? fun pair => pair.1 = terminal).map (·.2)

/-- `open_by_close.contains_key` -/
def isCloser (boundaries : List Boundary) (terminal : ℤ) : Bool :=
  (boundaries.filterMap Boundary.terminals).any fun pair => pair.2 = terminal

/-- What the loop of `match_delimiters` carries; the top of the stack comes first. -/
structure Delimiters where
  stack : List (ℤ × ℕ)
  closings : List (ℕ × ℕ)
  diagnostics : List Diagnostic

def delimiterDiagnostic (token : Token) (expected received : ℤ) : Diagnostic :=
  ⟨"GPU_FRONTEND_MALFORMED_DELIMITER",
    s!"Delimiter at span [{token.start}, {token.stop}) expected terminal {expected}, received {received}.",
    sourceSpan token.start token.stop⟩

/-- One round of the loop of `match_delimiters`. -/
def matchDelimiter (boundaries : List Boundary) (d : Delimiters) (entry : Token × ℕ) : Delimiters :=
  let (token, index) := entry
  if token.terminal < 0 then d
  else match closeByOpen boundaries token.terminal with
    | some expectedClose => { d with stack := (expectedClose, index) :: d.stack }
    | none =>
      if isCloser boundaries token.terminal then
        match d.stack with
        | (expected, openIndex) :: stack =>
          if expected = token.terminal then { d with stack := stack, closings := d.closings ++ [(openIndex, index)] }
          else { d with
            stack := stack
            diagnostics := d.diagnostics ++ [delimiterDiagnostic token expected token.terminal] }
        | [] => { d with diagnostics := d.diagnostics ++ [delimiterDiagnostic token (-1) token.terminal] }
      else d

/-- The loop of `match_delimiters`. -/
def delimiters (boundaries : List Boundary) (tokens : List Token) : Delimiters :=
  tokens.zipIdx.foldl (matchDelimiter boundaries) ⟨[], [], []⟩

/-- `match_delimiters`: the closers by their openers, and the diagnostics. -/
def matchDelimiters (boundaries : List Boundary) (tokens : List Token) : List (ℕ × ℕ) × List Diagnostic :=
  let d := delimiters boundaries tokens
  (d.closings, d.diagnostics ++ d.stack.reverse.filterMap fun (expected, openIndex) =>
    tokens[openIndex]?.map fun token => delimiterDiagnostic token expected (-1))

/-! ### Trees -/

mutual
inductive PendingNode where
  | mk (island start stop : ℕ) (edges : List PendingEdge) (id : ℕ)

/-- `PendingEdge`, which has either a token or a child. -/
inductive PendingEdge where
  | token (field : ℤ) (token : Token) (ordinal : ℕ)
  | child (field : ℤ) (child : PendingNode) (ordinal : ℕ)
end

structure IslandMatch where
  node : PendingNode
  nextToken : ℕ

structure IslandProgress where
  farthestToken : ℕ
  island : ℕ
  state : ℕ

/-! ### Running an island -/

/-- `run_island` with the islands that are active fixed: an island, the first token and the limit. -/
abbrev Run := ℕ → ℕ → ℕ → IslandProgress → Option (Option IslandMatch × IslandProgress)

/-- What the loop of `run_active_island` carries. -/
structure Walk where
  state : ℕ
  cursor : ℕ
  edges : List PendingEdge
  ordinal : ℕ

section Run

variable (plan : FrontendPlan) (tokens : List Token) (closings : List (ℕ × ℕ))

def islandLimit (island start outerLimit : ℕ) : Option ℕ :=
  match (plan.boundaries.getD island .root).terminals with
  | none => some outerLimit
  | some (openTerminal, _) => do
    let token ← tokens[start]?
    if token.terminal ≠ openTerminal then none
    else
      let close ← closings.lookup start
      if outerLimit ≤ close then none else some (close + 1)

/-- The loop over the island transitions of a state: the longest match of a nested island.  `none` inside is the return
for two that are equally long. -/
def nestedMatches (run : Run) (cursor limit : ℕ) : List IslandTransition → Option (IslandTransition × IslandMatch) →
    IslandProgress → Option (Option (Option (IslandTransition × IslandMatch)) × IslandProgress)
  | [], best, progress => some (some best, progress)
  | transition :: rest, best, progress =>
    match islandLimit plan tokens closings transition.input.toNat cursor limit with
    | none => nestedMatches run cursor limit rest best progress
    | some nestedLimit =>
      match run transition.input.toNat cursor nestedLimit progress with
      | none => none
      | some (none, progress) => nestedMatches run cursor limit rest best progress
      | some (some candidate, progress) =>
        if (plan.boundaries.getD transition.input.toNat .root).terminals.isSome ∧ candidate.nextToken ≠ nestedLimit then
          nestedMatches run cursor limit rest best progress
        else
          match best with
          | none => nestedMatches run cursor limit rest (some (transition, candidate)) progress
          | some (_, previous) =>
            if previous.nextToken = candidate.nextToken then some (none, progress)
            else if candidate.nextToken < previous.nextToken then nestedMatches run cursor limit rest best progress
            else nestedMatches run cursor limit rest (some (transition, candidate)) progress

/-- The loop of `run_active_island`.  `none` inside is a return of the function, `some` the end of the loop; the limit
is never after the last token. -/
def walkIsland (run : Run) (islandId limit : ℕ) (island : Island) :
    ℕ → Walk → IslandProgress → Option (Option Walk × IslandProgress)
  | 0, _, _ => none
  | fuel + 1, walk, progress =>
    if walk.cursor < limit then do
      let progress :=
        if progress.farthestToken ≤ walk.cursor then ⟨walk.cursor, islandId, walk.state⟩ else progress
      let transitions := (island.states.getD walk.state ⟨false, []⟩).transitions
      let token ← tokens[walk.cursor]?
      let terminalTransition := transitions.find? fun t => t.inputKind = .terminal ∧ t.input = token.terminal
      let takeToken (terminal : IslandTransition) (progress : IslandProgress) :=
        walkIsland run islandId limit island fuel ⟨terminal.target, walk.cursor + 1,
          walk.edges ++ [.token terminal.field token walk.ordinal], walk.ordinal + 1⟩ progress
      let takeChild (transition : IslandTransition) (matched : IslandMatch) (progress : IslandProgress) :=
        walkIsland run islandId limit island fuel ⟨transition.target, matched.nextToken,
          walk.edges ++ [.child transition.field matched.node walk.ordinal], walk.ordinal + 1⟩ progress
      let (nestedMatch, progress) ← nestedMatches plan tokens closings run walk.cursor limit
        (transitions.filter fun t => t.inputKind = .island) none progress
      match nestedMatch with
      | none => some (none, progress)
      | some nestedMatch =>
        match terminalTransition, nestedMatch with
        | some terminal, none => takeToken terminal progress
        | some terminal, some (transition, matched) =>
          if matched.nextToken = walk.cursor + 1 then some (none, progress)
          else if matched.nextToken < walk.cursor + 1 then takeToken terminal progress
          else takeChild transition matched progress
        | none, some (transition, matched) => takeChild transition matched progress
        | none, none => some (some walk, progress)
    else some (some walk, progress)

def startAt (index : ℕ) : ℕ := (tokens[index]?.map Token.start).getD 0

def stopAt (index : ℕ) : ℕ := (tokens[index]?.map Token.stop).getD 0

def runActiveIsland (run : Run) (fuel islandId start limit : ℕ) (progress : IslandProgress) :
    Option (Option IslandMatch × IslandProgress) := do
  let island := plan.islands.getD islandId ⟨0, 0, []⟩
  let (walk, progress) ← walkIsland plan tokens closings run islandId limit island fuel
    ⟨island.startState, start, [], 0⟩ progress
  match walk with
  | none => some (none, progress)
  | some walk =>
    if (island.states.getD walk.state ⟨false, []⟩).accepting then
      let nodeStart := startAt tokens start
      let stop := if start < walk.cursor then stopAt tokens (walk.cursor - 1) else nodeStart
      some (some ⟨.mk islandId nodeStart stop walk.edges (2 ^ 32 - 1), walk.cursor⟩, progress)
    else some (none, progress)

def runIsland : ℕ → List (ℕ × ℕ × ℕ) → Run
  | 0, _, _, _, _, _ => none
  | fuel + 1, active, island, start, limit, progress =>
    if (island, start, limit) ∈ active then some (none, progress)
    else
      runActiveIsland plan tokens closings (runIsland fuel (active ++ [(island, start, limit)])) fuel island start limit
        progress

end Run

/-! ### The root island -/

def syntaxTokens (tokens : List Token) : List Token := tokens.filter fun token => 0 ≤ token.terminal

def syntaxIndexByOutput (tokens : List Token) (outputIndex : ℕ) : Option ℕ :=
  (syntaxTokens tokens).findIdx? fun token => token.outputIndex = outputIndex

def syntaxIndex (tokens : List Token) (index : ℕ) : Option ℕ :=
  tokens[index]?.bind fun token => syntaxIndexByOutput tokens token.outputIndex

def syntaxMatches (tokens : List Token) (delimiterMatches : List (ℕ × ℕ)) : List (ℕ × ℕ) :=
  delimiterMatches.filterMap fun pair => do
    let syntaxOpen ← syntaxIndex tokens pair.1
    let syntaxClose ← syntaxIndex tokens pair.2
    some (syntaxOpen, syntaxClose)

def syntaxDiagnostic (start stop island : ℕ) : Diagnostic :=
  ⟨"GPU_FRONTEND_SYNTAX_ERROR", s!"Island {island} rejected syntax at span [{start}, {stop}).", sourceSpan start stop⟩

/-- `execute_root_island`: the tree or the diagnostic. -/
def executeRootIsland (plan : FrontendPlan) (fuel : ℕ) (tokens : List Token) (delimiterMatches : List (ℕ × ℕ)) :
    Option (Except Diagnostic PendingNode) := do
  let visible := syntaxTokens tokens
  let (root, progress) ← runIsland plan visible (syntaxMatches tokens delimiterMatches) fuel [] plan.rootIsland 0
    visible.length ⟨0, plan.rootIsland, 0⟩
  match root with
  | some root =>
    match visible[root.nextToken]? with
    | none => some (.ok root.node)
    | some token => some (.error (syntaxDiagnostic token.start token.stop progress.island))
  | none =>
    match visible[progress.farthestToken]? with
    | none => some (.error (syntaxDiagnostic 0 0 progress.island))
    | some token => some (.error (syntaxDiagnostic token.start token.stop progress.island))

/-! ### The flat vectors -/

/-- A row of the vector of nodes, which has `0` after the rule and `-1` twice at the end. -/
structure NodeRecord where
  ruleId : ℤ
  start : ℤ
  stop : ℤ
  firstEdge : ℤ
  edgeCount : ℤ
  deriving DecidableEq

/-- A row of the vector of edges: the target is a token in category 0 and a node in category 1. -/
structure EdgeRecord where
  field : ℤ
  ordinal : ℤ
  category : ℤ
  target : ℤ
  deriving DecidableEq

structure TokenRecord where
  terminal : ℤ
  start : ℤ
  stop : ℤ
  lexicalIdentity : ℤ
  deriving DecidableEq

/-- `CompactProgram`, by rows. -/
structure CompactProgram where
  tokens : List TokenRecord
  nodes : List NodeRecord
  edges : List EdgeRecord
  deriving DecidableEq

/-- A count as an `i32`. -/
@[irreducible] def asI32 (n : ℕ) : ℤ := (n : ℤ).bmod (2 ^ 32)

def materializeTokens (tokens : List Token) : List TokenRecord :=
  tokens.map fun token => ⟨token.terminal, asI32 token.start, asI32 token.stop, token.lexicalIdentity⟩

mutual
/-- `assign_ids`: the tree with its identities, and the next one. -/
def assignIds : PendingNode → ℕ → PendingNode × ℕ
  | .mk island start stop edges _, nextId =>
    let (edges, next) := assignEdgeIds edges (nextId + 1)
    (.mk island start stop edges nextId, next)

/-- The loop of `assign_ids`. -/
def assignEdgeIds : List PendingEdge → ℕ → List PendingEdge × ℕ
  | [], nextId => ([], nextId)
  | .token field token ordinal :: rest, nextId =>
    let (rest, next) := assignEdgeIds rest nextId
    (.token field token ordinal :: rest, next)
  | .child field child ordinal :: rest, nextId =>
    let (child, next) := assignIds child nextId
    let (rest, next) := assignEdgeIds rest next
    (.child field child ordinal :: rest, next)
end

def PendingNode.id : PendingNode → ℕ
  | .mk _ _ _ _ id => id

def PendingEdge.record : PendingEdge → EdgeRecord
  | .token field target ordinal => ⟨field, asI32 ordinal, 0, asI32 target.outputIndex⟩
  | .child field target ordinal => ⟨field, asI32 ordinal, 1, asI32 target.id⟩

mutual
def materializeNode (plan : FrontendPlan) : PendingNode → List NodeRecord × List EdgeRecord →
    List NodeRecord × List EdgeRecord
  | .mk island start stop edges _, (nodes, records) =>
    materializeEdges plan edges (nodes ++ [⟨(plan.islands.getD island ⟨0, 0, []⟩).ruleId, asI32 start, asI32 stop,
      asI32 records.length, asI32 edges.length⟩], records ++ edges.map PendingEdge.record)

/-- The second loop of `materialize_node`. -/
def materializeEdges (plan : FrontendPlan) : List PendingEdge → List NodeRecord × List EdgeRecord →
    List NodeRecord × List EdgeRecord
  | [], vectors => vectors
  | .token _ _ _ :: rest, vectors => materializeEdges plan rest vectors
  | .child _ child _ :: rest, vectors => materializeEdges plan rest (materializeNode plan child vectors)
end

def materialize (plan : FrontendPlan) (tokens : List Token) (root : PendingNode) : CompactProgram :=
  let (nodes, edges) := materializeNode plan (assignIds root 0).1 ([], [])
  ⟨materializeTokens tokens, nodes, edges⟩

end Blot.Frontend
