import Blot.Frontend.Incremental

/-!
# Layout elaboration (`layout.rs`)

The elaborator lexes a source, follows its tokens with a stack of layout frames, and inserts newline, indent and dedent
markers before tokens that start a line; it records where every unit of the result came from.

A vector used as a stack is a list with its top first.  A slice out of range, a failed assertion and an `expect` panic.
-/

namespace Blot.Layout

open Frontend
open Blot.Support (demand)

inductive Halt where
  | panicked (message : String)
  | refused (diagnostics : List Diagnostic)

def layoutNewline : UInt16 := 0xe000

def layoutIndent : UInt16 := 0xe001

def layoutDedent : UInt16 := 0xe002

structure LayoutSource where
  source : List UInt16
  originalOffsets : List ℕ
  continuationHints : List (ℕ × Diagnostic)

structure LayoutFrame where
  indent : ℕ
  closeIndent : ℕ
  brackets : ℕ

structure Frames where
  top : LayoutFrame
  below : List LayoutFrame

def Frames.all (frames : Frames) : List LayoutFrame := frames.top :: frames.below

structure RecordLayout where
  depth : ℕ
  openingEnd : ℕ
  fieldIndent : Option ℕ
  fieldStarted : Bool
  decided : Bool

structure Delimiters where
  brackets : ℕ
  records : List RecordLayout

/-! ### Texts -/

/-- `as u32` -/
def u32 (n : ℕ) : ℕ := n % 2 ^ 32

/-- `encode_utf16` of an ASCII text -/
def units (text : String) : List UInt16 := text.toList.map fun c => UInt16.ofNat c.toNat

/-- `get` of a range -/
def slice (source : List UInt16) (start stop : ℕ) : Option (List UInt16) :=
  if start ≤ stop ∧ stop ≤ source.length then some ((source.take stop).drop start) else none

def range (source : List UInt16) (start stop : ℕ) : Except Halt (List UInt16) :=
  demand (slice source start stop) (.panicked "range out of bounds")

def isText (source : List UInt16) (token : Token) (expected : String) : Bool :=
  slice source token.start token.stop = some (units expected)

def isAnyText (source : List UInt16) (token : Token) (expected : List String) : Bool :=
  expected.any (isText source token)

def namedTokenKinds : List String :=
  ["IDENT", "TYPE_IDENT", "INTEGER", "FLOAT", "TEXT", "ELSE_IF", "INTRINSIC", "ANGLE_LEFT", "ANGLE_RIGHT", "QUESTION",
    "LAYOUT_NEWLINE", "LAYOUT_INDENT", "LAYOUT_DEDENT", "OPERATOR", "WHITESPACE", "COMMENT"]

def kind (token : Token) : Option String :=
  if token.lexicalIdentity < 0 then none else namedTokenKinds[token.lexicalIdentity.toNat]?

/-- `rposition` -/
def lastIndex (p : UInt16 → Bool) : List UInt16 → Option ℕ
  | [] => none
  | unit :: rest =>
    match lastIndex p rest with
    | some index => some (index + 1)
    | none => if p unit then some 0 else none

def isLineFeed (unit : UInt16) : Bool := unit = 10

def isCarriageReturn (unit : UInt16) : Bool := unit = 13

def isNewline (unit : UInt16) : Bool := isLineFeed unit || isCarriageReturn unit

def isBlank (unit : UInt16) : Bool := unit = 32 || unit = 9

def lastNewlineEnd (text : List UInt16) : Option ℕ :=
  match lastIndex isLineFeed text with
  | some index => some (index + 1)
  | none => (lastIndex isCarriageReturn text).map (· + 1)

/-- The loop of `indentation_width` from a width on. -/
def widthFrom : ℕ → List UInt16 → Option ℕ
  | width, [] => some width
  | width, unit :: rest =>
    if unit = 32 then widthFrom (width + 1) rest
    else if unit = 9 then widthFrom (width + (8 - width % 8)) rest
    else if isNewline unit then widthFrom width rest
    else none

def indentationWidth (text : List UInt16) : Option ℕ := widthFrom 0 text

def sourceIndentWidth (source : List UInt16) (offset : ℕ) : Except Halt ℕ := do
  let before ← range source 0 offset
  let start := (lastIndex isNewline before).elim 0 (· + 1)
  let line ← range source start offset
  demand (indentationWidth (line.takeWhile isBlank)) (.panicked "line indentation is whitespace")

/-! ### Tokens in their context -/

def tokenAt (tokens : List Token) (index : ℕ) : Except Halt Token :=
  demand tokens[index]? (.panicked "index out of bounds")

/-- The loop of `delimiter_openings` over the tokens from an index on. -/
def delimiterOpeningsFrom (source : List UInt16) : ℕ → List Token → List ℕ → List ℕ → List ℕ
  | _, [], _, positions => positions
  | index, token :: rest, pending, positions =>
    if isAnyText source token ["(", "[", "\x7b"] then
      delimiterOpeningsFrom source (index + 1) rest (index :: pending) positions
    else
      match isAnyText source token [")", "]", "\x7d"], pending with
      | true, opening :: pending =>
        delimiterOpeningsFrom source (index + 1) rest pending (positions.set index (opening + 1))
      | _, _ => delimiterOpeningsFrom source (index + 1) rest pending positions

def delimiterOpenings (source : List UInt16) (tokens : List Token) : List ℕ :=
  delimiterOpeningsFrom source 0 tokens [] (List.replicate tokens.length 0)

/-- The loop of `is_annotation_colon` over qualifiers and constructors before a pattern. -/
def skipQualifiers (source : List UInt16) (tokens : List Token) : ℕ → Except Halt ℕ
  | 0 => .ok 0
  | 1 => do
    let token ← tokenAt tokens 0
    if isAnyText source token ["!", "?", "&", "~", "^", "-"] then .ok 0 else .ok 1
  | start + 2 => do
    let token ← tokenAt tokens (start + 1)
    if isAnyText source token ["!", "?", "&", "~", "^", "-"] then skipQualifiers source tokens (start + 1)
    else if kind token = some "TYPE_IDENT" then do
      let hash ← tokenAt tokens start
      if isText source hash "#" then skipQualifiers source tokens start else .ok (start + 2)
    else .ok (start + 2)

/-- The start of the pattern before the colon in `is_annotation_colon`, if there is one. -/
def patternStart (source : List UInt16) (tokens : List Token) (openings : List ℕ) (last : ℕ) : Except Halt (Option ℕ) := do
  let token ← tokenAt tokens last
  if isAnyText source token [")", "]", "\x7d"] then
    match ← demand openings[last]? (.panicked "index out of bounds") with
    | 0 => .ok none
    | opening + 1 => .ok (some opening)
  else
    match kind token with
    | some "IDENT" | some "TYPE_IDENT" | some "INTEGER" | some "FLOAT" | some "TEXT" => .ok (some last)
    | _ => .ok none

/-- The `#` of a tag before the pattern. -/
def skipTag (source : List UInt16) (tokens : List Token) : ℕ → Except Halt ℕ
  | 0 => .ok 0
  | start + 1 => do
    let token ← tokenAt tokens start
    if isText source token "#" then .ok start else .ok (start + 1)

/-- What stands before the pattern in `is_annotation_colon` introduces a binding. -/
def introducesBinding (source : List UInt16) (tokens : List Token) : ℕ → Except Halt Bool
  | 0 => .ok false
  | start + 1 => do
    let token ← tokenAt tokens start
    if isAnyText source token ["let", "const", "use", "(", ","] then .ok true
    else
      match start with
      | 0 => .ok false
      | start + 1 =>
        if isText source token "rec" then do
          let token ← tokenAt tokens start
          .ok (isAnyText source token ["let", "const"])
        else .ok false

def isAnnotationColon (source : List UInt16) (tokens : List Token) (openings : List ℕ) : ℕ → Except Halt Bool
  | 0 => .ok false
  | index + 1 => do
    let token ← tokenAt tokens (index + 1)
    if !isText source token ":" then .ok false
    else
      match ← patternStart source tokens openings index with
      | none => .ok false
      | some start => do
        let start ← skipTag source tokens start
        let start ← skipQualifiers source tokens start
        introducesBinding source tokens start

def opensSuite (source : List UInt16) (token : Token) : Bool :=
  isAnyText source token ["=", "=>", "<-", "of", ":"] || kind token = some "OPERATOR" && isText source token ":"

def closesLayoutExpression (source : List UInt16) (token : Token) : Bool :=
  isAnyText source token [";", ")", "]", "\x7d", ",", "else"] || kind token = some "ELSE_IF"

/-- The first token after the brace of a record decides whether it has fields, and their indentation. -/
def decideRecord (source : List UInt16) (token : Token) (record : RecordLayout) : Except Halt RecordLayout := do
  let fieldStarted := isText source token "." || isText source token "..."
  let record := { record with decided := true, fieldStarted := fieldStarted }
  if fieldStarted then do
    let gap ← range source record.openingEnd token.start
    if gap.any isLineFeed then do
      let width ← sourceIndentWidth source token.start
      .ok { record with fieldIndent := some width }
    else .ok record
  else .ok record

/-- The first part of `update_delimiters`. -/
def decideRecords (source : List UInt16) (token : Token) (delimiters : Delimiters) : Except Halt Delimiters :=
  match delimiters.records with
  | record :: records =>
    if record.depth = delimiters.brackets ∧ record.decided = false then do
      let record ← decideRecord source token record
      .ok { delimiters with records := record :: records }
    else .ok delimiters
  | [] => .ok delimiters

/-- The second part of `update_delimiters`. -/
def countDelimiter (source : List UInt16) (token : Token) (delimiters : Delimiters) : Delimiters :=
  if isAnyText source token ["(", "[", "\x7b"] then
    let brackets := delimiters.brackets + 1
    if isText source token "\x7b" then ⟨brackets, ⟨brackets, token.stop, none, false, false⟩ :: delimiters.records⟩
    else { delimiters with brackets := brackets }
  else if isAnyText source token [")", "]", "\x7d"] then
    let records :=
      match delimiters.records with
      | record :: records => if record.depth = delimiters.brackets then records else record :: records
      | [] => []
    ⟨delimiters.brackets - 1, records⟩
  else delimiters

def updateDelimiters (source : List UInt16) (delimiters : Delimiters) (token : Token) : Except Halt Delimiters := do
  let delimiters ← decideRecords source token delimiters
  .ok (countDelimiter source token delimiters)

def recordSeparator (source : List UInt16) (delimiters : Delimiters) (previous token : Token) : Except Halt Bool :=
  match delimiters.records with
  | [] => .ok false
  | record :: _ =>
    if record.depth ≠ delimiters.brackets ∨ record.fieldStarted = false ∨ isText source previous ";" = true then .ok false
    else if isText source token "\x7d" then .ok true
    else if isText source token "." || isText source token "..." then do
      let width ← sourceIndentWidth source token.start
      .ok (record.fieldIndent = some width)
    else .ok false

/-! ### Insertions -/

/-- What the elaborated source has at a position, with the offset that follows it. -/
abbrev Piece := UInt16 × ℕ

/-- The units of the source from `cursor` on. -/
def keptFrom : ℕ → List UInt16 → List Piece
  | _, [] => []
  | cursor, unit :: rest => (unit, u32 (cursor + 1)) :: keptFrom (cursor + 1) rest

/-- The loop of `apply_insertions`; `elaborated` and `original_offsets` grow together. -/
def insertFrom (source : List UInt16) : ℕ → List (ℕ × List UInt16) → Except Halt (List Piece)
  | cursor, [] => do
    let rest ← range source cursor source.length
    .ok (keptFrom cursor rest)
  | cursor, (offset, text) :: insertions =>
    if cursor ≤ offset then do
      let chunk ← range source cursor offset
      let rest ← insertFrom source offset insertions
      .ok (keptFrom cursor chunk ++ text.map (fun unit => (unit, u32 offset)) ++ rest)
    else .error (.panicked "layout insertions are not ordered")

def applyInsertions (source : List UInt16) (insertions : List (ℕ × List UInt16)) : Except Halt LayoutSource := do
  let pieces ← insertFrom source 0 insertions
  .ok ⟨pieces.map (·.1), 0 :: pieces.map (·.2), []⟩

def identity (source : List UInt16) : LayoutSource := ⟨source, (List.range (source.length + 1)).map u32, []⟩

/-! ### The elaborator -/

/-- The state of the loop of `elaborate`. -/
structure Progress where
  insertions : List (ℕ × List UInt16)
  frames : Frames
  delimiters : Delimiters
  previous : Token
  declarationStart : ℕ
  continuationHints : List (ℕ × Diagnostic)

def continuationHint (source : List UInt16) (previous token : Token) : Option (Token × String) :=
  if isText source previous "=>" && !isText source token "do" then
    some (previous, "A multiline lambda body needs an explicit `do:` block after `=>`, with `return` for its result.")
  else if isText source token "|" then
    some (token, "Enclose a union that continues on another line in parentheses: `(#First Int | #Second Text)`.")
  else none

/-- The loop that closes the suites that a line leaves: the structural indentation, the markers and the frames. -/
def closeSuites (indent : ℕ) : LayoutFrame → List LayoutFrame → Option ℕ → ℕ → List UInt16 →
    Option ℕ × List UInt16 × Frames
  | top, [], structural, _, markers => (structural, markers, ⟨top, []⟩)
  | top, next :: below, structural, closed, markers =>
    if indent < top.indent then
      let markers := if 0 < closed then markers ++ [layoutNewline] else markers
      closeSuites indent next below (some top.closeIndent) (closed + 1) (markers ++ [layoutDedent])
    else (structural, markers, ⟨top, next :: below⟩)

def inconsistentIndent (indent : ℕ) (frames : Frames) (structural : Option ℕ) (start stop : ℕ) : Diagnostic :=
  let widths := ", ".intercalate (frames.all.reverse.map fun active => toString active.indent)
  let structural := (structural.map toString).getD "none"
  ⟨"BLOT_INCONSISTENT_INDENT",
    s!"Indentation width {indent} does not match active suite widths {widths} or structural width {structural}.",
    ⟨u32 start, u32 stop⟩⟩

section Loop

variable (source : List UInt16) (tokens : List Token)

/-- The indentation of the line that a token starts, from the end of the newline in the gap before it. -/
def lineIndent (lineStart : ℕ) (token : Token) : Except Halt ℕ := do
  let text ← range source lineStart token.start
  demand (indentationWidth text) (.panicked "Baba left non-trivia text in indentation")

def suiteIntroducer (openings : List ℕ) (index : ℕ) (previous : Token) : Except Halt Bool :=
  if opensSuite source previous then do
    let annotation ← isAnnotationColon source tokens openings (index - 1)
    .ok (! annotation)
  else .ok false

def layoutActive (progress : Progress) (introducer : Bool) : Bool :=
  (progress.frames.below ≠ [] && progress.delimiters.brackets = progress.frames.top.brackets) ||
    progress.delimiters.brackets = 0 || introducer

def follow (token : Token) (progress : Progress) : Except Halt Progress := do
  let delimiters ← updateDelimiters source progress.delimiters token
  .ok { progress with delimiters := delimiters, previous := token }

def addHint (token : Token) (progress : Progress) : Progress :=
  match continuationHint source progress.previous token with
  | none => progress
  | some (at_, message) =>
    { progress with continuationHints := progress.continuationHints ++
        [(progress.declarationStart, ⟨"GPU_FRONTEND_SYNTAX_ERROR", message, ⟨u32 at_.start, u32 at_.stop⟩⟩)] }

/-- What the loop does at a token that starts a line where layout is active: the frames and the markers, or nothing
for a line that continues. -/
def lineMarkers (progress : Progress) (token : Token) (introducer separator : Bool) (lineStart indent : ℕ) :
    Except Halt (Option (Frames × List UInt16)) :=
  let current := progress.frames.top.indent
  let closesDelimiter := isText source token ")" || isText source token "]" || isText source token "\x7d"
  let separated := fun markers : List UInt16 => if separator then markers ++ units ";" else markers
  if current < indent then
    if introducer then do
      let closeIndent ← sourceIndentWidth source progress.previous.start
      .ok (some (⟨⟨indent, closeIndent, progress.delimiters.brackets⟩, progress.frames.all⟩,
        separated [layoutNewline, layoutIndent]))
    else .ok none
  else if indent < current then
    let (structural, markers, frames) :=
      closeSuites indent progress.frames.top progress.frames.below none 0 [layoutNewline]
    if indent ≠ frames.top.indent ∧ some indent ≠ structural ∧ closesDelimiter = false then
      .error (.refused [inconsistentIndent indent frames structural lineStart token.start])
    else
      let markers := if !separator && !closesLayoutExpression source token then markers ++ [layoutNewline] else markers
      .ok (some (frames, separated markers))
  else .ok (some (progress.frames, separated [layoutNewline]))

def separatorAt (progress : Progress) (token : Token) (newline : Option ℕ) : Except Halt Bool :=
  if newline.isSome then recordSeparator source progress.delimiters progress.previous token else .ok false

def noteDeclaration (active : Bool) (token : Token) (progress : Progress) : Progress :=
  if active && (isText source token "const" || isText source token "let") then
    { progress with declarationStart := u32 token.start }
  else progress

/-- A round for a token that starts a line where layout is active; `newline` is the end of the newline in the gap. -/
def elaborateLine (token : Token) (progress : Progress) (introducer separator : Bool) (newline : ℕ) :
    Except Halt Progress := do
  let lineStart := progress.previous.stop + newline
  let indent ← lineIndent source lineStart token
  match ← lineMarkers source progress token introducer separator lineStart indent with
  | none => follow source token progress
  | some (frames, markers) =>
    follow source token
      { progress with frames := frames, insertions := progress.insertions ++ [(token.start, markers)] }

def elaborateInline (token : Token) (progress : Progress) (separator : Bool) : Except Halt Progress :=
  follow source token
    (if separator then { progress with insertions := progress.insertions ++ [(token.start, units ";")] } else progress)

/-- One round of the loop of `elaborate`. -/
def elaborateToken (openings : List ℕ) (index : ℕ) (token : Token) (progress : Progress) : Except Halt Progress := do
  let gap ← range source progress.previous.stop token.start
  let separator ← separatorAt source progress token (lastNewlineEnd gap)
  let introducer ← suiteIntroducer source tokens openings index progress.previous
  let active := layoutActive progress introducer
  let progress := noteDeclaration source active token progress
  match active, lastNewlineEnd gap with
  | true, some newline => elaborateLine source token (addHint source token progress) introducer separator newline
  | _, _ => elaborateInline source token progress separator

/-- The loop of `elaborate` over the tokens from an index on. -/
def elaborateFrom (openings : List ℕ) : ℕ → List Token → Progress → Except Halt Progress
  | _, [], progress => .ok progress
  | index, token :: rest, progress => do
    let progress ← elaborateToken source tokens openings index token progress
    elaborateFrom openings (index + 1) rest progress

/-- The closing sweep of `elaborate`. -/
def closing : List LayoutFrame → List UInt16
  | [] => []
  | _ :: below => layoutDedent :: layoutNewline :: closing below

/-- The state in which the loop of `elaborate` starts, after the first token. -/
def start (first : Token) : Except Halt Progress :=
  follow source first ⟨[], ⟨⟨0, 0, 0⟩, []⟩, ⟨0, []⟩, first, u32 first.start, []⟩

end Loop

def reserved (source : List UInt16) : Option ℕ :=
  [layoutNewline, layoutIndent, layoutDedent].findSome? fun marker => source.findIdx? (· = marker)

def lexSource (plan : FrontendPlan) (source : List UInt16) : Except Halt (List Token) :=
  match lexFrom plan source 0 0 with
  | (tokens, []) => .ok tokens
  | (_, diagnostics) => .error (.refused (sortDiagnostics diagnostics))

def elaborate (plan : FrontendPlan) (source : Source) : Except Halt LayoutSource :=
  match reserved source.units with
  | some offset => .error (.refused [⟨"BLOT_RESERVED_LAYOUT_CHARACTER",
      "Source contains a character reserved for layout elaboration.", ⟨u32 offset, u32 (offset + 1)⟩⟩])
  | none => do
    let allTokens ← lexSource plan source.units
    match syntaxTokens allTokens with
    | [] => .ok (identity source.units)
    | first :: rest => do
      let tokens := first :: rest
      let openings := delimiterOpenings source.units tokens
      let progress ← start source.units first
      let progress ← elaborateFrom source.units tokens openings 1 rest progress
      let closing := layoutNewline :: closing progress.frames.below
      let layout ← applyInsertions source.units (progress.insertions ++ [(progress.previous.stop, closing)])
      .ok { layout with continuationHints := progress.continuationHints }

end Blot.Layout
