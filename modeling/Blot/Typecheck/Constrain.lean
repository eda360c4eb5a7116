import Blot.Typecheck.Copy

/-!
# Constraint solving (`typecheck.rs`)

`constrainIds` runs a queue of work items.  An item over two structural types is taken apart by `decompose`; an item
over a variable inserts a bound and walks the variable edges (`addBound`); a union tries its
members one by one, each in a speculation that `canConstrainWith` undoes when it fails.

`fuel` bounds the depth of the speculations, the length of a queue's run and the walks.
-/

namespace Blot.Typecheck

open Blot.Support Checker

/-! ### Structural pairs -/

mutual
/-- `admits_omission`: a record field of this type may be missing. -/
def admitsOmission : Ty → Bool
  | .unit => true
  | .forallType _ body => admitsOmission body
  | .union members => anyAdmitsOmission members
  | _ => false
def anyAdmitsOmission : List Ty → Bool
  | [] => false
  | t :: rest => admitsOmission t || anyAdmitsOmission rest
end

/-- The obligations of `left ≤ right` for two records, field by field of the right one. -/
def decomposeRecord (left : Ty) (leftFields : List (String × Ty)) :
    List (String × Ty) → Except (List Ty) (List (Ty × Ty))
  | [] => .ok []
  | (name, rightField) :: rest =>
    match rowGet leftFields name with
    | none =>
      if admitsOmission rightField then decomposeRecord left leftFields rest
      else .error [left, .record [(name, rightField)]]
    | some leftField =>
      match decomposeRecord left leftFields rest with
      | .ok items => .ok ((leftField, rightField) :: items)
      | .error e => .error e

/-- The obligations of a record update below a record: an updated field is compared, another is asked of the base. -/
def decomposeUpdate (base : Ty) (fields : List (String × Ty)) (right : List (String × Ty)) : List (Ty × Ty) :=
  right.map fun (name, rightField) =>
    match rowGet fields name with
    | some updated => (updated, rightField)
    | none => (base, .record [(name, rightField)])

/-- The obligations between the fields of two record updates; `none` when a left field is missing on the right. -/
def decomposeUpdates (right : List (String × Ty)) : List (String × Ty) → Option (List (Ty × Ty))
  | [] => some []
  | (name, leftField) :: rest =>
    match rowGet right name, decomposeUpdates right rest with
    | some rightField, some items => some ((leftField, rightField) :: items)
    | _, _ => none

def decomposeCases (left right : List (String × Ty)) : List (Ty × Ty) :=
  left.filterMap fun (name, leftCase) => (rowGet right name).map fun rightCase => (leftCase, rightCase)

/-- The structural arms of `constrain_work_item`: the obligations pushed onto the work queue, or the types named in
the type error.  `isEmpty` tells the elements of empty arrays. -/
def decompose (isEmpty : ℕ → Bool) (left right : Ty) : Except (List Ty) (List (Ty × Ty)) :=
  match left, right with
  | .unit, .unit => .ok []
  | .range d l h, .range d' l' h' =>
    if d = d' ∧ lowerWithin l l' = true ∧ upperWithin h h' = true then .ok [] else .error [left, right]
  | .function d p e r, .function d' p' e' r' =>
    if d ≠ d' then .error [left, right] else .ok [(p', p), (e, e'), (r, r')]
  | .record fs, .record gs => decomposeRecord left fs gs
  | .recordUpdate base fs, .record gs => .ok (decomposeUpdate base fs gs)
  | .recordUpdate base fs, .recordUpdate base' gs =>
    if fs.length ≠ gs.length then .error [left, right]
    else match decomposeUpdates gs fs with
      | some items => .ok ((base, base') :: items)
      | none => .error [left, right]
  | .array a, .array b =>
    match a with
    | .var v => if isEmpty v then .ok [(a, b), (b, a)] else .ok [(a, b)]
    | _ => .ok [(a, b)]
  | .region a, .region b => .ok [(a, b), (b, a)]
  | .scratch a, .scratch b => .ok [(a, b), (b, a)]
  | .resource f a, .resource g b => if f = g then .ok [(a, b), (b, a)] else .error [left, right]
  | .variant fs isOpen, .variant gs isOpen' =>
    if !isOpen' && (isOpen || fs.any fun p => (rowGet gs p.1).isNone) then .error [left, right]
    else .ok (decomposeCases fs gs)
  | .effects l, .effects m => if l ⊆ m then .ok [] else .error [left, right]
  | .effects l, .rigid _ => if l = ∅ then .ok [] else .error [left, right]
  | .rigid _, .openEffects _ tail => .ok [(left, tail)]
  | .effects l, .openEffects m tail => .ok [(.effects (l \ m), tail)]
  | .openEffects l tail, .effects m => if l ⊆ m then .ok [(tail, .effects m)] else .error [left, right]
  | .openEffects l tail, .openEffects m tail' =>
    .ok ((if l \ m = ∅ then [] else [(.effects (l \ m), tail')]) ++
      if Ty.same tail tail' then [] else [(tail, .openEffects m tail')])
  | .opaqueType a, .opaqueType b => if a = b then .ok [] else .error [left, right]
  | .rigid a, .rigid b => if a = b then .ok [] else .error [left, right]
  | _, _ => .error [left, right]

def typeError {α : Type} (about : List Ty) (span : Span) : Solve α :=
  Attempt.stop (.diagnostic ⟨"BLOT_TYPE_ERROR", about, span⟩)

/-! ### Bounds -/

/-- Whether a type is a variable (`constraint_variable`). -/
def Ty.asVar : Ty → Option ℕ
  | .var id => some id
  | _ => none

/-- The variables among the bounds, as pushed onto a stack: the last one is on top. -/
def neighbours (bounds : List Ty) : List ℕ := (bounds.filterMap Ty.asVar).reverse

def structural (bounds : List Ty) : List Ty := bounds.filter fun t => t.asVar.isNone

def orient (direction : BoundDirection) (other bound : Ty) (span : Span) : WorkItem :=
  match direction with
  | .upper => ⟨other, bound, span⟩
  | .lower => ⟨bound, other, span⟩

/-- Inserts `bound` at a variable and at every variable its walk reaches, and queues its obligations against their
structural bounds on the other side.  `pending` is the stack of the walk, its top first. -/
def addBound (direction : BoundDirection) (bound : Ty) (span : Span) :
    ℕ → List ℕ → Finset ℕ → List WorkItem → Solve (List WorkItem)
  | 0, _, _, _ => Attempt.stop .fuel
  | _ + 1, [], _, work => pure work
  | fuel + 1, id :: pending, visited, work =>
    if id ∈ visited then addBound direction bound span fuel pending visited work
    else do
      let s ← Attempt.get
      if containsConstraint (s.bounds id direction) bound then
        addBound direction bound span fuel pending (insert id visited) work
      else do
        Attempt.modify (·.insertBound id direction bound)
        let others := s.bounds id direction.opposite
        addBound direction bound span fuel (neighbours others ++ pending) (insert id visited)
          (work ++ (structural others).map fun other => orient direction other bound span)

/-- `add_upper_bound`: above a variable and above every variable below it. -/
def addUpperBound (fuel id : ℕ) (bound : Ty) (span : Span) (work : List WorkItem) : Solve (List WorkItem) :=
  addBound .upper bound span fuel [id] ∅ work

/-- `add_lower_bound`: below a variable and below every variable above it. -/
def addLowerBound (fuel id : ℕ) (bound : Ty) (span : Span) (work : List WorkItem) : Solve (List WorkItem) :=
  addBound .lower bound span fuel [id] ∅ work

/-- Adds each of `bounds` with `add`. -/
def addEach (add : Ty → List WorkItem → Solve (List WorkItem)) : List Ty → List WorkItem → Solve (List WorkItem)
  | [], work => pure work
  | bound :: rest, work => do
    let work ← add bound work
    addEach add rest work

/-! ### Work items -/

/-- What one work item leaves: the ordered pairs of variables seen and the queue. -/
abbrev Queue := Finset (ℕ × ℕ) × List WorkItem

section Item

variable (lookup : MemberLookup) (fuel : ℕ) (can : Ty → Ty → Span → Solve Bool)

/-- The variable-variable arm of `constrain_work_item`. -/
def constrainVariables (left right : ℕ) (span : Span) (seen : Finset (ℕ × ℕ)) (work : List WorkItem) :
    Solve Queue :=
  if left = right ∨ (left, right) ∈ seen then pure (seen, work)
  else do
    let seen := insert (left, right) seen
    let s ← Attempt.get
    if containsConstraint (s.bounds left .upper) (.var right) then return (seen, work)
    Attempt.modify fun s => (s.pushBound left .upper (.var right)).pushBound right .lower (.var left)
    let s ← Attempt.get
    let lowers := structural (s.bounds left .lower)
    let uppers := structural (s.bounds right .upper)
    Attempt.modify fun s => (s.recordBoundInsertion left .upper).recordBoundInsertion right .lower
    let work ← addEach (fun bound => addLowerBound fuel right bound span) lowers work
    let work ← addEach (fun bound => addUpperBound fuel left bound span) uppers work
    return (seen, work)

/-- A structural bound of a variable: it is added when it is no deeper than the variable, and extruded otherwise. -/
def constrainBound (direction : BoundDirection) (add : Ty → List WorkItem → Solve (List WorkItem)) (id : ℕ)
    (bound : Ty) (span : Span) (work : List WorkItem) : Solve (List WorkItem) := do
  let s ← Attempt.get
  if s.levelOf bound ≤ s.levelOfVar id then add bound work
  else do
    let (extruded, _) ← extrude fuel (direction = .lower) (s.levelOfVar id) bound []
    return work ++ [orient direction (.var id) extruded span]

/-- The arm of `constrain_work_item` for a variable below a structural type. -/
def constrainAbove (id : ℕ) (right : Ty) (span : Span) (work : List WorkItem) : Solve (List WorkItem) :=
  constrainBound fuel .upper (fun bound => addUpperBound fuel id bound span) id right span work

/-- The arm of `constrain_work_item` for a structural type below a variable. -/
def constrainBelow (left : Ty) (id : ℕ) (span : Span) (work : List WorkItem) : Solve (List WorkItem) :=
  constrainBound fuel .lower (fun bound => addLowerBound fuel id bound span) id left span work

/-- The arms of `constrain_work_item` for two structural types without a quantifier at their head. -/
def constrainStructural (left right : Ty) (span : Span) (work : List WorkItem) : Solve (List WorkItem) := do
  let s ← Attempt.get
  match decompose (fun v => v ∈ s.emptyArrayElements) left right with
  | .ok items => return work ++ items.map fun (l, r) => ⟨l, r, span⟩
  | .error about => typeError about span

/-- The arms of `constrain_work_item` behind the qualified, the trivial and the quantified types.  The structural arms
name no variable and no union, so the variables and the unions may be looked at first. -/
def constrainUnquantified (left right : Ty) (span : Span) (seen : Finset (ℕ × ℕ)) (work : List WorkItem) :
    Solve Queue :=
  match left with
  | .var l =>
    match right with
    | .var r => constrainVariables fuel l r span seen work
    | right => do
      let work ← constrainAbove fuel l right span work
      return (seen, work)
  | .union members =>
    match right with
    | .var r => do
      let work ← constrainBelow fuel left r span work
      return (seen, work)
    | right => do
      if ← members.allM fun member => can member right span then return (seen, work)
      typeError [left, right] span
  | left =>
    match right with
    | .var r => do
      let work ← constrainBelow fuel left r span work
      return (seen, work)
    | .union members => do
      if ← members.anyM fun member => can left member span then return (seen, work)
      typeError [left, right] span
    | right => do
      let work ← constrainStructural left right span work
      return (seen, work)

def constrainWorkItem (item : WorkItem) (seen : Finset (ℕ × ℕ)) (work : List WorkItem) : Solve Queue :=
  let ⟨left, right, span⟩ := item
  if Ty.same left right then pure (seen, work)
  else match left with
  | .qualified rs body => do
    registerAll fuel rs
    return (seen, work ++ [⟨body, right, span⟩])
  | left =>
    match right with
    | .qualified rs body => do
      registerAll fuel rs
      return (seen, work ++ [⟨left, body, span⟩])
    | .top => pure (seen, work)
    | right =>
      match left with
      | .bottom => pure (seen, work)
      | .forallType vs body => do
        let instantiated ← instantiateForall fuel vs body
        return (seen, work ++ [⟨instantiated, right, span⟩])
      | left =>
        match right with
        | .forallType vs body => do
          let rigid ← skolemize vs body
          return (seen, work ++ [⟨left, rigid, span⟩])
        | right => constrainUnquantified fuel can left right span seen work

/-- The loop of `constrain_ids`: the queue, and when it is empty the member obligations that became ready. -/
def constrainLoop (step : WorkItem → Finset (ℕ × ℕ) → List WorkItem → Solve Queue) (span : Span) :
    ℕ → Finset (ℕ × ℕ) → List WorkItem → Solve Unit
  | 0, _, _ => Attempt.stop .fuel
  | n + 1, seen, item :: work => do
    let (seen, work) ← step item seen work
    constrainLoop step span n seen work
  | n + 1, seen, [] => do
    let ready ← takeReadyMemberConstraints lookup span n
    match ready with
    | [] => return ()
    | item :: work => constrainLoop step span n seen (item :: work)

end Item

/-- `can_constrain_ids` over a solver: a failed attempt is undone; running out of fuel is not a failure. -/
def canConstrainWith (constrain : Ty → Ty → Span → Solve Unit) (left right : Ty) (span : Span) : Solve Bool :=
  fun s =>
    match constrain left right span s with
    | (.ok (), s') => (.ok true, s')
    | (.error .fuel, s') => (.error .fuel, s')
    | (.error (.diagnostic _), s') =>
      (.ok false,
        { s'.rollbackBounds s.boundInsertions.length s.arena.length s.nextSkolem with
          memberConstraints := s.memberConstraints })

def constrainIds (lookup : MemberLookup) : ℕ → Ty → Ty → Span → Solve Unit
  | 0, _, _, _ => Attempt.stop .fuel
  | fuel + 1, left, right, span =>
    constrainLoop lookup (constrainWorkItem fuel (canConstrainWith (constrainIds lookup fuel))) span (fuel + 1) ∅
      [⟨left, right, span⟩]

def canConstrainIds (lookup : MemberLookup) (fuel : ℕ) (left right : Ty) (span : Span) : Solve Bool :=
  canConstrainWith (constrainIds lookup fuel) left right span

/-- `constrain`: the journal ends with the call. -/
def constrain (lookup : MemberLookup) (fuel : ℕ) (left right : Ty) (span : Span) : Solve Unit := fun s =>
  match constrainIds lookup fuel left right span s with
  | (result, s') => (result, { s' with boundInsertions := [] })

/-! ### Numeric literals -/

structure NumericLiteralCandidate where
  lower : Ty
  upper : Ty
  representation : Ty
  deriving DecidableEq

def numericLiteralCandidates : NumericLiteralKind → List NumericLiteralCandidate
  | .integer value =>
    [⟨.range .int (some (.int value)) (some (.int value)), intType, intType⟩,
      ⟨floatType, floatType, floatType⟩, ⟨float32Type, float32Type, float32Type⟩]
  | .float => [⟨floatType, floatType, floatType⟩, ⟨float32Type, float32Type, float32Type⟩]

def constrainNumericLiteralCandidate (lookup : MemberLookup) (fuel id : ℕ) (candidate : NumericLiteralCandidate)
    (span : Span) : Solve Unit := do
  constrainIds lookup fuel candidate.lower (.var id) span
  constrainIds lookup fuel (.var id) candidate.upper span

/-- `numeric_literal_candidate_fits`: the attempt is undone whatever its result. -/
def numericLiteralCandidateFits (lookup : MemberLookup) (fuel id : ℕ) (candidate : NumericLiteralCandidate)
    (span : Span) : Solve Unit := fun s =>
  match constrainNumericLiteralCandidate lookup fuel id candidate span s with
  | (.error .fuel, s') => (.error .fuel, s')
  | (result, s') =>
    (result,
      { s'.rollbackBounds s.boundInsertions.length s.arena.length s.nextSkolem with
        memberConstraints := s.memberConstraints })

/-- What the candidates of a literal came to: one was selected, several fit, or none did (with the first error). -/
inductive CandidateChoice where
  | selected (candidate : NumericLiteralCandidate)
  | ambiguous
  | failed (error : Option Diagnostic)
  deriving DecidableEq

/-- The loop of `resolve_numeric_literals` over the candidates of one literal. -/
def chooseCandidate (lookup : MemberLookup) (fuel id : ℕ) (span : Span) (allowDefault : Bool) :
    List NumericLiteralCandidate → Option NumericLiteralCandidate → Option Diagnostic → Solve CandidateChoice
  | [], some candidate, _ => pure (.selected candidate)
  | [], none, error => pure (.failed error)
  | candidate :: rest, selected, error => fun s =>
    match numericLiteralCandidateFits lookup fuel id candidate span s with
    | (.error .fuel, s') => (.error .fuel, s')
    | (.error (.diagnostic d), s') =>
        chooseCandidate lookup fuel id span allowDefault rest selected (error <|> some d) s'
    | (.ok (), s') =>
      if selected.isSome then (.ok .ambiguous, s')
      else if allowDefault then (.ok (.selected candidate), s')
      else chooseCandidate lookup fuel id span allowDefault rest (some candidate) error s'

def removeNumericLiteral (id : ℕ) : Solve Unit :=
  Attempt.modify fun s => { s with numericLiterals := s.numericLiterals.filter (·.1 ≠ id) }

def resolveEach (lookup : MemberLookup) (fuel : ℕ) (allowDefault : Bool) : List (ℕ × NumericLiteralFact) → Solve Unit
  | [] => pure ()
  | (id, literal) :: rest => do
    let s ← Attempt.get
    if s.arena.length ≤ id then do
      removeNumericLiteral id
      resolveEach lookup fuel allowDefault rest
    else do
      match ← chooseCandidate lookup fuel id literal.span allowDefault (numericLiteralCandidates literal.kind) none none
        with
      | .ambiguous => resolveEach lookup fuel allowDefault rest
      | .failed (some d) => Attempt.stop (.diagnostic d)
      -- a literal has at least one candidate, so a failed choice has an error
      | .failed none => Attempt.stop .fuel
      | .selected candidate => do
        constrainNumericLiteralCandidate lookup fuel id candidate literal.span
        Attempt.modify fun s => { s with boundInsertions := [] }
        removeNumericLiteral id
        resolveEach lookup fuel allowDefault rest

/-- `resolve_numeric_literals`; the expression types it records are not part of the solver. -/
def resolveNumericLiterals (lookup : MemberLookup) (fuel firstVariable : ℕ) (allowDefault : Bool) : Solve Unit := do
  let s ← Attempt.get
  resolveEach lookup fuel allowDefault (s.numericLiterals.filter (firstVariable ≤ ·.1))

end Blot.Typecheck
