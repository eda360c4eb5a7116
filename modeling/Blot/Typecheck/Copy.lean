import Blot.Typecheck.Checker

/-!
# Copying types: extrusion, freshening and instantiation

The functions of the solver that rebuild a type while they allocate variables.  They share one traversal of a
type's children, `mapChildren`, which threads the memo of the source (`copies` or `fresh`) through them.  Each takes
`fuel` for the recursion through the bounds of variables.
-/

namespace Blot.Typecheck

open Blot.Support Checker

abbrev Copies := List (ℕ × ℕ)

section Children

variable {κ : Type}

def mapRow (f : Ty → κ → Solve (Ty × κ)) : List (String × Ty) → κ → Solve (List (String × Ty) × κ)
  | [], k => pure ([], k)
  | (name, t) :: rest, k => do
    let (t, k) ← f t k
    let (rest, k) ← mapRow f rest k
    return ((name, t) :: rest, k)

def mapTypes (f : Ty → κ → Solve (Ty × κ)) : List Ty → κ → Solve (List Ty × κ)
  | [], k => pure ([], k)
  | t :: rest, k => do
    let (t, k) ← f t k
    let (rest, k) ← mapTypes f rest k
    return (t :: rest, k)

def mapRequirements (f : Ty → κ → Solve (Ty × κ)) :
    List (MemberRequirement Ty) → κ → Solve (List (MemberRequirement Ty) × κ)
  | [], k => pure ([], k)
  | r :: rest, k => do
    let (subject, k) ← f r.subject k
    let (member, k) ← f r.member k
    let (rest, k) ← mapRequirements f rest k
    return (⟨r.name, subject, member⟩ :: rest, k)

/-- `map_type_children`: rebuilds the immediate children; `f` is told which child is a function's parameter. -/
def mapChildren (f : Bool → Ty → κ → Solve (Ty × κ)) : Ty → κ → Solve (Ty × κ)
  | .forallType vs body, k => do
    let (body, k) ← f false body k
    return (.forallType vs body, k)
  | .qualified rs body, k => do
    let (rs, k) ← mapRequirements (f false) rs k
    let (body, k) ← f false body k
    return (.qualified rs body, k)
  | .function deferred parameter effects result, k => do
    let (parameter, k) ← f true parameter k
    let (effects, k) ← f false effects k
    let (result, k) ← f false result k
    return (.function deferred parameter effects result, k)
  | .record fields, k => do
    let (fields, k) ← mapRow (f false) fields k
    return (.record fields, k)
  | .recordUpdate base fields, k => do
    let (base, k) ← f false base k
    let (fields, k) ← mapRow (f false) fields k
    return (.recordUpdate base fields, k)
  | .array element, k => do
    let (element, k) ← f false element k
    return (.array element, k)
  | .region element, k => do
    let (element, k) ← f false element k
    return (.region element, k)
  | .scratch element, k => do
    let (element, k) ← f false element k
    return (.scratch element, k)
  | .resource family payload, k => do
    let (payload, k) ← f false payload k
    return (.resource family payload, k)
  | .variant entries isOpen, k => do
    let (entries, k) ← mapRow (f false) entries k
    return (.variant entries isOpen, k)
  | .openEffects labels tail, k => do
    let (tail, k) ← f false tail k
    return (.openEffects labels tail, k)
  | .union members, k => do
    let (members, k) ← mapTypes (f false) members k
    return (.union members, k)
  | t, k => pure (t, k)

end Children

/-! ### Extrusion -/

/-- Copies `bounds` one by one onto the variable `copy`, journalling each. -/
def extrudeBounds (f : Ty → Copies → Solve (Ty × Copies)) (copy : ℕ) (direction : BoundDirection) :
    List Ty → Copies → Solve Copies
  | [], copies => pure copies
  | bound :: rest, copies => do
    let (bound, copies) ← f bound copies
    Attempt.modify (·.insertBound copy direction bound)
    extrudeBounds f copy direction rest copies

/-- Marks `copy` as an empty array's element when `source` is one. -/
def copyEmptyMark (source copy : ℕ) : Solve Unit :=
  Attempt.modify fun s => if source ∈ s.emptyArrayElements then s.markEmpty copy else s

/-- `fresh` with the current level set to `level` for the call. -/
def freshAt (level : ℕ) : Solve ℕ := fun s => (.ok s.arena.length, s.allocate level)

/-- `extrude`: copies the part of a type deeper than `level` down to it.  A positive copy lies above its variable and
takes its lower bounds, a negative copy lies below and takes the upper ones. -/
def extrude : ℕ → Bool → ℕ → Ty → Copies → Solve (Ty × Copies)
  | 0, _, _, _, _ => Attempt.stop .fuel
  | fuel + 1, polarity, level, t, copies => do
    let s ← Attempt.get
    if s.levelOf t ≤ level then return (t, copies)
    match t with
    | .var id =>
      match copies.lookup id with
      | some copy => return (.var copy, copies)
      | none => do
        let copy ← freshAt level
        copyEmptyMark id copy
        let s ← Attempt.get
        if polarity then do
          Attempt.modify (·.insertBound id .upper (.var copy))
          let copies ← extrudeBounds (extrude fuel polarity level) copy .lower (s.bounds id .lower)
            ((id, copy) :: copies)
          return (.var copy, copies)
        else do
          Attempt.modify (·.insertBound id .lower (.var copy))
          let copies ← extrudeBounds (extrude fuel polarity level) copy .upper (s.bounds id .upper)
            ((id, copy) :: copies)
          return (.var copy, copies)
    | t => mapChildren (fun isParameter => extrude fuel (polarity != isParameter) level) t copies

/-! ### Freshening -/

def setBounds (id : ℕ) (lower upper : List Ty) : Solve Unit :=
  Attempt.modify fun s => { s with arena := s.arena.modify id fun v => { v with lower := lower, upper := upper } }

/-- `freshen_constraint`: copies the variables above `level` together with their bounds. -/
def freshen : ℕ → ℕ → Ty → Copies → Solve (Ty × Copies)
  | 0, _, _, _ => Attempt.stop .fuel
  | fuel + 1, level, .var id, copies => do
    let s ← Attempt.get
    if s.levelOfVar id ≤ level then return (.var id, copies)
    match copies.lookup id with
    | some copy => return (.var copy, copies)
    | none => do
      let copy ← fresh
      copyEmptyMark id copy
      let source := s.variableOf id
      let (lower, copies) ← mapTypes (freshen fuel level) source.lower ((id, copy) :: copies)
      let (upper, copies) ← mapTypes (freshen fuel level) source.upper copies
      setBounds copy lower upper
      return (.var copy, copies)
  | fuel + 1, level, t, copies => mapChildren (fun _ => freshen fuel level) t copies

/-! ### Member requirements -/

/-- `member_variable_ids`: the variables a type reaches through its structure and through bounds, in both
directions.  `pending` is the stack of the walk. -/
def memberVariableIds (s : Checker) : ℕ → List Ty → List Ty → Finset ℕ → Option (Finset ℕ)
  | 0, _, _, _ => none
  | _ + 1, [], _, found => some found
  | fuel + 1, t :: pending, visited, found =>
    if t ∈ visited then memberVariableIds s fuel pending visited found
    else match t with
      | .var id =>
        memberVariableIds s fuel ((s.variableOf id).lower ++ (s.variableOf id).upper ++ pending) (t :: visited)
          (insert id found)
      | t => memberVariableIds s fuel (t.children ++ pending) (t :: visited) found

def indexMemberRequirement (fuel id : ℕ) (requirement : MemberRequirement Ty) : Solve Unit := do
  let s ← Attempt.get
  match memberVariableIds s fuel [requirement.subject, requirement.member] [] ∅ with
  | none => Attempt.stop .fuel
  | some found =>
    Attempt.modify fun s =>
      { s with memberConstraints :=
        { s.memberConstraints with
          watched := fun v => if v ∈ found then insert id (s.memberConstraints.watched v)
            else s.memberConstraints.watched v } }

def registerMemberRequirement (fuel : ℕ) (requirement : MemberRequirement Ty) : Solve Unit := do
  let s ← Attempt.get
  let m := s.memberConstraints
  if requirement ∈ m.identities then return ()
  let id := m.entries.length
  Attempt.modify fun s =>
    { s with memberConstraints :=
      { s.memberConstraints with
        identities := m.identities ++ [requirement]
        entries := m.entries ++ [⟨requirement, false⟩]
        queued := insert id m.queued } }
  indexMemberRequirement fuel id requirement

def registerAll (fuel : ℕ) : List (MemberRequirement Ty) → Solve Unit
  | [] => pure ()
  | r :: rest => do
    registerMemberRequirement fuel r
    registerAll fuel rest

def activateQualifiedType : ℕ → Ty → Solve Ty
  | 0, _ => Attempt.stop .fuel
  | _ + 1, .forallType vs body => return .forallType vs body
  | fuel + 1, .qualified rs body => do
    registerAll fuel rs
    activateQualifiedType fuel body
  | fuel + 1, t => do
    let (t, _) ← mapChildren (fun _ child (k : Unit) => do
      let child ← activateQualifiedType fuel child
      return (child, k)) t ()
    return t

/-- `instantiate` of a scheme generalised at `level` -/
def instantiate (fuel level : ℕ) (body : Ty) : Solve Ty := do
  let (body, _) ← freshen fuel level body []
  activateQualifiedType fuel body

def freshBinders : List ℕ → Solve (List (ℕ × Ty))
  | [] => pure []
  | v :: rest => do
    let id ← fresh
    let rest ← freshBinders rest
    return (v, .var id) :: rest

def instantiateForall (fuel : ℕ) (binders : List ℕ) (body : Ty) : Solve Ty := do
  let replacements ← freshBinders binders
  activateQualifiedType fuel (Ty.substituteRigid replacements body)

def freshRigids : List ℕ → Solve (List (ℕ × Ty))
  | [] => pure []
  | v :: rest => do
    let s ← Attempt.get
    Attempt.modify fun s => { s with nextSkolem := s.nextSkolem + 1 }
    let rest ← freshRigids rest
    return (v, .rigid s.nextSkolem) :: rest

def skolemize (binders : List ℕ) (body : Ty) : Solve Ty := do
  let replacements ← freshRigids binders
  return Ty.substituteRigid replacements body

/-! ### Attached members -/

/-- The checked type of an attached member: the variables and rigids that reading it allocates, each variable with
its empty-array mark, and the type over them. -/
structure MemberSignature where
  allocated : List Bool
  skolems : ℕ
  body : Ty

/-- What member lookup reads outside the solver: the receiver evidence in the graph (`member_lookup_subject`), and
the compile-time values with their attached members.  A lookup names no variable that it was not given and did not
allocate. -/
structure MemberLookup where
  Value : Type
  memberLookupSubject : Checker → Ty → Option Ty
  reifyRuntimeType : Ty → Option Value
  decorateOperatorType : Value → Value
  staticMember : Value → String → Option Value
  staticMemberType : Checker → Value → Ty → Option MemberSignature
  subject_inScope : ∀ {s t u}, memberLookupSubject s t = some u → s.BoundsInScope → t.InScope s.arena.length →
    u.InScope s.arena.length
  signature_inScope : ∀ {s value t signature}, staticMemberType s value t = some signature →
    t.InScope s.arena.length → signature.body.InScope (s.arena.length + signature.allocated.length)

def MemberLookup.none : MemberLookup where
  Value := Unit
  memberLookupSubject _ _ := .none
  reifyRuntimeType _ := .none
  decorateOperatorType := id
  staticMember _ _ := .none
  staticMemberType _ _ _ := .none
  subject_inScope h := absurd h nofun
  signature_inScope h := absurd h nofun

def allocateSignature (signature : MemberSignature) : Solve Ty := do
  Attempt.modify fun s =>
    signature.allocated.foldl
      (fun s isEmpty => if isEmpty then (s.allocate s.level).markEmpty s.arena.length else s.allocate s.level) s
  Attempt.modify fun s => { s with nextSkolem := s.nextSkolem + signature.skolems }
  return signature.body

/-- The value, or the diagnostic `code` about `about`. -/
def orDiagnostic {α : Type} (code : String) (about : List Ty) (span : Span) : Option α → Solve α
  | some a => pure a
  | none => Attempt.stop (.diagnostic ⟨code, about, span⟩)

/-- The least element of a `BTreeSet` and the rest. -/
def popFirst (queued : Finset ℕ) : Option (ℕ × Finset ℕ) :=
  if h : queued.Nonempty then some (queued.min' h, queued.erase (queued.min' h)) else none

def takeReadyMemberConstraints (lookup : MemberLookup) (span : Span) : ℕ → Solve (List WorkItem)
  | 0 => Attempt.stop .fuel
  | fuel + 1 => do
    let s ← Attempt.get
    match popFirst s.memberConstraints.queued with
    | none => return []
    | some (id, queued) => do
      Attempt.modify fun s => { s with memberConstraints := { s.memberConstraints with queued := queued } }
      match s.memberConstraints.entries[id]? with
      | none => takeReadyMemberConstraints lookup span fuel
      | some entry =>
        if entry.discharged then takeReadyMemberConstraints lookup span fuel
        else do
          indexMemberRequirement fuel id entry.requirement
          let s ← Attempt.get
          match lookup.memberLookupSubject s entry.requirement.subject with
          | none => takeReadyMemberConstraints lookup span fuel
          | some subject => do
            let value ← orDiagnostic "BLOT_TYPE_NOT_REIFIABLE" [subject] span (lookup.reifyRuntimeType subject)
            let value := lookup.decorateOperatorType value
            let member ← orDiagnostic "BLOT_NO_TYPE_MEMBER" [subject] span
              (lookup.staticMember value entry.requirement.name)
            let signature ← orDiagnostic "BLOT_TYPE_NOT_REIFIABLE" [] span (lookup.staticMemberType s member subject)
            let signature ← allocateSignature signature
            let signature ← instantiate fuel 0 signature
            Attempt.modify fun s =>
              { s with memberConstraints :=
                { s.memberConstraints with
                  entries := s.memberConstraints.entries.modify id fun e => { e with discharged := true } } }
            let rest ← takeReadyMemberConstraints lookup span fuel
            return ⟨signature, entry.requirement.member, span⟩ :: rest

end Blot.Typecheck
