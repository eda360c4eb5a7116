import Blot.Support.Table

/-!
# Frames of an environment (`value.rs`)

A frame is a cell of the heap, named by its place; the parent pointers, which are strong references, make chains of
frames, and the name index holds weak references.  `V` stands for values, `T` for the environment-free closure
templates of a recursive group.
-/

namespace Blot.Environment

open Support

variable {V T : Type}

/-- `Env` -/
structure Frame (V T : Type) where
  names : Table String V := []
  /-- The opened values, in source order. -/
  opens : List (Table String V) := []
  signatures : Table String V := []
  typeSubstitutions : Table ℕ V := []
  effectSubstitutions : Table ℕ V := []
  parent : Option ℕ := none
  recursiveBindings : Option (Table String T) := none
  captured : Bool := false
  nameLocations : Option (Table String ℕ) := none

/-- `captured.replace(true)` -/
def Frame.seal (frame : Frame V T) : Frame V T := { frame with captured := true }

/-- The frames there are, and the place of the next one. -/
structure Heap (V T : Type) where
  frames : ℕ → Option (Frame V T)
  next : ℕ

/-- A binding that a lookup finds: a stored value, or a member of a recursive group, closed over the group's frame. -/
inductive Binding (V T : Type) where
  | value (value : V)
  | member (template : T) (environment : ℕ)
  deriving DecidableEq

/-- What goes wrong in a lookup: the `expect` on an indexed name, its `assert`, or a strong reference to no frame. -/
inductive Failure where
  | expired
  | disappeared
  | dangling
  deriving DecidableEq

inductive RecursiveBindingError where
  | duplicateName
  | differentEnvironment
  deriving DecidableEq

namespace Heap

def empty : Heap V T := ⟨fun _ => none, 0⟩

def alloc (h : Heap V T) (f : Frame V T) : ℕ × Heap V T :=
  (h.next, ⟨Function.update h.frames h.next (some f), h.next + 1⟩)

def modify (h : Heap V T) (environment : ℕ) (write : Frame V T → Frame V T) : Heap V T :=
  { h with frames := Function.update h.frames environment ((h.frames environment).map write) }

def free (h : Heap V T) (environment : ℕ) : Heap V T :=
  ⟨Function.update h.frames environment none, h.next⟩

def childEnv (h : Heap V T) (parent : Option ℕ) : ℕ × Heap V T := h.alloc { parent := parent }

def recursiveEnv (h : Heap V T) (parent : Option ℕ) : ℕ × Heap V T :=
  h.alloc { parent := parent, recursiveBindings := some [] }

/-- The walk of `capture_env`, which stops at the first frame captured before. -/
def captureFrom : ℕ → Heap V T → Option ℕ → Heap V T
  | 0, h, _ => h
  | _ + 1, h, none => h
  | fuel + 1, h, some current =>
    match h.frames current with
    | none => h
    | some frame =>
      if frame.captured then h
      else captureFrom fuel (h.modify current Frame.seal) frame.parent

/-- `capture_env`; a parent is older than its child, so the walk ends within this bound. -/
def captureEnv (h : Heap V T) (environment : ℕ) : Heap V T := captureFrom (environment + 1) h (some environment)

def declarationEnv (h : Heap V T) (environment : ℕ) : ℕ × Heap V T :=
  match h.frames environment with
  | none => (environment, h)
  | some frame =>
    if frame.captured || frame.recursiveBindings.isSome then h.childEnv (some environment) else (environment, h)

/-- `names.insert` for the names of a pattern or of a declaration. -/
def declare (h : Heap V T) (environment : ℕ) (entries : Table String V) : Heap V T :=
  h.modify environment fun f => { f with names := f.names.extend entries }

def sign (h : Heap V T) (environment : ℕ) (name : String) (value : V) : Heap V T :=
  h.modify environment fun f => { f with signatures := f.signatures.insert name value }

def pushOpen (h : Heap V T) (environment : ℕ) (fields : Table String V) : Heap V T :=
  h.modify environment fun f => { f with opens := f.opens ++ [fields] }

def substitute (h : Heap V T) (environment : ℕ) (types effects : Table ℕ V) : Heap V T :=
  h.modify environment fun f =>
    { f with typeSubstitutions := f.typeSubstitutions.extend types
             effectSubstitutions := f.effectSubstitutions.extend effects }

/-- `RecursiveBindings::insert` of a closure over `closed`, into the group of a frame. -/
def insertMember (h : Heap V T) (environment : ℕ) (name : String) (closed : ℕ) (template : T) :
    Except RecursiveBindingError (Heap V T) :=
  match (h.frames environment).bind (·.recursiveBindings) with
  | none => .error .differentEnvironment
  | some closures =>
    if (closures.lookup name).isSome then .error .duplicateName
    else if closed ≠ environment then .error .differentEnvironment
    else .ok (h.modify environment fun f => { f with recursiveBindings := some (closures.insert name template) })

end Heap

/-! ### Compact captures -/

def taken (t : Table String V) (missing : List String) : Table String V :=
  missing.filterMap fun name => (t.lookup name).map fun value => (name, value)

/-- `missing.retain(..)`: the names that the table does not have. -/
def lacking (t : Table String V) (missing : List String) : List String :=
  missing.filter fun name => (t.lookup name).isNone

def takeOpens : List (Table String V) → Frame V T × List String → Frame V T × List String
  | [], acc => acc
  | fields :: opens, (captured, missing) =>
    let found := taken fields missing
    takeOpens opens
      (if found.isEmpty then captured else { captured with opens := captured.opens ++ [found] }, lacking fields missing)

def takeFrame (acc : Frame V T × List String) (frame : Frame V T) : Frame V T × List String :=
  let (captured, missing) := acc
  let named : Frame V T := { captured with names := captured.names.extend (taken frame.names missing) }
  let (opened, missing) := takeOpens frame.opens.reverse (named, lacking frame.names missing)
  ({ opened with
      signatures := opened.signatures.fill frame.signatures
      typeSubstitutions := opened.typeSubstitutions.fill frame.typeSubstitutions
      effectSubstitutions := opened.effectSubstitutions.fill frame.effectSubstitutions }, missing)

namespace Heap

/-- The frames from an environment to the base, without it; `none` at a recursive frame, or where the chain ends. -/
def framesBefore (h : Heap V T) (base : ℕ) : ℕ → ℕ → Option (List (Frame V T))
  | 0, _ => none
  | fuel + 1, current =>
    if current = base then some []
    else
      match h.frames current with
      | none => none
      | some frame =>
        match frame.recursiveBindings, frame.parent with
        | none, some parent => (h.framesBefore base fuel parent).map (frame :: ·)
        | _, _ => none

def captureBefore (h : Heap V T) (environment base : ℕ) (names : List String) : ℕ × Heap V T :=
  match h.framesBefore base (environment + 1) environment with
  | none => (environment, h.captureEnv environment)
  | some frames =>
    let (captured, allocated) := h.alloc (frames.foldl takeFrame ({ parent := some base }, names.dedup)).1
    (captured, allocated.captureEnv captured)

end Heap

/-! ### Lookup -/

/-- The binding that one frame has: its names, then its recursive group, then its opens from the latest on. -/
def Frame.own (frame : Frame V T) (environment : ℕ) (name : String) : Option (Binding V T) :=
  match frame.names.lookup name with
  | some value => some (.value value)
  | none =>
    match frame.recursiveBindings.bind (·.lookup name) with
    | some template => some (.member template environment)
    | none => (frame.opens.reverse.findSome? (·.lookup name)).map .value

namespace Heap

/-- A member that is found is closed over its frame, which captures the frame (`RecursiveBindings::lookup`). -/
def observed (h : Heap V T) : Binding V T → Heap V T
  | .value _ => h
  | .member _ environment => h.captureEnv environment

/-- The loop of `find_binding`. -/
def findFrom (name : String) : ℕ → Heap V T → Option ℕ → Except Failure (Option (Binding V T) × Heap V T)
  | _, h, none => .ok (none, h)
  | 0, _, some _ => .error .dangling
  | fuel + 1, h, some current =>
    match h.frames current with
    | none => .error .dangling
    | some frame =>
      match frame.nameLocations with
      | some locations =>
        match locations.lookup name with
        | none => .ok (none, h)
        | some owner =>
          match h.frames owner with
          | none => .error .expired
          | some indexed =>
            match indexed.own owner name with
            | some binding => .ok (some binding, h.observed binding)
            | none => .error .disappeared
      | none =>
        match frame.own current name with
        | some binding => .ok (some binding, h.observed binding)
        | none => findFrom name fuel h frame.parent

def findBinding (h : Heap V T) (environment : ℕ) (name : String) :
    Except Failure (Option (Binding V T) × Heap V T) :=
  findFrom name (environment + 1) h (some environment)

end Heap

/-! ### The name index -/

/-- The names that a frame binds, in the order in which the index takes them. -/
def Frame.bound (frame : Frame V T) : List String :=
  frame.names.map (·.1) ++ ((frame.recursiveBindings.getD []).map (·.1) ++
    frame.opens.reverse.flatMap fun fields => fields.map (·.1))

namespace Heap

/-- The loop of `index_environment_names`: the first frame that binds a name owns it. -/
def locationsFrom (h : Heap V T) : ℕ → Option ℕ → Table String ℕ → Table String ℕ
  | 0, _, locations => locations
  | _ + 1, none, locations => locations
  | fuel + 1, some current, locations =>
    match h.frames current with
    | none => locations
    | some frame => h.locationsFrom fuel frame.parent (locations.fill (frame.bound.map (·, current)))

def indexEnvironmentNames (h : Heap V T) (environment : ℕ) : Heap V T :=
  let captured := h.captureEnv environment
  let locations := captured.locationsFrom (environment + 1) (some environment) []
  captured.modify environment fun f => { f with nameLocations := some (f.nameLocations.getD locations) }

end Heap

end Blot.Environment
