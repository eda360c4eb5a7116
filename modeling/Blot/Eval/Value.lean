import Mathlib.Order.Lattice.Nat
import Blot.Support.Table
import Blot.Ast

/-!
# Values and environments (`value.rs`)

Values as the evaluator looks at them; `X` stands for what it only passes on (effect scopes, application sites, the
values of other kinds).  An environment is the list of its frames, the innermost first; the frames are cells of the
store, since patterns and calls write into them.
-/

namespace Blot.Eval

open Support

/-- `Domain` -/
inductive ValueDomain where
  | int
  | text
  | float
  | float32
  deriving DecidableEq

/-- `Environment`: the chain of frames, by their identities. -/
abbrev Environment := List ℕ

inductive Value (X : Type) where
  | int (value : ℤ)
  | float (value : Float)
  | float32 (value : Float32)
  | text (value : String)
  | unit
  | shape (fields : List (String × Value X))
  | array (values : List (Value X))
  | emptyArray (element : Value X)
  | tag (name : String) (payload : Option (Value X))
  | extended (inner : Value X) (members : List (String × Value X))
  | closure (module : String) (instances scope : X) (parameter : PatternId) (body : ExpressionId)
    (environment : Environment) (selfName : Option String) (signature : Option (Value X)) (reuse : Option Span)
    (deferred : Bool)
  /-- A choice, with the answer of `deferred` for each alternative. -/
  | closureChoice (selector : X) (alternatives : List (X × Bool))
  /-- A suspended argument; `demands` is the cell of its `DeferredDemands`. -/
  | deferred (module : String) (expression : ExpressionId) (environment : Environment) (demands : ℕ)
  | primitive (name : String) (arity : ℕ) (applied : List (Value X))
  | range (low high : Value X) (domain : Option ValueDomain)
  | typeVariable (id : ℕ)
  | continuation (id : ℕ)
  | runtime (value : X)
  | other (value : X)

variable {X R : Type}

/-! ### Fields -/

def tuple (values : List (Value X)) : Value X :=
  .shape (Table.extend [] (values.zipIdx.map fun p => (toString p.2, p.1)))

/-- Strips the attached members off a value (`while let Value::Extended`). -/
def Value.stripped : Value X → Value X
  | .extended inner _ => stripped inner
  | value => value

/-! ### The store -/

/-- `Env`, without its parent -/
structure EnvironmentFrame (X : Type) where
  names : List (String × Value X)
  opens : List (List (String × Value X))
  signatures : List (String × Value X)
  typeSubstitutions : List (ℕ × Value X)
  effectSubstitutions : List (ℕ × Value X)
  recursiveBindings : Bool
  captured : Bool

def EnvironmentFrame.empty : EnvironmentFrame X := ⟨[], [], [], [], [], false, false⟩

/-- What evaluation reads and writes: the fuel of the runtime, the frames, the cells of the suspended arguments (for
each execution the blocks that demanded it) and the rest, which only other functions touch. -/
structure Store (X R : Type) where
  fuel : ℤ
  frames : ℕ → EnvironmentFrame X
  nextFrame : ℕ
  demands : List (List (ℕ × List (Option ℕ)))
  rest : R

namespace Store

variable (s : Store X R)

/-- The identity of a new frame: no frame of the store and no frame of `environment` has it. -/
def freshFrame (environment : Environment) : ℕ := environment.foldr (fun id next => max (id + 1) next) s.nextFrame

/-- Allocates a frame below `parent`, the environment at hand being `environment`. -/
def allocateFrame (frame : EnvironmentFrame X) (environment parent : Environment) : Environment × Store X R :=
  let id := s.freshFrame environment
  (id :: parent, { s with frames := Function.update s.frames id frame, nextFrame := id + 1 })

/-- `child_env` -/
def childEnvironment (parent : Environment) : Environment × Store X R := s.allocateFrame .empty parent parent

def markCaptured (id : ℕ) : Store X R :=
  { s with frames := Function.update s.frames id { s.frames id with captured := true } }

/-- `capture_env`: marks the frames up to the first one that is marked. -/
def captureEnvironment (s : Store X R) : Environment → Store X R
  | [] => s
  | id :: rest => if (s.frames id).captured then s else captureEnvironment (s.markCaptured id) rest

def lookupSignature (environment : Environment) (name : String) : Option (Value X) :=
  environment.findSome? fun id => (s.frames id).signatures.lookup name

/-- `substitution`: the innermost type recorded for a type variable. -/
def substitution (environment : Environment) (variableId : ℕ) : Option (Value X) :=
  environment.findSome? fun id => (s.frames id).typeSubstitutions.lookup variableId

/-- The innermost effect recorded for an effect (the `Value::Effect` arm of `substitute_signature`). -/
def effectSubstitution (environment : Environment) (effectId : ℕ) : Option (Value X) :=
  environment.findSome? fun id => (s.frames id).effectSubstitutions.lookup effectId

/-! ### Captures -/

/-- The frames from an environment up to `base`; `none` when one of them is a recursive group or `base` is not met. -/
def framesBefore (s : Store X R) (base : Environment) : Environment → Option (List (EnvironmentFrame X))
  | [] => if base = [] then some [] else none
  | id :: rest =>
    if base = id :: rest then some []
    else if (s.frames id).recursiveBindings then none
    else (framesBefore s base rest).map (s.frames id :: ·)

end Store

/-- Adds the entries whose key is new (`entry(..).or_insert_with(..)`). -/
def mergeEntries {K : Type} [BEq K] (entries more : List (K × Value X)) : List (K × Value X) :=
  entries ++ more.filter fun p => (entries.lookup p.1).isNone

/-- The entries of some of `names`, and the names that have none. -/
def takeEntries (entries : List (String × Value X)) (names : List String) : List (String × Value X) × List String :=
  (names.filterMap fun name => (entries.lookup name).map fun value => (name, value),
    names.filter fun name => (entries.lookup name).isNone)

/-- Takes the missing names out of the opened records of a frame, the last opened first. -/
def takeOpened : List (List (String × Value X)) → List String → List (List (String × Value X)) × List String
  | [], missing => ([], missing)
  | fields :: rest, missing =>
    let (found, missing) := takeEntries fields missing
    let (opened, missing) := takeOpened rest missing
    (if found = [] then opened else found :: opened, missing)

def captureFrame (captured : EnvironmentFrame X × List String) (frame : EnvironmentFrame X) :
    EnvironmentFrame X × List String :=
  let (names, missing) := takeEntries frame.names captured.2
  let (opened, missing) := takeOpened frame.opens.reverse missing
  ({ captured.1 with
      names := captured.1.names ++ names
      opens := captured.1.opens ++ opened
      signatures := mergeEntries captured.1.signatures frame.signatures
      typeSubstitutions := mergeEntries captured.1.typeSubstitutions frame.typeSubstitutions
      effectSubstitutions := mergeEntries captured.1.effectSubstitutions frame.effectSubstitutions }, missing)

def Store.captureBefore (s : Store X R) (environment base : Environment) (names : List String) :
    Environment × Store X R :=
  match s.framesBefore base environment with
  | none => (environment, s.captureEnvironment environment)
  | some frames =>
    let (captured, _) := frames.foldl captureFrame (.empty, names)
    let (captured, s) := s.allocateFrame captured environment base
    (captured, s.captureEnvironment captured)

/-! ### Suspended arguments -/

/-- A new cell of `DeferredDemands`. -/
def Store.newDemands (s : Store X R) : ℕ × Store X R :=
  (s.demands.length, { s with demands := s.demands ++ [[]] })

/-- The blocks of an execution that demanded a suspended argument (`DeferredDemands::blocks_for`). -/
def Store.demandedBlocks (s : Store X R) (cell execution : ℕ) : List (Option ℕ) :=
  ((s.demands.getD cell []).lookup execution).getD []

def Store.demand (s : Store X R) (cell execution : ℕ) (block : Option ℕ) : Store X R :=
  { s with
    demands := s.demands.modify cell fun executions =>
      (execution, s.demandedBlocks cell execution ++ [block]) :: executions.filter (·.1 ≠ execution) }

/-! ### Captures keep the evidence -/

section Capture

variable {K : Type} [BEq K] [LawfulBEq K]

theorem lookup_filter_key (xs : List (K × Value X)) {keep : K → Bool} {k : K} (hk : keep k = true) :
    (xs.filter fun p => keep p.1).lookup k = xs.lookup k := by
  induction xs with
  | nil => rfl
  | cons p xs ih =>
    obtain ⟨key, v⟩ := p
    rw [List.filter_cons]
    by_cases hp : k = key
    · subst hp
      simp [hk]
    · have hne : (k == key) = false := by simpa using hp
      cases hkeep : keep key <;> simp [List.lookup_cons, hne, ih]

/-- **First wins**: a merged table answers as the first table that answers. -/
theorem lookup_mergeEntries (entries more : List (K × Value X)) (k : K) :
    (mergeEntries entries more).lookup k = (entries.lookup k).or (more.lookup k) := by
  unfold mergeEntries
  rw [List.lookup_append]
  cases h : entries.lookup k with
  | some v => rfl
  | none =>
    let keep : K → Bool := fun key => (entries.lookup key).isNone
    have hk : keep k = true := by simp [keep, h]
    exact lookup_filter_key more hk

theorem lookup_captureFrames {table : EnvironmentFrame X → List (K × Value X)}
    (htable : ∀ c f, table (captureFrame c f).1 = mergeEntries (table c.1) (table f))
    (frames : List (EnvironmentFrame X)) (c : EnvironmentFrame X × List String) (k : K) :
    (table (frames.foldl captureFrame c).1).lookup k =
      ((table c.1).lookup k).or (frames.findSome? fun f => (table f).lookup k) := by
  induction frames generalizing c with
  | nil => simp
  | cons f frames ih =>
    rw [List.foldl_cons, ih, htable, lookup_mergeEntries, List.findSome?_cons]
    cases (table c.1).lookup k <;> cases (table f).lookup k <;> rfl

end Capture

section CaptureStore

variable {s : Store X R}

theorem lt_freshFrame {environment : Environment} {id : ℕ} (h : id ∈ environment) : id < s.freshFrame environment := by
  unfold Store.freshFrame
  induction environment with
  | nil => exact absurd h List.not_mem_nil
  | cons p rest ih =>
    rw [List.foldr_cons]
    rcases List.mem_cons.1 h with rfl | h
    · exact Nat.lt_of_succ_le (le_max_left _ _)
    · exact lt_of_lt_of_le (ih h) (le_max_right _ _)

theorem frames_allocateFrame {environment : Environment} {id : ℕ} (h : id ∈ environment) (frame : EnvironmentFrame X)
    (parent : Environment) : (s.allocateFrame frame environment parent).2.frames id = s.frames id :=
  Function.update_of_ne (Nat.ne_of_lt (lt_freshFrame h)) _ _

theorem frames_captureEnvironment {A : Type} (g : EnvironmentFrame X → A)
    (hg : ∀ f b, g { f with captured := b } = g f) (environment : Environment) (s : Store X R) (v : ℕ) :
    g ((s.captureEnvironment environment).frames v) = g (s.frames v) := by
  induction environment generalizing s with
  | nil => rfl
  | cons id rest ih =>
    unfold Store.captureEnvironment
    split
    · rfl
    · rw [ih]
      by_cases hv : v = id
      · subst hv
        show g (Function.update s.frames v _ v) = g (s.frames v)
        rw [Function.update_self, hg]
      · show g (Function.update s.frames id _ v) = g (s.frames v)
        rw [Function.update_of_ne hv]

theorem framesBefore_findSome? {base environment : Environment} {frames : List (EnvironmentFrame X)}
    (h : s.framesBefore base environment = some frames) {A : Type} (g : EnvironmentFrame X → Option A) :
    environment.findSome? (fun id => g (s.frames id)) =
      (frames.findSome? g).or (base.findSome? fun id => g (s.frames id)) := by
  induction environment generalizing frames with
  | nil =>
    unfold Store.framesBefore at h
    split at h
    · rename_i hbase
      obtain rfl := Option.some.inj h
      simp [hbase]
    · exact absurd h nofun
  | cons id rest ih =>
    unfold Store.framesBefore at h
    split at h
    · rename_i hbase
      obtain rfl := Option.some.inj h
      simp [hbase]
    · split at h
      · exact absurd h nofun
      · obtain ⟨frames', hframes, rfl⟩ := Option.map_eq_some_iff.1 h
        rw [List.findSome?_cons, List.findSome?_cons, ih hframes]
        cases g (s.frames id) <;> rfl

theorem framesBefore_subset {base environment : Environment} {frames : List (EnvironmentFrame X)}
    (h : s.framesBefore base environment = some frames) : base ⊆ environment := by
  induction environment generalizing frames with
  | nil =>
    unfold Store.framesBefore at h
    split at h
    · rename_i hbase
      rw [hbase]
      exact fun a ha => ha
    · exact absurd h nofun
  | cons id rest ih =>
    unfold Store.framesBefore at h
    split at h
    · rename_i hbase
      rw [hbase]
      exact fun a ha => ha
    · split at h
      · exact absurd h nofun
      · obtain ⟨frames', hframes, -⟩ := Option.map_eq_some_iff.1 h
        exact fun a ha => List.mem_cons_of_mem _ (ih hframes ha)

section Evidence

variable {K : Type} [BEq K] [LawfulBEq K] {table : EnvironmentFrame X → List (K × Value X)}

/-- What an environment answers for a key of a table. -/
def Store.answer (s : Store X R) (table : EnvironmentFrame X → List (K × Value X)) (environment : Environment) (k : K) :
    Option (Value X) := environment.findSome? fun id => (table (s.frames id)).lookup k

omit [LawfulBEq K] in
theorem answer_captureEnvironment (hmark : ∀ f b, table { f with captured := b } = table f)
    (marked environment : Environment) (s : Store X R) (k : K) :
    (s.captureEnvironment marked).answer table environment k = s.answer table environment k := by
  unfold Store.answer
  congr 1
  funext id
  rw [frames_captureEnvironment table hmark]

omit [LawfulBEq K] in
theorem answer_allocateFrame {environment : Environment} (frame : EnvironmentFrame X) (parent : Environment)
    {e : Environment} (he : e ⊆ environment) (k : K) :
    (s.allocateFrame frame environment parent).2.answer table e k = s.answer table e k := by
  unfold Store.answer
  induction e with
  | nil => rfl
  | cons id rest ih =>
    rw [List.findSome?_cons, List.findSome?_cons, frames_allocateFrame (he List.mem_cons_self),
      ih fun a ha => he (List.mem_cons_of_mem _ ha)]

/-- **A capture keeps the evidence**: a table that is merged first-wins is read alike from the captured environment and
from the environment it was captured from. -/
theorem answer_captureBefore (htable : ∀ c f, table (captureFrame c f).1 = mergeEntries (table c.1) (table f))
    (hmark : ∀ f b, table { f with captured := b } = table f) (hempty : table .empty = [])
    (environment base : Environment) (names : List String) (k : K) :
    let captured := s.captureBefore environment base names
    captured.2.answer table captured.1 k = captured.2.answer table environment k := by
  unfold Store.captureBefore
  cases hframes : s.framesBefore base environment with
  | none => rfl
  | some frames =>
    show ((s.allocateFrame _ environment base).2.captureEnvironment _).answer table _ k =
      ((s.allocateFrame _ environment base).2.captureEnvironment _).answer table environment k
    rw [answer_captureEnvironment hmark, answer_captureEnvironment hmark,
      answer_allocateFrame _ _ fun a ha => ha]
    have hbase :
        (s.allocateFrame (frames.foldl captureFrame (.empty, names)).1 environment base).2.answer table base k =
          s.answer table base k := answer_allocateFrame _ base (framesBefore_subset hframes) k
    have hhead : (s.allocateFrame (frames.foldl captureFrame (.empty, names)).1 environment base).2.frames
        (s.freshFrame environment) = (frames.foldl captureFrame (.empty, names)).1 := Function.update_self _ _ _
    rw [show s.answer table environment k = _ from framesBefore_findSome? hframes fun f => (table f).lookup k]
    show List.findSome? _ (s.freshFrame environment :: base) = _
    rw [List.findSome?_cons, hhead, lookup_captureFrames htable, hempty, List.lookup_nil, Option.none_or]
    cases frames.findSome? fun f => (table f).lookup k with
    | some v => rfl
    | none => exact hbase

end Evidence

theorem substitution_captureBefore (environment base : Environment) (names : List String) (v : ℕ) :
    (s.captureBefore environment base names).2.substitution (s.captureBefore environment base names).1 v =
      (s.captureBefore environment base names).2.substitution environment v :=
  answer_captureBefore (fun _ _ => rfl) (fun _ _ => rfl) rfl environment base names v

theorem effectSubstitution_captureBefore (environment base : Environment) (names : List String) (e : ℕ) :
    (s.captureBefore environment base names).2.effectSubstitution (s.captureBefore environment base names).1 e =
      (s.captureBefore environment base names).2.effectSubstitution environment e :=
  answer_captureBefore (fun _ _ => rfl) (fun _ _ => rfl) rfl environment base names e

end CaptureStore

end Blot.Eval
