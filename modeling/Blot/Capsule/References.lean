import Mathlib.Algebra.BigOperators.Group.List.Basic
import Mathlib.Algebra.Order.Ring.Nat

/-!
# What the environments of a capsule refer to (`collect_environment_references`)

The closures in a value are collected by a loop over a stack of values still to look at.

* `CapsuleValue.Captures` — a closure over an environment is nested in a value;
* `mem_references` — the loop over the values of an environment collects these and nothing else.
-/

namespace Blot.Capsule

open Relation

inductive CapsuleModule where
  | local
  | external (path : String)

/-- `CapsuleValue`; of a closure only its environment is kept, floating-point numbers are their bits. -/
inductive CapsuleValue where
  | int (value : ℤ)
  | float (bits : UInt64)
  | float32 (bits : UInt32)
  | vector (lanes : UInt32 × UInt32 × UInt32 × UInt32)
  | vectorMask (lanes : Bool × Bool × Bool × Bool)
  | integerVector (bits : UInt8) (lanes : List Int32)
  | integerVectorMask (bits : UInt8) (lanes : List Bool)
  | text (value : String)
  | unit
  | shape (fields : List (String × CapsuleValue))
  | array (values : List CapsuleValue)
  | regionType (element : CapsuleValue)
  | scratchType (element : CapsuleValue)
  | resourceType (family : String) (payload : CapsuleValue)
  | deferredScratch (capacity : CapsuleValue)
  | emptyArray (element : CapsuleValue)
  | tag (name : String) (payload : Option CapsuleValue)
  | closure (environment : ℕ)
  | moduleClosure (source : CapsuleModule)
  | indexedStep (elements : List CapsuleValue)
  | primitive (name : String) (arity : ℕ) (applied : List CapsuleValue)
  | range (low high : CapsuleValue) (domain : Option UInt8)
  | union (values : List CapsuleValue)
  | unbounded
  | arrow (deferred : Bool) (domain codomain : CapsuleValue) (effects : List CapsuleValue) (effectTail : Option ℕ)
  | typeVariable (id : ℕ)
  | forAll (bound : ℕ) (body : CapsuleValue)
  | extended (inner : CapsuleValue) (members : List (String × CapsuleValue))
  | sealed (name : String) (inner : CapsuleValue)
  | opaqueType (name : String)

namespace CapsuleValue

/-! ### The loop -/

/-- What the loop pushes when it meets a value, in this order; a closure is a reference instead. -/
def pushed : CapsuleValue → List CapsuleValue
  | .closure _ => []
  | .shape fields => fields.map Prod.snd
  | .extended inner members => inner :: members.map Prod.snd
  | .array values | .indexedStep values | .primitive _ _ values | .union values => values
  | .regionType value | .scratchType value | .resourceType _ value | .deferredScratch value | .emptyArray value
  | .forAll _ value | .sealed _ value => [value]
  | .tag _ payload => payload.toList
  | .range low high _ => [low, high]
  | .arrow _ domain codomain effects _ => domain :: codomain :: effects
  | .int _ | .float _ | .float32 _ | .vector _ | .vectorMask _ | .integerVector _ _ | .integerVectorMask _ _ | .text _
  | .unit | .moduleClosure _ | .unbounded | .typeVariable _ | .opaqueType _ => []

theorem sum_sizeOf_lt : ∀ values : List CapsuleValue, (values.map sizeOf).sum < sizeOf values
  | [] => by simp
  | value :: values => by
    have := sum_sizeOf_lt values
    simp only [List.map_cons, List.sum_cons, List.cons.sizeOf_spec]
    omega

theorem sum_sizeOf_fields_lt : ∀ fields : List (String × CapsuleValue),
    ((fields.map Prod.snd).map sizeOf).sum < sizeOf fields
  | [] => by simp
  | (name, value) :: fields => by
    have := sum_sizeOf_fields_lt fields
    simp only [List.map_cons, List.sum_cons, List.cons.sizeOf_spec, Prod.mk.sizeOf_spec]
    omega

/-- What is pushed is smaller than the value. -/
theorem sum_pushed_lt (value : CapsuleValue) : (value.pushed.map sizeOf).sum < sizeOf value := by
  cases value with
  | shape fields =>
    have := sum_sizeOf_fields_lt fields
    simp only [pushed, shape.sizeOf_spec]
    omega
  | extended inner members =>
    have := sum_sizeOf_fields_lt members
    simp only [pushed, List.map_cons, List.sum_cons, extended.sizeOf_spec]
    omega
  | array values =>
    have := sum_sizeOf_lt values
    simp only [pushed, array.sizeOf_spec]
    omega
  | indexedStep values =>
    have := sum_sizeOf_lt values
    simp only [pushed, indexedStep.sizeOf_spec]
    omega
  | primitive name arity values =>
    have := sum_sizeOf_lt values
    simp only [pushed, primitive.sizeOf_spec]
    omega
  | union values =>
    have := sum_sizeOf_lt values
    simp only [pushed, union.sizeOf_spec]
    omega
  | arrow deferred domain codomain effects effectTail =>
    have := sum_sizeOf_lt effects
    simp only [pushed, List.map_cons, List.sum_cons, arrow.sizeOf_spec]
    omega
  | tag name payload =>
    cases payload with
    | none => simp [pushed]
    | some payload =>
      simp only [pushed, Option.toList_some, List.map_cons, List.map_nil, List.sum_cons, List.sum_nil, tag.sizeOf_spec,
        Option.some.sizeOf_spec]
      omega
  | _ => simp [pushed] <;> omega

/-- The loop of `collect_environment_references`; the value to look at next comes first. -/
def collectLoop : List CapsuleValue → List ℕ → List ℕ
  | [], references => references
  | .closure environment :: pending, references => collectLoop pending (references ++ [environment])
  | value :: pending, references => collectLoop (value.pushed.reverse ++ pending) references
termination_by pending => (pending.map sizeOf).sum
decreasing_by
  · simp only [List.map_cons, List.sum_cons, closure.sizeOf_spec]
    omega
  · have hpushed := sum_pushed_lt value
    simp only [List.map_append, List.map_reverse, List.sum_append, List.sum_reverse, List.map_cons, List.sum_cons]
    omega

def collectEnvironmentReferences (value : CapsuleValue) (references : List ℕ) : List ℕ :=
  collectLoop [value] references

/-! ### What is nested in a value -/

inductive Part : CapsuleValue → CapsuleValue → Prop
  | shape {fields : List (String × CapsuleValue)} {name : String} {value : CapsuleValue} (h : (name, value) ∈ fields) :
      Part value (.shape fields)
  | array {values : List CapsuleValue} {value : CapsuleValue} (h : value ∈ values) : Part value (.array values)
  | regionType (element : CapsuleValue) : Part element (.regionType element)
  | scratchType (element : CapsuleValue) : Part element (.scratchType element)
  | resourceType (family : String) (payload : CapsuleValue) : Part payload (.resourceType family payload)
  | deferredScratch (capacity : CapsuleValue) : Part capacity (.deferredScratch capacity)
  | emptyArray (element : CapsuleValue) : Part element (.emptyArray element)
  | tag (name : String) (payload : CapsuleValue) : Part payload (.tag name (some payload))
  | indexedStep {elements : List CapsuleValue} {value : CapsuleValue} (h : value ∈ elements) :
      Part value (.indexedStep elements)
  | primitive (name : String) (arity : ℕ) {applied : List CapsuleValue} {value : CapsuleValue} (h : value ∈ applied) :
      Part value (.primitive name arity applied)
  | low (low high : CapsuleValue) (domain : Option UInt8) : Part low (.range low high domain)
  | high (low high : CapsuleValue) (domain : Option UInt8) : Part high (.range low high domain)
  | union {values : List CapsuleValue} {value : CapsuleValue} (h : value ∈ values) : Part value (.union values)
  | domain (deferred : Bool) (domain codomain : CapsuleValue) (effects : List CapsuleValue) (effectTail : Option ℕ) :
      Part domain (.arrow deferred domain codomain effects effectTail)
  | codomain (deferred : Bool) (domain codomain : CapsuleValue) (effects : List CapsuleValue) (effectTail : Option ℕ) :
      Part codomain (.arrow deferred domain codomain effects effectTail)
  | effects (deferred : Bool) (domain codomain : CapsuleValue) {effects : List CapsuleValue} (effectTail : Option ℕ)
      {value : CapsuleValue} (h : value ∈ effects) : Part value (.arrow deferred domain codomain effects effectTail)
  | forAll (bound : ℕ) (body : CapsuleValue) : Part body (.forAll bound body)
  | inner (inner : CapsuleValue) (members : List (String × CapsuleValue)) : Part inner (.extended inner members)
  | members (inner : CapsuleValue) {members : List (String × CapsuleValue)} {name : String} {value : CapsuleValue}
      (h : (name, value) ∈ members) : Part value (.extended inner members)
  | sealed (name : String) (inner : CapsuleValue) : Part inner (.sealed name inner)

/-- A closure over the environment is nested in the value. -/
def Captures (value : CapsuleValue) (environment : ℕ) : Prop := ReflTransGen Part (.closure environment) value

theorem mem_pushed {part value : CapsuleValue} : part ∈ value.pushed ↔ Part part value := by
  constructor
  · intro h
    cases value with
    | shape fields =>
      obtain ⟨⟨name, part⟩, hmem, rfl⟩ := List.mem_map.mp h
      exact .shape hmem
    | extended inner members =>
      rcases List.mem_cons.mp h with rfl | h
      · exact .inner ..
      · obtain ⟨⟨name, part⟩, hmem, rfl⟩ := List.mem_map.mp h
        exact .members _ hmem
    | array values => exact .array h
    | indexedStep values => exact .indexedStep h
    | primitive name arity values => exact .primitive _ _ h
    | union values => exact .union h
    | tag name payload =>
      obtain rfl := Option.mem_toList.mp h
      exact .tag ..
    | range low high domain =>
      rcases List.mem_cons.mp h with rfl | h
      · exact .low ..
      · obtain rfl := List.mem_singleton.mp h
        exact .high ..
    | arrow deferred domain codomain effects effectTail =>
      rcases List.mem_cons.mp h with rfl | h
      · exact .domain ..
      · rcases List.mem_cons.mp h with rfl | h
        · exact .codomain ..
        · exact .effects _ _ _ _ h
    | regionType | scratchType | resourceType | deferredScratch | emptyArray | forAll | sealed =>
      obtain rfl := List.mem_singleton.mp h
      constructor
    | _ => cases h
  · intro h
    cases h with
    | shape h => simpa [pushed] using ⟨_, h⟩
    | members _ h => simpa [pushed] using .inr ⟨_, h⟩
    | _ => simp [pushed, *]

/-- A closure is nested in a value that is the closure, or in one that is pushed for it. -/
theorem captures_iff {value : CapsuleValue} {environment : ℕ} :
    value.Captures environment ↔ value = .closure environment ∨ ∃ part ∈ value.pushed, part.Captures environment := by
  simp only [Captures, mem_pushed]
  rw [ReflTransGen.cases_tail_iff]
  refine or_congr Iff.rfl (exists_congr fun part => and_comm)

/-- **The loop of `collect_environment_references`** collects what the closures in the pending values are over. -/
theorem mem_collectLoop (pending : List CapsuleValue) (references : List ℕ) {environment : ℕ} :
    environment ∈ collectLoop pending references ↔
      environment ∈ references ∨ ∃ value ∈ pending, value.Captures environment := by
  induction pending, references using collectLoop.induct with
  | case1 references => simp [collectLoop]
  | case2 captured pending references ih =>
    have hcaptured : (closure captured).Captures environment ↔ environment = captured := by
      rw [captures_iff]
      simp [pushed, eq_comm]
    rw [collectLoop, ih, List.mem_append, List.mem_singleton, List.exists_mem_cons_iff, hcaptured, or_assoc]
  | case3 value pending references hvalue ih =>
    have hparts : value.Captures environment ↔ ∃ part ∈ value.pushed.reverse, part.Captures environment := by
      rw [captures_iff, or_iff_right (hvalue environment)]
      simp only [List.mem_reverse]
    rw [collectLoop, ih, List.exists_mem_cons_iff, hparts]
    · simp only [List.mem_append, or_and_right, exists_or]
    · exact hvalue

theorem mem_collectEnvironmentReferences {value : CapsuleValue} {references : List ℕ} {environment : ℕ} :
    environment ∈ value.collectEnvironmentReferences references ↔
      environment ∈ references ∨ value.Captures environment := by
  simp [collectEnvironmentReferences, mem_collectLoop]

end CapsuleValue

/-! ### Environments -/

/-- `CapsuleEnvironment`; maps are listed in the order of their keys, and of the recursive names the closures are left
out. -/
structure CapsuleEnvironment where
  parent : Option ℕ
  names : List (String × CapsuleValue)
  recursiveNames : List String
  opens : List (List (String × CapsuleValue))
  typeSubstitutions : List (ℕ × CapsuleValue)

namespace CapsuleEnvironment

/-- The references of an environment, as `validate_environment_graph_for_publication` collects them. -/
def references (environment : CapsuleEnvironment) : List ℕ :=
  let collect {α : Type} (references : List ℕ) (field : α × CapsuleValue) : List ℕ :=
    field.2.collectEnvironmentReferences references
  let parent := environment.parent.toList
  let names := environment.names.foldl collect parent
  let opens := environment.opens.foldl (fun references fields => fields.foldl collect references) names
  environment.typeSubstitutions.foldl collect opens

/-- An environment refers to another one: as its parent, or by a closure that is nested in a value of it. -/
inductive Refers (environment : CapsuleEnvironment) (target : ℕ) : Prop
  | parent (h : environment.parent = some target)
  | names {name : String} {value : CapsuleValue} (h : (name, value) ∈ environment.names)
      (hv : value.Captures target)
  | opens {fields : List (String × CapsuleValue)} {name : String} {value : CapsuleValue}
      (h : fields ∈ environment.opens) (hf : (name, value) ∈ fields) (hv : value.Captures target)
  | typeSubstitutions {id : ℕ} {value : CapsuleValue} (h : (id, value) ∈ environment.typeSubstitutions)
      (hv : value.Captures target)

theorem mem_foldl {α : Type} {collect : List ℕ → α → List ℕ} {P : α → Prop} {target : ℕ}
    (h : ∀ a references, target ∈ collect references a ↔ target ∈ references ∨ P a) :
    ∀ (as : List α) (references : List ℕ),
      target ∈ as.foldl collect references ↔ target ∈ references ∨ ∃ a ∈ as, P a
  | [], references => by simp
  | a :: as, references => by
    rw [List.foldl_cons, mem_foldl h as, h, List.exists_mem_cons_iff, or_assoc]

/-- **The references of an environment** are its parent and what the closures that are nested in its values are over. -/
theorem mem_references {environment : CapsuleEnvironment} {target : ℕ} :
    target ∈ environment.references ↔ environment.Refers target := by
  have hfield : ∀ {α : Type} (field : α × CapsuleValue) (references : List ℕ),
      target ∈ field.2.collectEnvironmentReferences references ↔
        target ∈ references ∨ field.2.Captures target := fun _ _ =>
    CapsuleValue.mem_collectEnvironmentReferences
  rw [references, mem_foldl hfield, mem_foldl fun fields references => mem_foldl hfield fields references,
    mem_foldl hfield, Option.mem_toList]
  constructor
  · rintro (((h | ⟨⟨name, value⟩, h, hv⟩) | ⟨fields, h, ⟨name, value⟩, hf, hv⟩) | ⟨⟨id, value⟩, h, hv⟩)
    · exact .parent h
    · exact .names h hv
    · exact .opens h hf hv
    · exact .typeSubstitutions h hv
  · rintro (h | ⟨h, hv⟩ | ⟨h, hf, hv⟩ | ⟨h, hv⟩)
    · exact .inl (.inl (.inl h))
    · exact .inl (.inl (.inr ⟨_, h, hv⟩))
    · exact .inl (.inr ⟨_, h, _, hf, hv⟩)
    · exact .inr ⟨_, h, hv⟩

end CapsuleEnvironment

end Blot.Capsule
