import Mathlib.Data.Int.Notation
import Mathlib.Data.List.Basic

/-!
# Type values (`Value` in `value.rs`)

The values types are made of, over a type of binders and a type of variables: the values of the program name both by
numbers, `Value`; the values up to the names of their binders count binders outwards, in `Blot.TypeValues.Nameless`.

* `Term.induct` — induction on a value;
* `Term.walk` — a traversal that renames variables and binders as it goes down, with its laws `walk_walk`, `walk_id`
  and `walk_congr`;
* `Term.size` — the number of its nodes.
-/

namespace Blot.TypeValues

inductive Domain where
  | int
  | text
  | float
  | float32
  deriving DecidableEq

/-- The values without parts; floating-point numbers are their bits, a store is its address. -/
inductive Scalar where
  | int (value : ℤ)
  | float (bits : UInt64)
  | float32 (bits : UInt32)
  | vector (lanes : UInt32 × UInt32 × UInt32 × UInt32)
  | vectorMask (lanes : Bool × Bool × Bool × Bool)
  | integerVector (bits : ℕ) (lanes : List ℤ)
  | integerVectorMask (bits : ℕ) (lanes : List Bool)
  | text (value : String)
  | unit
  | unbounded
  | region (store start stop : ℕ)
  | regionRejoin (store start middle stop : ℕ)
  | opaqueType (name : String)
  /-- `Value::Tag` without a payload -/
  | tagged (name : String)
  deriving DecidableEq

inductive Wrapper where
  | regionType
  | scratchType
  | resourceType (family : String)
  | deferredScratch
  | sealed (name : String)
  /-- `Value::Tag` with a payload -/
  | tag (name : String)
  deriving DecidableEq

/-- `Value`, with binders `β` and variables `ν`; closures, primitives, continuations, residual values and the other
values of functions are their identity. -/
inductive Term (β ν : Type) where
  | scalar (value : Scalar)
  | function (identity : ℕ)
  | shape (fields : List (String × Term β ν))
  | array (elements : List (Term β ν))
  | scratch (values : List (Term β ν)) (capacity : ℕ)
  | wrapped (kind : Wrapper) (inner : Term β ν)
  | emptyArray (element : Term β ν)
  | range (low high : Term β ν) (domain : Option Domain)
  | union (members : List (Term β ν))
  | arrow (deferred : Bool) (domain codomain : Term β ν) (effects : List (Term β ν)) (effectTail : Option ν)
  | typeVariable (id : ν)
  | forAll (bound : β) (body : Term β ν)
  | effect (id : ℕ) (name : String) (operations : List (String × Term β ν)) (host : Bool)
  | operation (of : Term β ν) (name : String)
  | extended (inner : Term β ν) (members : List (String × Term β ν))

abbrev Value := Term ℕ ℕ

namespace Term

variable {β β' β'' ν ν' ν'' σ τ : Type}

/-! ### Induction -/

theorem sizeOf_lt_of_mem_fields {fields : List (String × Term β ν)} {p : String × Term β ν} (h : p ∈ fields) :
    sizeOf p.2 < sizeOf fields := by
  have hlt := List.sizeOf_lt_of_mem h
  have hpair : sizeOf p = 1 + sizeOf p.1 + sizeOf p.2 := by cases p; rfl
  omega

/-- **Induction on a value**: a property of every list of parts is a property of the value made of them. -/
@[elab_as_elim, induction_eliminator]
theorem induct {P : Term β ν → Prop} (scalar : ∀ value, P (.scalar value))
    (function : ∀ identity, P (.function identity))
    (shape : ∀ fields, (∀ p ∈ fields, P p.2) → P (.shape fields))
    (array : ∀ elements, (∀ x ∈ elements, P x) → P (.array elements))
    (scratch : ∀ values capacity, (∀ x ∈ values, P x) → P (.scratch values capacity))
    (wrapped : ∀ kind inner, P inner → P (.wrapped kind inner))
    (emptyArray : ∀ element, P element → P (.emptyArray element))
    (range : ∀ low high domain, P low → P high → P (.range low high domain))
    (union : ∀ members, (∀ x ∈ members, P x) → P (.union members))
    (arrow : ∀ deferred domain codomain effects effectTail, P domain → P codomain → (∀ x ∈ effects, P x) →
      P (.arrow deferred domain codomain effects effectTail))
    (typeVariable : ∀ id, P (.typeVariable id))
    (forAll : ∀ bound body, P body → P (.forAll bound body))
    (effect : ∀ id name operations host, (∀ p ∈ operations, P p.2) → P (.effect id name operations host))
    (operation : ∀ of name, P of → P (.operation of name))
    (extended : ∀ inner members, P inner → (∀ p ∈ members, P p.2) → P (.extended inner members))
    (t : Term β ν) : P t := by
  have recurse : ∀ u : Term β ν, sizeOf u < sizeOf t → P u := fun u _ =>
    induct scalar function shape array scratch wrapped emptyArray range union arrow typeVariable forAll effect operation
      extended u
  cases t with
  | scalar value => exact scalar value
  | function identity => exact function identity
  | shape fields =>
    refine shape fields fun p hp => recurse _ ?_
    have hlt := sizeOf_lt_of_mem_fields hp
    simp only [Term.shape.sizeOf_spec]
    omega
  | array elements =>
    refine array elements fun x hx => recurse _ ?_
    have hlt := List.sizeOf_lt_of_mem hx
    simp only [Term.array.sizeOf_spec]
    omega
  | scratch values capacity =>
    refine scratch values capacity fun x hx => recurse _ ?_
    have hlt := List.sizeOf_lt_of_mem hx
    simp only [Term.scratch.sizeOf_spec]
    omega
  | wrapped kind inner => exact wrapped kind inner (recurse _ (by simp only [Term.wrapped.sizeOf_spec]; omega))
  | emptyArray element => exact emptyArray element (recurse _ (by simp only [Term.emptyArray.sizeOf_spec]; omega))
  | range low high domain =>
    refine range low high domain (recurse _ ?_) (recurse _ ?_)
    · simp only [Term.range.sizeOf_spec]
      omega
    · simp only [Term.range.sizeOf_spec]
      omega
  | union members =>
    refine union members fun x hx => recurse _ ?_
    have hlt := List.sizeOf_lt_of_mem hx
    simp only [Term.union.sizeOf_spec]
    omega
  | arrow deferred domain codomain effects effectTail =>
    refine arrow deferred domain codomain effects effectTail (recurse _ ?_) (recurse _ ?_) fun x hx => recurse _ ?_
    · simp only [Term.arrow.sizeOf_spec]
      omega
    · simp only [Term.arrow.sizeOf_spec]
      omega
    · have hlt := List.sizeOf_lt_of_mem hx
      simp only [Term.arrow.sizeOf_spec]
      omega
  | typeVariable id => exact typeVariable id
  | forAll bound body => exact forAll bound body (recurse _ (by simp only [Term.forAll.sizeOf_spec]; omega))
  | effect id name operations host =>
    refine effect id name operations host fun p hp => recurse _ ?_
    have hlt := sizeOf_lt_of_mem_fields hp
    simp only [Term.effect.sizeOf_spec]
    omega
  | operation of name => exact operation of name (recurse _ (by simp only [Term.operation.sizeOf_spec]; omega))
  | extended inner members =>
    refine extended inner members (recurse _ ?_) fun p hp => recurse _ ?_
    · simp only [Term.extended.sizeOf_spec]
      omega
    · have hlt := sizeOf_lt_of_mem_fields hp
      simp only [Term.extended.sizeOf_spec]
      omega
termination_by sizeOf t

/-! ### Walks -/

section Walk

variable (bind : σ → β → σ × β') (var : σ → ν → ν')

mutual
/-- A traversal with a state: `bind` enters a binder, `var` renames a variable. -/
def walk : σ → Term β ν → Term β' ν'
  | _, .scalar value => .scalar value
  | _, .function identity => .function identity
  | s, .shape fields => .shape (walkFields s fields)
  | s, .array elements => .array (walkAll s elements)
  | s, .scratch values capacity => .scratch (walkAll s values) capacity
  | s, .wrapped kind inner => .wrapped kind (walk s inner)
  | s, .emptyArray element => .emptyArray (walk s element)
  | s, .range low high domain => .range (walk s low) (walk s high) domain
  | s, .union members => .union (walkAll s members)
  | s, .arrow deferred domain codomain effects effectTail =>
    .arrow deferred (walk s domain) (walk s codomain) (walkAll s effects) (effectTail.map (var s))
  | s, .typeVariable id => .typeVariable (var s id)
  | s, .forAll bound body => .forAll (bind s bound).2 (walk (bind s bound).1 body)
  | s, .effect id name operations host => .effect id name (walkFields s operations) host
  | s, .operation of name => .operation (walk s of) name
  | s, .extended inner members => .extended (walk s inner) (walkFields s members)
termination_by structural _ t => t
def walkAll : σ → List (Term β ν) → List (Term β' ν')
  | _, [] => []
  | s, t :: ts => walk s t :: walkAll s ts
termination_by structural _ ts => ts
def walkFields : σ → List (String × Term β ν) → List (String × Term β' ν')
  | _, [] => []
  | s, (name, t) :: fields => (name, walk s t) :: walkFields s fields
termination_by structural _ fields => fields
end

@[simp] theorem walkAll_eq (s : σ) (ts : List (Term β ν)) : walkAll bind var s ts = ts.map (walk bind var s) := by
  induction ts with
  | nil => rfl
  | cons t ts ih => exact congrArg (walk bind var s t :: ·) ih

@[simp] theorem walkFields_eq (s : σ) (fields : List (String × Term β ν)) :
    walkFields bind var s fields = fields.map fun p => (p.1, walk bind var s p.2) := by
  induction fields with
  | nil => rfl
  | cons p fields ih => exact congrArg ((p.1, walk bind var s p.2) :: ·) ih

end Walk

/-- Two walks in a row are one walk. -/
theorem walk_walk (bind : σ → β → σ × β') (var : σ → ν → ν') (bind' : τ → β' → τ × β'') (var' : τ → ν' → ν'')
    (s : σ) (t : τ) (a : Term β ν) :
    walk bind' var' t (walk bind var s a) =
      walk (fun (st : σ × τ) b => (((bind st.1 b).1, (bind' st.2 (bind st.1 b).2).1), (bind' st.2 (bind st.1 b).2).2))
        (fun st n => var' st.2 (var st.1 n)) (s, t) a := by
  induction a generalizing s t with
  | shape fields ih => simpa [walk] using fun name x hp => ih _ hp s t
  | array elements ih => simpa [walk] using fun x hx => ih x hx s t
  | scratch values capacity ih => simpa [walk] using fun x hx => ih x hx s t
  | union members ih => simpa [walk] using fun x hx => ih x hx s t
  | arrow deferred domain codomain effects effectTail ihd ihc ih =>
    simp only [walk, walkAll_eq, ihd, ihc, List.map_map, Option.map_map]
    congr 1
    exact List.map_congr_left fun x hx => ih x hx s t
  | effect id name operations host ih => simpa [walk] using fun name x hp => ih _ hp s t
  | extended inner members ih ihm => simpa [walk, ih] using fun name x hp => ihm _ hp s t
  | wrapped kind inner ih => simp [walk, ih]
  | emptyArray element ih => simp [walk, ih]
  | range low high domain ihl ihh => simp [walk, ihl, ihh]
  | forAll bound body ih => simp [walk, ih]
  | operation of name ih => simp [walk, ih]
  | _ => rfl

theorem walk_id (a : Term β ν) : walk (fun (_ : Unit) b => ((), b)) (fun _ n => n) () a = a := by
  have hall {ts : List (Term β ν)} (h : ∀ t ∈ ts, walk (fun (_ : Unit) b => ((), b)) (fun _ n => n) () t = t) :
      ts.map (walk (fun (_ : Unit) b => ((), b)) (fun _ n => n) ()) = ts := by
    conv_rhs => rw [← List.map_id ts]
    exact List.map_congr_left h
  have hfields {fields : List (String × Term β ν)}
      (h : ∀ p ∈ fields, walk (fun (_ : Unit) b => ((), b)) (fun _ n => n) () p.2 = p.2) :
      fields.map (fun p => (p.1, walk (fun (_ : Unit) b => ((), b)) (fun _ n => n) () p.2)) = fields := by
    conv_rhs => rw [← List.map_id fields]
    exact List.map_congr_left fun p hp => Prod.ext rfl (h p hp)
  induction a with
  | shape fields ih => rw [walk, walkFields_eq, hfields ih]
  | array elements ih | scratch values capacity ih => rw [walk, walkAll_eq, hall ih]
  | wrapped kind inner ih => rw [walk, ih]
  | emptyArray element ih => rw [walk, ih]
  | range low high domain ihl ihh => rw [walk, ihl, ihh]
  | union members ih => rw [walk, walkAll_eq, hall ih]
  | arrow deferred domain codomain effects effectTail ihd ihc ih =>
    rw [walk, walkAll_eq, hall ih, ihd, ihc, Option.map_id']
  | forAll bound body ih => rw [walk, ih]
  | effect id name operations host ih => rw [walk, walkFields_eq, hfields ih]
  | operation of name ih => rw [walk, ih]
  | extended inner members ih ihm => rw [walk, walkFields_eq, hfields ihm, ih]
  | _ => rfl

/-! ### Variables -/

mutual
/-- The variables that occur. -/
def occurrences : Term β ν → List ν
  | .scalar _ | .function _ => []
  | .shape fields => occurrencesFields fields
  | .array elements => occurrencesAll elements
  | .scratch values _ => occurrencesAll values
  | .wrapped _ inner => occurrences inner
  | .emptyArray element => occurrences element
  | .range low high _ => occurrences low ++ occurrences high
  | .union members => occurrencesAll members
  | .arrow _ domain codomain effects effectTail =>
    occurrences domain ++ occurrences codomain ++ occurrencesAll effects ++ effectTail.toList
  | .typeVariable id => [id]
  | .forAll _ body => occurrences body
  | .effect _ _ operations _ => occurrencesFields operations
  | .operation of _ => occurrences of
  | .extended inner members => occurrences inner ++ occurrencesFields members
termination_by structural t => t
def occurrencesAll : List (Term β ν) → List ν
  | [] => []
  | t :: ts => occurrences t ++ occurrencesAll ts
termination_by structural ts => ts
def occurrencesFields : List (String × Term β ν) → List ν
  | [] => []
  | (_, t) :: fields => occurrences t ++ occurrencesFields fields
termination_by structural fields => fields
end

@[simp] theorem mem_occurrencesAll {ts : List (Term β ν)} {n : ν} :
    n ∈ occurrencesAll ts ↔ ∃ t ∈ ts, n ∈ occurrences t := by
  induction ts with
  | nil => exact iff_of_false List.not_mem_nil fun ⟨_, ht, _⟩ => List.not_mem_nil ht
  | cons t ts ih =>
    show n ∈ occurrences t ++ occurrencesAll ts ↔ _
    rw [List.mem_append, ih]
    simp

@[simp] theorem mem_occurrencesFields {fields : List (String × Term β ν)} {n : ν} :
    n ∈ occurrencesFields fields ↔ ∃ p ∈ fields, n ∈ occurrences p.2 := by
  induction fields with
  | nil => exact iff_of_false List.not_mem_nil fun ⟨_, hp, _⟩ => List.not_mem_nil hp
  | cons p fields ih =>
    show n ∈ occurrences p.2 ++ occurrencesFields fields ↔ _
    rw [List.mem_append, ih]
    simp

/-- Walks agree that agree on the variables that occur, in states their binders keep related. -/
theorem walk_congr {bind : σ → β → σ × β'} {var : σ → ν → ν'} {bind' : τ → β → τ × β'} {var' : τ → ν → ν'}
    (R : σ → τ → Prop) (P : ν → Prop)
    (hbind : ∀ s t b, R s t → R (bind s b).1 (bind' t b).1 ∧ (bind s b).2 = (bind' t b).2)
    (hvar : ∀ s t n, R s t → P n → var s n = var' t n) {s : σ} {t : τ} (h : R s t) (a : Term β ν)
    (ha : ∀ n ∈ occurrences a, P n) : walk bind var s a = walk bind' var' t a := by
  induction a generalizing s t with
  | scalar value => rfl
  | function identity => rfl
  | shape fields ih =>
    simp only [occurrences, mem_occurrencesFields] at ha
    simpa [walk] using fun name x hp => ih _ hp h fun n hn => ha n ⟨_, hp, hn⟩
  | array elements ih | scratch values capacity ih | union members ih =>
    simp only [occurrences, mem_occurrencesAll] at ha
    simpa [walk] using fun x hx => ih x hx h fun n hn => ha n ⟨x, hx, hn⟩
  | wrapped kind inner ih => rw [walk, walk, ih h ha]
  | emptyArray element ih => rw [walk, walk, ih h ha]
  | range low high domain ihl ihh =>
    simp only [occurrences, List.mem_append] at ha
    rw [walk, walk, ihl h fun n hn => ha n (.inl hn), ihh h fun n hn => ha n (.inr hn)]
  | arrow deferred domain codomain effects effectTail ihd ihc ih =>
    simp only [occurrences, List.mem_append, mem_occurrencesAll] at ha
    have htail : effectTail.map (var s) = effectTail.map (var' t) := by
      cases effectTail with
      | none => rfl
      | some n => exact congrArg some (hvar s t n h (ha n (.inr (by simp))))
    have heffects : effects.map (walk bind var s) = effects.map (walk bind' var' t) :=
      List.map_congr_left fun x hx => ih x hx h fun n hn => ha n (.inl (.inr ⟨x, hx, hn⟩))
    rw [walk, walk, walkAll_eq, walkAll_eq, heffects, htail, ihd h fun n hn => ha n (.inl (.inl (.inl hn))),
      ihc h fun n hn => ha n (.inl (.inl (.inr hn)))]
  | typeVariable id => rw [walk, walk, hvar s t id h (ha id List.mem_cons_self)]
  | forAll bound body ih =>
    obtain ⟨hstate, hbound⟩ := hbind s t bound h
    rw [walk, walk, ih hstate ha, hbound]
  | effect id name operations host ih =>
    simp only [occurrences, mem_occurrencesFields] at ha
    simpa [walk] using fun name x hp => ih _ hp h fun n hn => ha n ⟨_, hp, hn⟩
  | operation of name ih => rw [walk, walk, ih h ha]
  | extended inner members ih ihm =>
    simp only [occurrences, List.mem_append, mem_occurrencesFields] at ha
    have hinner := ih h fun n hn => ha n (.inl hn)
    simpa [walk, hinner] using fun name x hp => ihm _ hp h fun n hn => ha n (.inr ⟨_, hp, hn⟩)

/-! ### Size -/

mutual
/-- The number of nodes. -/
def size : Term β ν → ℕ
  | .scalar _ | .function _ | .typeVariable _ => 1
  | .shape fields => sizeFields fields + 1
  | .array elements => sizeAll elements + 1
  | .scratch values _ => sizeAll values + 1
  | .wrapped _ inner => size inner + 1
  | .emptyArray element => size element + 1
  | .range low high _ => size low + size high + 1
  | .union members => sizeAll members + 1
  | .arrow _ domain codomain effects _ => size domain + size codomain + sizeAll effects + 1
  | .forAll _ body => size body + 1
  | .effect _ _ operations _ => sizeFields operations + 1
  | .operation of _ => size of + 1
  | .extended inner members => size inner + sizeFields members + 1
termination_by structural t => t
def sizeAll : List (Term β ν) → ℕ
  | [] => 0
  | t :: ts => size t + sizeAll ts
termination_by structural ts => ts
def sizeFields : List (String × Term β ν) → ℕ
  | [] => 0
  | (_, t) :: fields => size t + sizeFields fields
termination_by structural fields => fields
end

theorem size_pos (t : Term β ν) : 0 < t.size := by
  cases t <;> simp [size]

theorem size_le_sizeAll {ts : List (Term β ν)} {t : Term β ν} (h : t ∈ ts) : t.size ≤ sizeAll ts := by
  induction ts with
  | nil => cases h
  | cons u us ih =>
    show t.size ≤ u.size + sizeAll us
    obtain rfl | h := List.mem_cons.1 h
    · omega
    · have hle := ih h
      omega

theorem size_le_sizeFields {fields : List (String × Term β ν)} {p : String × Term β ν} (h : p ∈ fields) :
    p.2.size ≤ sizeFields fields := by
  induction fields with
  | nil => cases h
  | cons q fields ih =>
    obtain ⟨name, u⟩ := q
    show p.2.size ≤ u.size + sizeFields fields
    obtain rfl | h := List.mem_cons.1 h
    · exact Nat.le_add_right _ _
    · have hle := ih h
      omega

theorem sizeAll_map {f : Term β ν → Term β' ν'} {ts : List (Term β ν)} (h : ∀ t ∈ ts, (f t).size = t.size) :
    sizeAll (ts.map f) = sizeAll ts := by
  induction ts with
  | nil => rfl
  | cons t ts ih =>
    rw [List.map_cons, sizeAll, sizeAll, h t List.mem_cons_self, ih fun u hu => h u (List.mem_cons_of_mem _ hu)]

theorem sizeFields_map {f : Term β ν → Term β' ν'} {fields : List (String × Term β ν)}
    (h : ∀ p ∈ fields, (f p.2).size = p.2.size) :
    sizeFields (fields.map fun p => (p.1, f p.2)) = sizeFields fields := by
  induction fields with
  | nil => rfl
  | cons p fields ih =>
    rw [List.map_cons, sizeFields, sizeFields, h p List.mem_cons_self, ih fun q hq => h q (List.mem_cons_of_mem _ hq)]

/-- A walk keeps the number of nodes. -/
@[simp] theorem size_walk (bind : σ → β → σ × β') (var : σ → ν → ν') (s : σ) (a : Term β ν) :
    (walk bind var s a).size = a.size := by
  induction a generalizing s with
  | shape fields ih => rw [walk, walkFields_eq, size, size, sizeFields_map fun p hp => ih p hp s]
  | array elements ih | union members ih => rw [walk, walkAll_eq, size, size, sizeAll_map fun x hx => ih x hx s]
  | scratch values capacity ih => rw [walk, walkAll_eq, size, size, sizeAll_map fun x hx => ih x hx s]
  | arrow deferred domain codomain effects effectTail ihd ihc ih =>
    rw [walk, walkAll_eq, size, size, sizeAll_map fun x hx => ih x hx s, ihd, ihc]
  | effect id name operations host ih => rw [walk, walkFields_eq, size, size, sizeFields_map fun p hp => ih p hp s]
  | extended inner members ih ihm =>
    rw [walk, walkFields_eq, size, size, sizeFields_map fun p hp => ihm p hp s, ih]
  | wrapped kind inner ih => rw [walk, size, size, ih]
  | emptyArray element ih => rw [walk, size, size, ih]
  | range low high domain ihl ihh => rw [walk, size, size, ihl, ihh]
  | forAll bound body ih => rw [walk, size, size, ih]
  | operation of name ih => rw [walk, size, size, ih]
  | _ => rfl

end Term

end Blot.TypeValues
