import Blot.Support.Checks
import Blot.TypeValues.Value

/-!
# Values up to the names of their binders

The form of a value counts its binders outwards, so that two values are the same up to the names of their binders just
when their forms are equal.

* `form` — the form of a value below binders;
* `mem_form` — its free names;
* `openAt_form`, `closeAt_form`, `closeAt_openAt` — a binder opened at a fresh name, and closed again.
-/

namespace Blot.TypeValues

/-- A variable of a form: the number of binders between it and its own, or a free name. -/
inductive Name where
  | bound (index : ℕ)
  | free (id : ℕ)
  deriving DecidableEq

abbrev Form := Term Unit Name

namespace Term

/-! ### Forms -/

/-- A variable below `binders`, innermost first. -/
def resolve (binders : List ℕ) (id : ℕ) : Name :=
  if id ∈ binders then .bound (binders.idxOf id) else .free id

/-- The form of a value below `binders`. -/
def form (binders : List ℕ) (a : Value) : Form :=
  walk (fun binders b => (b :: binders, ())) resolve binders a

section Form

variable (binders : List ℕ)

@[simp] theorem resolve_nil (id : ℕ) : resolve [] id = .free id := rfl

@[simp] theorem form_scalar (value : Scalar) : form binders (.scalar value) = .scalar value := rfl

@[simp] theorem form_function (identity : ℕ) : form binders (.function identity) = .function identity := rfl

@[simp] theorem form_shape (fields : List (String × Value)) :
    form binders (.shape fields) = .shape (fields.map fun p => (p.1, form binders p.2)) :=
  congrArg _ (walkFields_eq _ _ _ _)

@[simp] theorem form_array (elements : List Value) :
    form binders (.array elements) = .array (elements.map (form binders)) :=
  congrArg _ (walkAll_eq _ _ _ _)

@[simp] theorem form_scratch (values : List Value) (capacity : ℕ) :
    form binders (.scratch values capacity) = .scratch (values.map (form binders)) capacity :=
  congrArg (Term.scratch · capacity) (walkAll_eq _ _ _ _)

@[simp] theorem form_wrapped (kind : Wrapper) (inner : Value) :
    form binders (.wrapped kind inner) = .wrapped kind (form binders inner) := rfl

@[simp] theorem form_emptyArray (element : Value) :
    form binders (.emptyArray element) = .emptyArray (form binders element) := rfl

@[simp] theorem form_range (low high : Value) (domain : Option Domain) :
    form binders (.range low high domain) = .range (form binders low) (form binders high) domain := rfl

@[simp] theorem form_union (members : List Value) :
    form binders (.union members) = .union (members.map (form binders)) :=
  congrArg _ (walkAll_eq _ _ _ _)

@[simp] theorem form_arrow (deferred : Bool) (domain codomain : Value) (effects : List Value)
    (effectTail : Option ℕ) : form binders (.arrow deferred domain codomain effects effectTail) =
      .arrow deferred (form binders domain) (form binders codomain) (effects.map (form binders))
        (effectTail.map (resolve binders)) :=
  congrArg (Term.arrow deferred (form binders domain) (form binders codomain) · (effectTail.map (resolve binders)))
    (walkAll_eq _ _ _ _)

@[simp] theorem form_typeVariable (id : ℕ) : form binders (.typeVariable id) = .typeVariable (resolve binders id) := rfl

@[simp] theorem form_forAll (bound : ℕ) (body : Value) :
    form binders (.forAll bound body) = .forAll () (form (bound :: binders) body) := rfl

@[simp] theorem form_effect (id : ℕ) (name : String) (operations : List (String × Value)) (host : Bool) :
    form binders (.effect id name operations host) =
      .effect id name (operations.map fun p => (p.1, form binders p.2)) host :=
  congrArg (Term.effect id name · host) (walkFields_eq _ _ _ _)

@[simp] theorem form_operation (of : Value) (name : String) :
    form binders (.operation of name) = .operation (form binders of) name := rfl

@[simp] theorem form_extended (inner : Value) (members : List (String × Value)) :
    form binders (.extended inner members) =
      .extended (form binders inner) (members.map fun p => (p.1, form binders p.2)) :=
  congrArg (Term.extended (form binders inner)) (walkFields_eq _ _ _ _)

@[simp] theorem size_form (a : Value) : (form binders a).size = a.size := size_walk _ _ _ _

end Form

/-! ### Free names -/

theorem resolve_eq_free {binders : List ℕ} {id x : ℕ} : resolve binders id = .free x ↔ id = x ∧ x ∉ binders := by
  unfold resolve
  split
  · next h =>
    refine iff_of_false nofun ?_
    rintro ⟨rfl, hid⟩
    exact hid h
  · next h =>
    rw [Name.free.injEq]
    refine ⟨?_, And.left⟩
    rintro rfl
    exact ⟨rfl, h⟩

theorem exists_mem_and_iff {α : Type} {l : List α} {p q : α → Prop} {c : Prop} (h : ∀ a ∈ l, (p a ↔ q a ∧ c)) :
    (∃ a ∈ l, p a) ↔ (∃ a ∈ l, q a) ∧ c := by
  constructor
  · rintro ⟨a, ha, hp⟩
    exact ⟨⟨a, ha, ((h a ha).1 hp).1⟩, ((h a ha).1 hp).2⟩
  · rintro ⟨⟨a, ha, hq⟩, hc⟩
    exact ⟨a, ha, (h a ha).2 ⟨hq, hc⟩⟩

/-- The free names of a form below binders are those of the form at the top that are not bound. -/
theorem mem_form {binders : List ℕ} {a : Value} {x : ℕ} :
    .free x ∈ (form binders a).occurrences ↔ .free x ∈ (form [] a).occurrences ∧ x ∉ binders := by
  induction a using induct generalizing binders with
  | scalar value => simp [occurrences]
  | function identity => simp [occurrences]
  | shape fields ih | effect id name operations host ih =>
    simpa [occurrences] using exists_mem_and_iff fun p hp => @ih p hp binders
  | array elements ih | scratch values capacity ih | union members ih =>
    simpa [occurrences] using exists_mem_and_iff fun y hy => @ih y hy binders
  | wrapped kind inner ih => exact ih
  | emptyArray element ih => exact ih
  | range low high domain ihl ihh =>
    simp only [form_range, occurrences, List.mem_append]
    rw [ihl, @ihh binders, or_and_right]
  | arrow deferred domain codomain effects effectTail ihd ihc ih =>
    have heffects := exists_mem_and_iff fun y hy => @ih y hy binders
    have htail : .free x ∈ (effectTail.map (resolve binders)).toList ↔
        .free x ∈ (effectTail.map (resolve [])).toList ∧ x ∉ binders := by
      cases effectTail with
      | none => simp
      | some id => simp [eq_comm (a := Name.free x), resolve_eq_free]
    simp only [form_arrow, occurrences, List.mem_append, mem_occurrencesAll, List.mem_map, exists_exists_and_eq_and]
    rw [ihd, @ihc binders, heffects, htail, or_and_right, or_and_right, or_and_right]
  | typeVariable id => simp [occurrences, eq_comm (a := Name.free x), resolve_eq_free]
  | forAll bound body ih =>
    simp only [form_forAll, occurrences]
    rw [ih, @ih [bound], List.mem_cons, List.mem_singleton, not_or, and_assoc]
  | operation of name ih => exact ih
  | extended inner members ih ihm =>
    have hmembers := exists_mem_and_iff fun p hp => @ihm p hp binders
    simp only [form_extended, occurrences, List.mem_append, mem_occurrencesFields, List.mem_map,
      exists_exists_and_eq_and]
    rw [ih, hmembers, or_and_right]

/-- The free variables of a value, up to its binders. -/
def Free (x : ℕ) (a : Value) : Prop := .free x ∈ (form [] a).occurrences

/-- Below binders that bind none of its free variables, a value has the same form. -/
theorem form_eq_of_free {binders : List ℕ} {a : Value} (h : ∀ x ∈ binders, ¬ Free x a) :
    form binders a = form [] a := by
  have hclose : form binders a = walk (fun depth b => (depth + 1, b)) (fun depth n => match n with
      | .free x => if x ∈ binders then .bound (depth + binders.idxOf x) else .free x
      | n => n) 0 (form [] a) := by
    unfold form
    rw [walk_walk]
    refine walk_congr (fun s t => s = t.1 ++ binders ∧ t.2 = t.1.length) (fun _ => True)
      ?_ ?_ ⟨rfl, rfl⟩ a fun _ _ => trivial
    · rintro s ⟨t, depth⟩ b ⟨rfl, hdepth⟩
      exact ⟨⟨rfl, congrArg (· + 1) hdepth⟩, rfl⟩
    · rintro s ⟨t, depth⟩ id ⟨rfl, hdepth⟩ -
      dsimp only at hdepth
      subst hdepth
      by_cases hid : id ∈ t
      · simp [resolve, hid, List.idxOf_append_of_mem hid]
      · simp [resolve, hid, List.idxOf_append_of_notMem hid]
  rw [hclose]
  conv_rhs => rw [← walk_id (form [] a)]
  refine walk_congr (fun _ _ => True) (fun n => ∀ x ∈ binders, n ≠ Name.free x) ?_ ?_ trivial _ ?_
  · rintro depth - b -
    exact ⟨trivial, rfl⟩
  · rintro depth - n - hn
    cases n with
    | bound index => rfl
    | free x => exact if_neg fun hx => hn x hx rfl
  · rintro n hn x hx rfl
    exact h x hx hn

/-! ### Binders -/

/-- A free name is renamed. -/
def rename (x f : ℕ) (F : Form) : Form :=
  walk (fun _ b => ((), b)) (fun _ n => if n = .free x then .free f else n) () F

/-- The binder `depth` levels out gets the free name `f`. -/
def openAt (f depth : ℕ) (F : Form) : Form :=
  walk (fun k b => (k + 1, b)) (fun k n => if n = .bound k then .free f else n) depth F

/-- The free name `f` gets the binder `depth` levels out. -/
def closeAt (f depth : ℕ) (F : Form) : Form :=
  walk (fun k b => (k + 1, b)) (fun k n => if n = .free f then .bound k else n) depth F

theorem resolve_concat {binders : List ℕ} {x id : ℕ} (h : x ≠ id) :
    resolve (binders ++ [x]) id = resolve binders id := by
  by_cases hid : id ∈ binders
  · simp [resolve, hid, List.idxOf_append_of_mem hid]
  · simp [resolve, hid, h.symm]

theorem resolve_concat_self {binders : List ℕ} {x : ℕ} :
    resolve (binders ++ [x]) x = if x ∈ binders then resolve binders x else .bound binders.length := by
  split
  · next h => simp [resolve, h, List.idxOf_append_of_mem h]
  · next h => simp [resolve, h, List.idxOf_append_of_notMem h]

theorem resolve_ne_bound {binders : List ℕ} {id : ℕ} : resolve binders id ≠ .bound binders.length := by
  unfold resolve
  split
  · next h =>
    have hlt := List.idxOf_lt_length_of_mem h
    exact fun heq => absurd (Name.bound.inj heq) (Nat.ne_of_lt hlt)
  · nofun

/-- Opening the outermost binder at `f` renames its variable. -/
theorem openAt_form (x f : ℕ) (a : Value) : openAt f 0 (form [x] a) = rename x f (form [] a) := by
  unfold openAt rename form
  rw [walk_walk, walk_walk]
  refine walk_congr (fun s t => s.1 = t.1 ++ [x] ∧ s.2 = t.1.length) (fun _ => True)
    ?_ ?_ ⟨rfl, rfl⟩ a fun _ _ => trivial
  · rintro ⟨s, k⟩ ⟨t, u⟩ b ⟨hs, hk⟩
    exact ⟨⟨congrArg (b :: ·) hs, congrArg (· + 1) hk⟩, rfl⟩
  · rintro ⟨s, k⟩ ⟨t, u⟩ id ⟨hs, hk⟩ -
    dsimp only at hs hk ⊢
    subst hs hk
    by_cases hid : x = id
    · subst hid
      rw [resolve_concat_self]
      by_cases hx : x ∈ t
      · rw [if_pos hx, if_neg resolve_ne_bound, if_neg fun h => (resolve_eq_free.1 h).2 hx]
      · rw [if_neg hx, if_pos rfl, if_pos (resolve_eq_free.2 ⟨rfl, hx⟩)]
    · rw [resolve_concat hid, if_neg resolve_ne_bound, if_neg fun h => hid (resolve_eq_free.1 h).1.symm]

theorem closeAt_openAt {f depth : ℕ} {F : Form} (h : .free f ∉ F.occurrences) :
    closeAt f depth (openAt f depth F) = F := by
  conv_rhs => rw [← walk_id F]
  unfold closeAt openAt
  rw [walk_walk]
  refine walk_congr (fun s _ => s.1 = s.2) (fun n => n ≠ Name.free f) ?_ ?_ rfl F fun n hn heq => h (heq ▸ hn)
  · rintro ⟨s, k⟩ u b hs
    exact ⟨congrArg (· + 1) hs, rfl⟩
  · rintro ⟨s, k⟩ u n hs hn
    dsimp only at hs ⊢
    subst hs
    by_cases hk : n = .bound s
    · rw [if_pos hk, if_pos rfl, hk]
    · rw [if_neg hk, if_neg hn]

end Term

end Blot.TypeValues
