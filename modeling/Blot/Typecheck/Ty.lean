import Mathlib.Data.Finset.Basic

/-!
# Types of the checker (`typecheck.rs`)

`Ty` is the checker's `Type`.  The source interns every type into an arena (`ConstraintTypeArena`) and lets the
solver work on the identities; interning is injective on structure, so an identity is modelled by the type it
stands for and equality of identities by equality of types.  `Ty.same` is the arena's alpha-equivalence.

* `Ty.children` — the immediate structural children, with the induction principle `Ty.ind` over them;
* `Ty.levelOf`, `Ty.vars` — the level of a type and its syntactic inference variables;
* `Ty.substitute` — the one traversal behind `substitute_rigid` and `substitute_inference_variables`.
-/

namespace Blot.Typecheck

/-- `Domain`: the scalar domains of a range. -/
inductive Domain where
  | int | text | float | float32
  deriving DecidableEq

/-- `Scalar`: the endpoint of a range. -/
inductive Scalar where
  | int (value : ℤ)
  | text (value : String)
  deriving DecidableEq

/-- The derived order of `Scalar`: every integer lies below every text. -/
def Scalar.le : Scalar → Scalar → Bool
  | .int a, .int b => decide (a ≤ b)
  | .int _, .text _ => true
  | .text _, .int _ => false
  | .text a, .text b => !decide (b < a)

def lowerWithin : Option Scalar → Option Scalar → Bool
  | _, none => true
  | some left, some right => right.le left
  | none, some _ => false

def upperWithin : Option Scalar → Option Scalar → Bool
  | _, none => true
  | some left, some right => left.le right
  | none, some _ => false

/-- `MemberRequirement`: the type `subject` must have an attached `name` of type `member`. -/
structure MemberRequirement (α : Type) where
  name : String
  subject : α
  member : α
  deriving DecidableEq

/-- `Type` -/
inductive Ty where
  | var (id : ℕ)
  | rigid (id : ℕ)
  | forallType (binders : List ℕ) (body : Ty)
  | qualified (requirements : List (MemberRequirement Ty)) (body : Ty)
  | range (domain : Domain) (low high : Option Scalar)
  | unit
  | function (deferred : Bool) (parameter effects result : Ty)
  | record (fields : List (String × Ty))
  | recordUpdate (base : Ty) (fields : List (String × Ty))
  | array (element : Ty)
  | region (element : Ty)
  | scratch (element : Ty)
  | resource (family : String) (payload : Ty)
  | variant (cases : List (String × Ty)) (isOpen : Bool)
  | effects (labels : Finset String)
  | openEffects (labels : Finset String) (tail : Ty)
  | union (members : List Ty)
  | opaqueType (name : String)
  | top
  | bottom

/-- `ConstraintTypeRow::get`: the first entry of that name. -/
def rowGet (fields : List (String × Ty)) (name : String) : Option Ty :=
  fields.lookup name

namespace Ty

def children : Ty → List Ty
  | .forallType _ body => [body]
  | .qualified rs body => (rs.flatMap fun r => [r.subject, r.member]) ++ [body]
  | .function _ p e r => [p, e, r]
  | .record fields => fields.map Prod.snd
  | .recordUpdate base fields => base :: fields.map Prod.snd
  | .array element => [element]
  | .region element => [element]
  | .scratch element => [element]
  | .resource _ payload => [payload]
  | .variant entries _ => entries.map Prod.snd
  | .openEffects _ tail => [tail]
  | .union members => members
  | _ => []

theorem sizeOf_lt_of_mem_row {fields : List (String × Ty)} {c : Ty} (h : c ∈ fields.map Prod.snd) :
    sizeOf c < sizeOf fields := by
  obtain ⟨p, hp, rfl⟩ := List.mem_map.1 h
  have h1 := List.sizeOf_lt_of_mem hp
  have h2 : sizeOf p = 1 + sizeOf p.1 + sizeOf p.2 := by cases p; rfl
  omega

theorem sizeOf_lt_of_mem_requirements {rs : List (MemberRequirement Ty)} {c : Ty}
    (h : c ∈ rs.flatMap fun r => [r.subject, r.member]) : sizeOf c < sizeOf rs := by
  obtain ⟨r, hr, hc⟩ := List.mem_flatMap.1 h
  have h1 := List.sizeOf_lt_of_mem hr
  have h2 : sizeOf r = 1 + sizeOf r.name + sizeOf r.subject + sizeOf r.member := by cases r; rfl
  simp only [List.mem_cons, List.not_mem_nil, or_false] at hc
  rcases hc with rfl | rfl <;> omega

theorem sizeOf_child_lt {t c : Ty} (h : c ∈ t.children) : sizeOf c < sizeOf t := by
  cases t with
  | qualified rs body =>
    simp only [children, List.mem_append, List.mem_singleton] at h
    simp only [qualified.sizeOf_spec]
    rcases h with h | rfl
    · have := sizeOf_lt_of_mem_requirements h; omega
    · omega
  | record fields =>
    have := @sizeOf_lt_of_mem_row fields _ h
    simp only [record.sizeOf_spec]; omega
  | recordUpdate base fields =>
    simp only [recordUpdate.sizeOf_spec]
    rcases List.mem_cons.1 h with rfl | h
    · omega
    · have := sizeOf_lt_of_mem_row h; omega
  | variant entries isOpen =>
    have := @sizeOf_lt_of_mem_row entries _ h
    simp only [variant.sizeOf_spec]; omega
  | union members =>
    have := @List.sizeOf_lt_of_mem _ _ _ members h
    simp only [union.sizeOf_spec]; omega
  | function d p e r =>
    simp only [children, List.mem_cons, List.not_mem_nil, or_false] at h
    simp only [function.sizeOf_spec]
    rcases h with rfl | rfl | rfl <;> omega
  | forallType _ _ | array _ | region _ | scratch _ | resource _ _ | openEffects _ _ =>
    obtain rfl := List.mem_singleton.1 h
    simp; try omega
  | _ => exact absurd h (List.not_mem_nil)

/-- **Induction on a type**: a property that every type inherits from its children holds of every type. -/
theorem ind {P : Ty → Prop} (h : ∀ t, (∀ c ∈ t.children, P c) → P t) (t : Ty) : P t :=
  h t fun c hc => have := sizeOf_child_lt hc; ind h c
termination_by sizeOf t

/-! ### Structural equality: equality of interned identities -/

mutual
/-- Equality of the interned identities. -/
def beq : Ty → Ty → Bool
  | .var a, .var b => decide (a = b)
  | .rigid a, .rigid b => decide (a = b)
  | .forallType vs a, .forallType ws b => decide (vs = ws) && beq a b
  | .qualified rs a, .qualified qs b => beqRequirements rs qs && beq a b
  | .range d l h, .range d' l' h' => decide (d = d') && decide (l = l') && decide (h = h')
  | .unit, .unit => true
  | .function d p e r, .function d' p' e' r' => decide (d = d') && beq p p' && beq e e' && beq r r'
  | .record fs, .record gs => beqRow fs gs
  | .recordUpdate a fs, .recordUpdate b gs => beq a b && beqRow fs gs
  | .array a, .array b => beq a b
  | .region a, .region b => beq a b
  | .scratch a, .scratch b => beq a b
  | .resource f a, .resource g b => decide (f = g) && beq a b
  | .variant fs o, .variant gs o' => beqRow fs gs && decide (o = o')
  | .effects a, .effects b => decide (a = b)
  | .openEffects l a, .openEffects m b => decide (l = m) && beq a b
  | .union ms, .union ns => beqList ms ns
  | .opaqueType a, .opaqueType b => decide (a = b)
  | .top, .top => true
  | .bottom, .bottom => true
  | _, _ => false
termination_by structural t => t
def beqRow : List (String × Ty) → List (String × Ty) → Bool
  | [], [] => true
  | (n, a) :: fs, (m, b) :: gs => decide (n = m) && beq a b && beqRow fs gs
  | _, _ => false
termination_by structural fs => fs
def beqList : List Ty → List Ty → Bool
  | [], [] => true
  | a :: as, b :: bs => beq a b && beqList as bs
  | _, _ => false
termination_by structural ts => ts
def beqRequirements : List (MemberRequirement Ty) → List (MemberRequirement Ty) → Bool
  | [], [] => true
  | r :: rs, q :: qs =>
    decide (r.name = q.name) && beq r.subject q.subject && beq r.member q.member && beqRequirements rs qs
  | _, _ => false
termination_by structural rs => rs
end

theorem beqRow_iff {fs : List (String × Ty)} (ih : ∀ c ∈ fs.map Prod.snd, ∀ b, beq c b = true ↔ c = b) :
    ∀ gs, beqRow fs gs = true ↔ fs = gs := by
  induction fs with
  | nil => intro gs; cases gs <;> simp [beqRow]
  | cons p fs ihl =>
    intro gs
    obtain ⟨n, a⟩ := p
    rcases gs with _ | ⟨⟨m, b⟩, gs⟩
    · simp [beqRow]
    · simp [beqRow, ih a (by simp) b, ihl (fun c hc => ih c (List.mem_cons_of_mem _ hc)) gs]

theorem beqList_iff {ts : List Ty} (ih : ∀ c ∈ ts, ∀ b, beq c b = true ↔ c = b) :
    ∀ us, beqList ts us = true ↔ ts = us := by
  induction ts with
  | nil => intro us; cases us <;> simp [beqList]
  | cons a ts ihl =>
    intro us
    rcases us with _ | ⟨b, us⟩
    · simp [beqList]
    · simp [beqList, ih a (by simp) b, ihl (fun c hc => ih c (List.mem_cons_of_mem _ hc)) us]

theorem beqRequirements_iff {rs : List (MemberRequirement Ty)}
    (ih : ∀ c ∈ rs.flatMap (fun r => [r.subject, r.member]), ∀ b, beq c b = true ↔ c = b) :
    ∀ qs, beqRequirements rs qs = true ↔ rs = qs := by
  induction rs with
  | nil => intro qs; cases qs <;> simp [beqRequirements]
  | cons r rs ihl =>
    intro qs
    obtain ⟨n, s, m⟩ := r
    rcases qs with _ | ⟨⟨n', s', m'⟩, qs⟩
    · simp [beqRequirements]
    · simp [beqRequirements, ih s (by simp) s', ih m (by simp) m', and_assoc,
        ihl (fun c hc => ih c (by rw [List.flatMap_cons]; exact List.mem_append_right _ hc)) qs]

theorem beq_iff (a b : Ty) : beq a b = true ↔ a = b := by
  induction a using ind generalizing b with
  | h a ih =>
    cases a with
    | qualified rs t =>
      cases b with
      | qualified qs u =>
        have hrs := beqRequirements_iff (fun c hc => ih c (List.mem_append_left _ hc)) qs
        simp [beq, hrs, ih t (by simp [children])]
      | _ => exact iff_of_false Bool.false_ne_true (by rintro ⟨⟩)
    | record fs =>
      cases b with
      | record gs => simp [beq, beqRow_iff ih]
      | _ => exact iff_of_false Bool.false_ne_true (by rintro ⟨⟩)
    | recordUpdate t fs =>
      cases b with
      | recordUpdate u gs =>
        have hfs := beqRow_iff (fun c hc => ih c (List.mem_cons_of_mem _ hc)) gs
        simp [beq, hfs, ih t (by simp [children])]
      | _ => exact iff_of_false Bool.false_ne_true (by rintro ⟨⟩)
    | variant fs o =>
      cases b with
      | variant gs o' => simp [beq, beqRow_iff ih]
      | _ => exact iff_of_false Bool.false_ne_true (by rintro ⟨⟩)
    | union ms =>
      cases b with
      | union ns => simp [beq, @beqList_iff ms ih]
      | _ => exact iff_of_false Bool.false_ne_true (by rintro ⟨⟩)
    | _ =>
      cases b
      all_goals first
        | exact iff_of_false Bool.false_ne_true (by rintro ⟨⟩)
        | simp_all [beq, children, and_assoc]

instance : DecidableEq Ty := fun a b => decidable_of_iff _ (beq_iff a b)

/-! ### Alpha-equivalence -/

def boundLeft (rigids : List (ℕ × ℕ)) (right : ℕ) : Option ℕ :=
  (rigids.find? fun p => p.2 = right).map Prod.fst

/-- Two rigid identities under the binder pairs `rigids`, innermost first. -/
def sameRigid (rigids : List (ℕ × ℕ)) (left right : ℕ) : Bool :=
  match boundLeft rigids right with
  | some bound => decide (bound = left)
  | none => if rigids.any (fun p => p.1 = left ∨ p.2 = right) then false else decide (left = right)

mutual
def sameWithRigids (rigids : List (ℕ × ℕ)) (left right : Ty) : Bool :=
  if left = right then true else
  match left, right with
  | .qualified rs a, .qualified qs b =>
    decide (rs.length = qs.length) && sameWithRigids rigids a b && sameRequirements rigids rs qs
  | .var a, .var b => decide (a = b)
  | .rigid a, .rigid b => sameRigid rigids a b
  | .forallType vs a, .forallType ws b =>
    decide (vs.length = ws.length) && sameWithRigids ((vs.zip ws).reverse ++ rigids) a b
  | .unit, .unit => true
  | .top, .top => true
  | .bottom, .bottom => true
  | .opaqueType a, .opaqueType b => decide (a = b)
  | .range d l h, .range d' l' h' => decide (d = d') && decide (l = l') && decide (h = h')
  | .effects a, .effects b => decide (a = b)
  | .openEffects l a, .openEffects m b => decide (l = m) && sameWithRigids rigids a b
  | .function d p e r, .function d' p' e' r' =>
    decide (d = d') && sameWithRigids rigids p p' && sameWithRigids rigids e e' && sameWithRigids rigids r r'
  | .record fs, .record gs => decide (fs.length = gs.length) && sameFields rigids fs gs
  | .recordUpdate a fs, .recordUpdate b gs =>
    sameWithRigids rigids a b && decide (fs.length = gs.length) && sameFields rigids fs gs
  | .array a, .array b => sameWithRigids rigids a b
  | .region a, .region b => sameWithRigids rigids a b
  | .scratch a, .scratch b => sameWithRigids rigids a b
  | .resource f a, .resource g b => decide (f = g) && sameWithRigids rigids a b
  | .variant fs o, .variant gs o' => decide (o = o') && decide (fs.length = gs.length) && sameFields rigids fs gs
  | .union ms, .union ns => decide (ms.length = ns.length) && sameMembers rigids ms ns
  | _, _ => false
termination_by structural left
/-- `same_fields`, its length test apart -/
def sameFields (rigids : List (ℕ × ℕ)) (left right : List (String × Ty)) : Bool :=
  match left with
  | [] => true
  | (name, t) :: rest =>
    (match rowGet right name with
      | some candidate => sameWithRigids rigids t candidate
      | none => false) && sameFields rigids rest right
termination_by structural left
/-- Every member of `left` has an equivalent in `right`. -/
def sameMembers (rigids : List (ℕ × ℕ)) (left right : List Ty) : Bool :=
  match left with
  | [] => true
  | member :: rest =>
      right.any (fun candidate => sameWithRigids rigids member candidate) && sameMembers rigids rest right
termination_by structural left
def sameRequirements (rigids : List (ℕ × ℕ)) (left right : List (MemberRequirement Ty)) : Bool :=
  match left, right with
  | [], _ => true
  | _, [] => true
  | r :: rs, q :: qs =>
    decide (r.name = q.name) && sameWithRigids rigids r.subject q.subject &&
      sameWithRigids rigids r.member q.member && sameRequirements rigids rs qs
termination_by structural left
end

def same (left right : Ty) : Bool := sameWithRigids [] left right

theorem same_refl (t : Ty) : same t t = true := by
  unfold same sameWithRigids; simp

theorem same_var {a : ℕ} {t : Ty} : same t (.var a) = true ↔ t = .var a := by
  unfold same sameWithRigids
  cases t <;> simp

/-! ### Variables and levels -/

mutual
/-- `syntactic_type_variables` -/
def vars : Ty → List ℕ
  | .var id => [id]
  | .forallType _ body => vars body
  | .qualified rs body => requirementVars rs ++ vars body
  | .function _ p e r => vars p ++ vars e ++ vars r
  | .record fields => rowVars fields
  | .recordUpdate base fields => vars base ++ rowVars fields
  | .array element => vars element
  | .region element => vars element
  | .scratch element => vars element
  | .resource _ payload => vars payload
  | .variant entries _ => rowVars entries
  | .openEffects _ tail => vars tail
  | .union members => memberVars members
  | _ => []
def rowVars : List (String × Ty) → List ℕ
  | [] => []
  | (_, t) :: rest => vars t ++ rowVars rest
def memberVars : List Ty → List ℕ
  | [] => []
  | t :: rest => vars t ++ memberVars rest
def requirementVars : List (MemberRequirement Ty) → List ℕ
  | [] => []
  | r :: rest => vars r.subject ++ vars r.member ++ requirementVars rest
end

mutual
/-- `level_of`: the deepest level of a variable of the type, `0` where it has none. -/
def levelOf (level : ℕ → ℕ) : Ty → ℕ
  | .var id => level id
  | .forallType _ body => levelOf level body
  | .qualified rs body => max (requirementsLevelOf level rs) (levelOf level body)
  | .function _ p e r => max (max (levelOf level p) (levelOf level e)) (levelOf level r)
  | .record fields => rowLevelOf level fields
  | .recordUpdate base fields => max (rowLevelOf level fields) (levelOf level base)
  | .array element => levelOf level element
  | .region element => levelOf level element
  | .scratch element => levelOf level element
  | .resource _ payload => levelOf level payload
  | .variant entries _ => rowLevelOf level entries
  | .openEffects _ tail => levelOf level tail
  | .union members => membersLevelOf level members
  | _ => 0
def rowLevelOf (level : ℕ → ℕ) : List (String × Ty) → ℕ
  | [] => 0
  | (_, t) :: rest => max (levelOf level t) (rowLevelOf level rest)
def membersLevelOf (level : ℕ → ℕ) : List Ty → ℕ
  | [] => 0
  | t :: rest => max (levelOf level t) (membersLevelOf level rest)
def requirementsLevelOf (level : ℕ → ℕ) : List (MemberRequirement Ty) → ℕ
  | [] => 0
  | r :: rest => max (max (levelOf level r.subject) (levelOf level r.member)) (requirementsLevelOf level rest)
end

theorem rowVars_eq (fields : List (String × Ty)) : rowVars fields = (fields.map Prod.snd).flatMap vars := by
  induction fields with
  | nil => rfl
  | cons p fields ih => simp [rowVars, ih]

theorem memberVars_eq (members : List Ty) : memberVars members = members.flatMap vars := by
  induction members with
  | nil => rfl
  | cons t members ih => simp [memberVars, ih]

theorem requirementVars_eq (rs : List (MemberRequirement Ty)) :
    requirementVars rs = (rs.flatMap fun r => [r.subject, r.member]).flatMap vars := by
  induction rs with
  | nil => rfl
  | cons r rs ih => simp [requirementVars, ih]

/-- The variables of a structural type are the variables of its children. -/
theorem vars_eq_children {t : Ty} (h : ∀ id, t ≠ .var id) : t.vars = t.children.flatMap vars := by
  cases t with
  | var id => exact absurd rfl (h id)
  | _ => simp [vars, children, rowVars_eq, memberVars_eq, requirementVars_eq]

theorem rowLevelOf_le {level : ℕ → ℕ} {n : ℕ} (fields : List (String × Ty)) :
    rowLevelOf level fields ≤ n ↔ ∀ c ∈ fields.map Prod.snd, levelOf level c ≤ n := by
  induction fields with
  | nil => simp [rowLevelOf]
  | cons p fields ih => simp only [rowLevelOf, max_le_iff, ih, List.map_cons, List.forall_mem_cons]

theorem membersLevelOf_le {level : ℕ → ℕ} {n : ℕ} (members : List Ty) :
    membersLevelOf level members ≤ n ↔ ∀ c ∈ members, levelOf level c ≤ n := by
  induction members with
  | nil => simp [membersLevelOf]
  | cons t members ih => simp only [membersLevelOf, max_le_iff, ih, List.forall_mem_cons]

theorem requirementsLevelOf_le {level : ℕ → ℕ} {n : ℕ} (rs : List (MemberRequirement Ty)) :
    requirementsLevelOf level rs ≤ n ↔ ∀ c ∈ rs.flatMap fun r => [r.subject, r.member], levelOf level c ≤ n := by
  induction rs with
  | nil => simp [requirementsLevelOf]
  | cons r rs ih => simp [requirementsLevelOf, ih]

theorem levelOf_le_children {level : ℕ → ℕ} {t : Ty} {n : ℕ} (h : ∀ id, t ≠ .var id) :
    levelOf level t ≤ n ↔ ∀ c ∈ t.children, levelOf level c ≤ n := by
  cases t with
  | var id => exact absurd rfl (h id)
  | qualified rs body =>
    simp only [levelOf, children, max_le_iff, requirementsLevelOf_le, List.forall_mem_append, List.forall_mem_singleton]
  | record fields => exact rowLevelOf_le fields
  | variant entries isOpen => exact rowLevelOf_le entries
  | union members => exact membersLevelOf_le members
  | recordUpdate base fields =>
    simp only [levelOf, children, max_le_iff, rowLevelOf_le, List.forall_mem_cons, and_comm]
  | _ => simp [levelOf, children]

/-- **The level of a type bounds the levels of its variables**, and is the least bound. -/
theorem levelOf_le {level : ℕ → ℕ} {t : Ty} {n : ℕ} : levelOf level t ≤ n ↔ ∀ v ∈ t.vars, level v ≤ n := by
  induction t using ind with
  | h t ih =>
    by_cases h : ∃ id, t = .var id
    · obtain ⟨id, rfl⟩ := h
      simp [levelOf, vars]
    · have h : ∀ id, t ≠ .var id := fun id e => h ⟨id, e⟩
      rw [levelOf_le_children h, vars_eq_children h]
      constructor
      · intro hc v hv
        obtain ⟨c, hc', hv⟩ := List.mem_flatMap.1 hv
        exact (ih c hc').1 (hc c hc') v hv
      · intro hv c hc
        exact (ih c hc).2 fun v hv' => hv v (List.mem_flatMap.2 ⟨c, hc, hv'⟩)

/-- The variables of a type are among the first `n`. -/
def InScope (n : ℕ) (t : Ty) : Prop := ∀ v ∈ t.vars, v < n

instance (n : ℕ) (t : Ty) : Decidable (t.InScope n) := inferInstanceAs (Decidable (∀ v ∈ t.vars, v < n))

theorem InScope.mono {n m : ℕ} {t : Ty} (h : t.InScope n) (hnm : n ≤ m) : t.InScope m :=
  fun v hv => lt_of_lt_of_le (h v hv) hnm

theorem inScope_var {n id : ℕ} (h : id < n) : (Ty.var id).InScope n := fun v hv => by
  obtain rfl := List.mem_singleton.1 hv
  exact h

theorem mem_vars_of_child {t c : Ty} (hc : c ∈ t.children) {v : ℕ} (hv : v ∈ c.vars) : v ∈ t.vars := by
  have h : ∀ id, t ≠ .var id := by
    rintro id rfl
    exact absurd hc List.not_mem_nil
  rw [vars_eq_children h]
  exact List.mem_flatMap.2 ⟨c, hc, hv⟩

/-- What holds of the variables of the children holds of the variables of a structural type. -/
theorem forall_vars_of_children {p : ℕ → Prop} {t : Ty} (h : ∀ id, t ≠ .var id)
    (hc : ∀ c ∈ t.children, ∀ v ∈ c.vars, p v) : ∀ v ∈ t.vars, p v := by
  intro v hv
  rw [vars_eq_children h] at hv
  obtain ⟨c, hmem, hv⟩ := List.mem_flatMap.1 hv
  exact hc c hmem v hv

/-- A property of a type and of every type inside it. -/
inductive Hereditarily (p : Ty → Prop) : Ty → Prop where
  | intro {t : Ty} (here : p t) (inside : ∀ c ∈ t.children, Hereditarily p c) : Hereditarily p t

theorem Hereditarily.here {p : Ty → Prop} {t : Ty} (h : Hereditarily p t) : p t := by
  cases h with
  | intro here _ => exact here

theorem Hereditarily.child {p : Ty → Prop} {t c : Ty} (h : Hereditarily p t) (hc : c ∈ t.children) :
    Hereditarily p c := by
  cases h with
  | intro _ inside => exact inside c hc

/-! ### Substitution -/

mutual
/-- Replaces the inference variables by `onVar` and the rigids by `onRigid`, which is told the binders in scope. -/
def substitute (onVar : ℕ → Ty) (onRigid : List ℕ → ℕ → Ty) (bound : List ℕ) : Ty → Ty
  | .var id => onVar id
  | .rigid id => onRigid bound id
  | .forallType vs body => .forallType vs (substitute onVar onRigid (bound ++ vs) body)
  | .qualified rs body =>
    .qualified (substituteRequirements onVar onRigid bound rs) (substitute onVar onRigid bound body)
  | .function d p e r =>
    .function d (substitute onVar onRigid bound p) (substitute onVar onRigid bound e)
      (substitute onVar onRigid bound r)
  | .record fields => .record (substituteRow onVar onRigid bound fields)
  | .recordUpdate base fields =>
    .recordUpdate (substitute onVar onRigid bound base) (substituteRow onVar onRigid bound fields)
  | .array element => .array (substitute onVar onRigid bound element)
  | .region element => .region (substitute onVar onRigid bound element)
  | .scratch element => .scratch (substitute onVar onRigid bound element)
  | .resource family payload => .resource family (substitute onVar onRigid bound payload)
  | .variant entries isOpen => .variant (substituteRow onVar onRigid bound entries) isOpen
  | .openEffects labels tail => .openEffects labels (substitute onVar onRigid bound tail)
  | .union members => .union (substituteMembers onVar onRigid bound members)
  | t => t
def substituteRow (onVar : ℕ → Ty) (onRigid : List ℕ → ℕ → Ty) (bound : List ℕ) :
    List (String × Ty) → List (String × Ty)
  | [] => []
  | (name, t) :: rest => (name, substitute onVar onRigid bound t) :: substituteRow onVar onRigid bound rest
def substituteMembers (onVar : ℕ → Ty) (onRigid : List ℕ → ℕ → Ty) (bound : List ℕ) : List Ty → List Ty
  | [] => []
  | t :: rest => substitute onVar onRigid bound t :: substituteMembers onVar onRigid bound rest
def substituteRequirements (onVar : ℕ → Ty) (onRigid : List ℕ → ℕ → Ty) (bound : List ℕ) :
    List (MemberRequirement Ty) → List (MemberRequirement Ty)
  | [] => []
  | r :: rest =>
    ⟨r.name, substitute onVar onRigid bound r.subject, substitute onVar onRigid bound r.member⟩ ::
      substituteRequirements onVar onRigid bound rest
end

/-- `substitute_rigid`: a rigid under its own binder stays. -/
def substituteRigid (replacements : List (ℕ × Ty)) (t : Ty) : Ty :=
  substitute .var (fun bound id => if id ∈ bound then .rigid id else (replacements.lookup id).getD (.rigid id)) [] t

end Ty

end Blot.Typecheck
