import Blot.Support.Checks
import Blot.Typecheck.Ty

/-!
# Flat types (`typecheck.rs`, `FlatTypeArena`)

A checked interface keeps its types in an arena: a list of nodes that name their children by position.

* `FlatTypeNode` with its `children`, and its parts: the children in fixed places, the row, the members of a union;
* `FlatTypeNode.assemble` — a node with its children replaced, in their order;
* `Building.intern` — adds a node that is not there yet;
* `validateCertificateType` — children lie before their parent, rigids are bound and no binder is bound again.
-/

namespace Blot.Boundary

open Blot.Support Blot.Typecheck

inductive FlatTypeNode where
  | rigid (id : ℕ)
  | forallType (binders : List ℕ) (body : ℕ)
  | qualified (requirements : List (MemberRequirement ℕ)) (body : ℕ)
  | range (domain : Domain) (low high : Option Scalar)
  | unit
  | function (deferred : Bool) (parameter effects result : ℕ)
  | record (fields : List (String × ℕ))
  | recordUpdate (base : ℕ) (fields : List (String × ℕ))
  | array (element : ℕ)
  | region (element : ℕ)
  | scratch (element : ℕ)
  | resource (family : String) (payload : ℕ)
  | variant (cases : List (String × ℕ)) (isOpen : Bool)
  | effects (labels : Finset String)
  | openEffects (labels : Finset String) (tail : ℕ)
  | union (members : List ℕ)
  | opaqueType (name : String)
  | top
  | bottom
  deriving DecidableEq

namespace FlatTypeNode

/-- `append_flat_type_children` -/
def children : FlatTypeNode → List ℕ
  | .forallType _ body => [body]
  | .qualified rs body => body :: rs.flatMap fun r => [r.subject, r.member]
  | .function _ p e r => [p, e, r]
  | .record fields => fields.map Prod.snd
  | .variant entries _ => entries.map Prod.snd
  | .recordUpdate base fields => base :: fields.map Prod.snd
  | .array element => [element]
  | .region element => [element]
  | .scratch element => [element]
  | .resource _ payload => [payload]
  | .openEffects _ tail => [tail]
  | .union members => members
  | _ => []

def assembleRow (fields : List (String × ℕ)) (children : List ℕ) : List (String × ℕ) :=
  List.zipWith (fun f child => (f.1, child)) fields children

def assembleRequirements : List (MemberRequirement ℕ) → List ℕ → List (MemberRequirement ℕ)
  | r :: rs, subject :: member :: children => ⟨r.name, subject, member⟩ :: assembleRequirements rs children
  | _, _ => []

/-- A node with its children replaced, in their order (the arms of `Frame::Assemble`). -/
def assemble : FlatTypeNode → List ℕ → FlatTypeNode
  | .qualified rs _, body :: children => .qualified (assembleRequirements rs children) body
  | .function deferred _ _ _, [p, e, r] => .function deferred p e r
  | .record fields, children => .record (assembleRow fields children)
  | .recordUpdate _ fields, base :: children => .recordUpdate base (assembleRow fields children)
  | .array _, [element] => .array element
  | .region _, [element] => .region element
  | .scratch _, [element] => .scratch element
  | .resource family _, [payload] => .resource family payload
  | .variant entries isOpen, children => .variant (assembleRow entries children) isOpen
  | .openEffects labels _, [tail] => .openEffects labels tail
  | .union _, children => .union children
  | node, _ => node

/-! ### The parts of a node -/

def head : FlatTypeNode → FlatTypeNode
  | .rigid _ => .rigid 0
  | .forallType _ _ => .forallType [] 0
  | .qualified rs _ => .qualified (rs.map fun r => ⟨r.name, 0, 0⟩) 0
  | .function deferred _ _ _ => .function deferred 0 0 0
  | .record _ => .record []
  | .recordUpdate _ _ => .recordUpdate 0 []
  | .array _ => .array 0
  | .region _ => .region 0
  | .scratch _ => .scratch 0
  | .resource family _ => .resource family 0
  | .variant _ isOpen => .variant [] isOpen
  | .openEffects labels _ => .openEffects labels 0
  | .union _ => .union []
  | node => node

def fixed : FlatTypeNode → List ℕ
  | .forallType _ body => [body]
  | .qualified rs body => body :: rs.flatMap fun r => [r.subject, r.member]
  | .function _ p e r => [p, e, r]
  | .recordUpdate base _ => [base]
  | .array element => [element]
  | .region element => [element]
  | .scratch element => [element]
  | .resource _ payload => [payload]
  | .openEffects _ tail => [tail]
  | _ => []

def row : FlatTypeNode → List (String × ℕ)
  | .record fields => fields
  | .recordUpdate _ fields => fields
  | .variant entries _ => entries
  | _ => []

def members : FlatTypeNode → List ℕ
  | .union members => members
  | _ => []

theorem children_eq (node : FlatTypeNode) :
    node.children = node.fixed ++ (node.row.map Prod.snd ++ node.members) := by
  cases node <;> simp [children, fixed, row, members]

theorem mem_children_of_fixed {node : FlatTypeNode} {child : ℕ} (h : child ∈ node.fixed) : child ∈ node.children := by
  rw [children_eq]
  exact List.mem_append_left _ h

theorem mem_children_of_row {node : FlatTypeNode} {f : String × ℕ} (h : f ∈ node.row) : f.2 ∈ node.children := by
  rw [children_eq]
  exact List.mem_append_right _ (List.mem_append_left _ (List.mem_map_of_mem h))

theorem mem_children_of_member {node : FlatTypeNode} {child : ℕ} (h : child ∈ node.members) :
    child ∈ node.children := by
  rw [children_eq]
  exact List.mem_append_right _ (List.mem_append_right _ h)

theorem assembleRow_map {fields : List (String × ℕ)} {types : List ℕ} (h : types.length = fields.length) :
    (assembleRow fields types).map Prod.snd = types ∧
      (assembleRow fields types).map Prod.fst = fields.map Prod.fst := by
  induction fields generalizing types with
  | nil =>
    obtain rfl := List.eq_nil_of_length_eq_zero h
    exact ⟨rfl, rfl⟩
  | cons f fields ih =>
    cases types with
    | nil => exact absurd h (Nat.succ_ne_zero _).symm
    | cons t types =>
      obtain ⟨htypes, hnames⟩ := ih (Nat.succ.inj h)
      unfold assembleRow at htypes hnames ⊢
      simp only [List.zipWith_cons_cons, List.map_cons, htypes, hnames]
      exact ⟨trivial, trivial⟩

theorem assembleRequirements_map {rs : List (MemberRequirement ℕ)} {types : List ℕ}
    (h : types.length = (rs.flatMap fun r => [r.subject, r.member]).length) :
    ((assembleRequirements rs types).flatMap fun r => [r.subject, r.member]) = types ∧
      ((assembleRequirements rs types).map fun r => (⟨r.name, 0, 0⟩ : MemberRequirement ℕ)) =
        rs.map fun r => ⟨r.name, 0, 0⟩ := by
  induction rs generalizing types with
  | nil =>
    obtain rfl := List.eq_nil_of_length_eq_zero h
    exact ⟨rfl, rfl⟩
  | cons r rs ih =>
    match types with
    | [] => simp at h
    | [_] => simp at h
    | s :: m :: types =>
      have hlen : types.length = (rs.flatMap fun r => [r.subject, r.member]).length := by simpa using h
      obtain ⟨htypes, hnames⟩ := ih hlen
      rw [assembleRequirements, List.flatMap_cons, List.map_cons, List.map_cons, htypes, hnames]
      exact ⟨rfl, rfl⟩

/-- A node takes one type for each child: its head stays, and its parts are those types. -/
theorem assemble_parts {node : FlatTypeNode} {types : List ℕ} (h : types.length = node.children.length)
    (hplain : ∀ vs body, node ≠ .forallType vs body) :
    (node.assemble types).head = node.head ∧ (node.assemble types).children = types ∧
      (node.assemble types).row.map Prod.fst = node.row.map Prod.fst := by
  cases node with
  | forallType vs body => exact absurd rfl (hplain vs body)
  | qualified rs body =>
    cases types with
    | nil => exact absurd h (Nat.succ_ne_zero _).symm
    | cons t types =>
      obtain ⟨htypes, hnames⟩ := assembleRequirements_map (Nat.succ.inj h)
      exact ⟨by rw [assemble, head, hnames]; rfl, by rw [assemble, children, htypes], rfl⟩
  | record fields | variant entries isOpen =>
    obtain ⟨htypes, hnames⟩ := assembleRow_map (h.trans (List.length_map ..))
    exact ⟨rfl, htypes, hnames⟩
  | recordUpdate base fields =>
    cases types with
    | nil => exact absurd h (Nat.succ_ne_zero _).symm
    | cons t types =>
      obtain ⟨htypes, hnames⟩ := assembleRow_map ((Nat.succ.inj h).trans (List.length_map ..))
      exact ⟨rfl, congrArg (t :: ·) htypes, hnames⟩
  | function deferred p e r =>
    match types, h with
    | [_, _, _], _ => exact ⟨rfl, rfl, rfl⟩
  | array element | region element | scratch element | resource family element | openEffects labels element =>
    match types, h with
    | [_], _ => exact ⟨rfl, rfl, rfl⟩
  | union members => exact ⟨rfl, rfl, rfl⟩
  | rigid _ | range _ _ _ | unit | effects _ | opaqueType _ | top | bottom =>
    obtain rfl := List.eq_nil_of_length_eq_zero h
    exact ⟨rfl, rfl, rfl⟩

theorem row_ext {fs gs : List (String × ℕ)} (hnames : fs.map Prod.fst = gs.map Prod.fst)
    (htypes : fs.map Prod.snd = gs.map Prod.snd) : fs = gs := by
  induction fs generalizing gs with
  | nil => exact (List.map_eq_nil_iff.1 hnames.symm).symm
  | cons f fs ih =>
    cases gs with
    | nil => exact nomatch hnames
    | cons g gs =>
      obtain ⟨hname, hnames⟩ := List.cons.inj hnames
      obtain ⟨htype, htypes⟩ := List.cons.inj htypes
      rw [Prod.ext hname htype, ih hnames htypes]

theorem requirements_ext {rs qs : List (MemberRequirement ℕ)}
    (hnames : rs.map (fun r => (⟨r.name, 0, 0⟩ : MemberRequirement ℕ)) = qs.map fun q => ⟨q.name, 0, 0⟩)
    (htypes : (rs.flatMap fun r => [r.subject, r.member]) = qs.flatMap fun q => [q.subject, q.member]) : rs = qs := by
  induction rs generalizing qs with
  | nil => exact (List.map_eq_nil_iff.1 hnames.symm).symm
  | cons r rs ih =>
    cases qs with
    | nil => exact nomatch hnames
    | cons q qs =>
      obtain ⟨hname, hrest⟩ := List.cons.inj hnames
      rw [List.flatMap_cons, List.flatMap_cons] at htypes
      simp only [List.cons_append, List.nil_append, List.cons.injEq] at htypes
      obtain ⟨hsubject, hmember, htypes⟩ := htypes
      obtain ⟨name, subject, member⟩ := r
      obtain ⟨name', subject', member'⟩ := q
      obtain ⟨rfl, -, -⟩ := MemberRequirement.mk.inj hname
      obtain rfl : subject = subject' := hsubject
      obtain rfl : member = member' := hmember
      rw [ih hrest htypes]

theorem eq_of_parts {a b : FlatTypeNode} (hhead : a.head = b.head) (hchildren : a.children = b.children)
    (hnames : a.row.map Prod.fst = b.row.map Prod.fst) (hrigid : ∀ v, a ≠ .rigid v)
    (hforall : ∀ vs body, a ≠ .forallType vs body) : a = b := by
  cases a with
  | rigid v => exact absurd rfl (hrigid v)
  | forallType vs body => exact absurd rfl (hforall vs body)
  | qualified rs body =>
    cases b with
    | qualified qs body' =>
      obtain ⟨rfl, htypes⟩ := List.cons.inj hchildren
      rw [requirements_ext (FlatTypeNode.qualified.inj hhead).1 htypes]
    | _ => exact nomatch hhead
  | record fs =>
    cases b with
    | record gs => exact congrArg FlatTypeNode.record (row_ext hnames hchildren)
    | _ => exact nomatch hhead
  | recordUpdate base fs =>
    cases b with
    | recordUpdate base' gs =>
      obtain ⟨rfl, htypes⟩ := List.cons.inj hchildren
      exact congrArg (FlatTypeNode.recordUpdate base) (row_ext hnames htypes)
    | _ => exact nomatch hhead
  | variant fs isOpen =>
    cases b with
    | variant gs isOpen' =>
      obtain ⟨-, rfl⟩ := FlatTypeNode.variant.inj hhead
      exact congrArg (FlatTypeNode.variant · isOpen) (row_ext hnames hchildren)
    | _ => exact nomatch hhead
  | union ms =>
    cases b with
    | union ns => exact congrArg FlatTypeNode.union hchildren
    | _ => exact nomatch hhead
  | _ => cases b <;> simp_all [head, children]

end FlatTypeNode

open FlatTypeNode

/-! ### Building an arena -/

/-- `FlatTypeBuilder`, with the number of the next rigid beside it.  What is interned is read off the nodes. -/
structure Building where
  nodes : List FlatTypeNode
  nextRigid : ℕ
  deriving DecidableEq

def Building.intern (s : Building) (node : FlatTypeNode) : ℕ × Building :=
  match s.nodes.idxOf? node with
  | some id => (id, s)
  | none => (s.nodes.length, { s with nodes := s.nodes ++ [node] })

/-- A node is found where it was interned, and the nodes before it stay. -/
theorem Building.intern_spec (s : Building) (node : FlatTypeNode) :
    (s.intern node).2.nodes[(s.intern node).1]? = some node ∧ s.nodes <+: (s.intern node).2.nodes ∧
      (s.intern node).2.nextRigid = s.nextRigid := by
  unfold Building.intern
  cases h : s.nodes.idxOf? node with
  | none => exact ⟨List.getElem?_concat_length, List.prefix_append _ _, rfl⟩
  | some id =>
    obtain ⟨hlt, heq, -⟩ := List.findIdx?_eq_some_iff_getElem.1 h
    exact ⟨by rw [List.getElem?_eq_getElem hlt, eq_of_beq heq], List.prefix_rfl, rfl⟩

/-! ### Validation -/

/-- The binders of a quantified type come into scope one by one. -/
def bindRigids (bound : List ℕ) : List ℕ → Except String (List ℕ)
  | [] => .ok bound
  | v :: vs =>
    if v ∈ bound then .error ("checked-module certificate rebinds rigid variable " ++ toString v)
    else bindRigids (bound ++ [v]) vs

/-- `validate_certificate_type` below `bound`.  Children lie before their parent, so `id + 1` is enough fuel. -/
def validateUnder (types : List FlatTypeNode) : ℕ → List ℕ → ℕ → Except String Unit
  | 0, _, id => .error ("checked-module certificate references missing type " ++ toString id)
  | fuel + 1, bound, id =>
    match types[id]? with
    | none => .error ("checked-module certificate references missing type " ++ toString id)
    | some (.rigid v) =>
      if v ∈ bound then .ok ()
      else .error ("checked-module certificate contains free rigid variable " ++ toString v)
    | some (.forallType vs body) => do
      let bound ← bindRigids bound vs
      if id ≤ body then
        .error ("checked-module certificate type " ++ toString id ++ " references non-prior type " ++ toString body)
      else validateUnder types fuel bound body
    | some node =>
      match node.children.reverse.find? fun child => id ≤ child with
      | some child =>
        .error ("checked-module certificate type " ++ toString id ++ " references non-prior type " ++ toString child)
      | none => each (validateUnder types fuel bound) node.children

def validateCertificateType (types : List FlatTypeNode) (root : ℕ) : Except String Unit :=
  validateUnder types (root + 1) [] root

/-- What validation finds: children lie before their parent, rigids are bound, and no binder is bound again. -/
inductive Scoped (types : List FlatTypeNode) : List ℕ → ℕ → Prop
  | rigid {bound : List ℕ} {id v : ℕ} (hnode : types[id]? = some (.rigid v)) (hv : v ∈ bound) : Scoped types bound id
  | forallType {bound vs : List ℕ} {id body : ℕ} (hnode : types[id]? = some (.forallType vs body)) (hbody : body < id)
      (hbound : bound.Nodup → (bound ++ vs).Nodup) (h : Scoped types (bound ++ vs) body) : Scoped types bound id
  | other {bound : List ℕ} {id : ℕ} {node : FlatTypeNode} (hnode : types[id]? = some node)
      (hrigid : ∀ v, node ≠ .rigid v) (hforall : ∀ vs body, node ≠ .forallType vs body)
      (hprior : ∀ child ∈ node.children, child < id) (h : ∀ child ∈ node.children, Scoped types bound child) :
      Scoped types bound id

theorem bindRigids_ok {bound vs bound' : List ℕ} (h : bindRigids bound vs = .ok bound') :
    bound' = bound ++ vs ∧ (bound.Nodup → (bound ++ vs).Nodup) := by
  induction vs generalizing bound with
  | nil =>
    obtain rfl := Except.ok.inj h
    exact ⟨(List.append_nil _).symm, fun hnodup => by rwa [List.append_nil]⟩
  | cons v vs ih =>
    rw [bindRigids] at h
    split at h
    case isTrue => exact nomatch h
    case isFalse hv =>
      obtain ⟨rfl, hnodup⟩ := ih h
      rw [List.append_assoc, List.singleton_append] at hnodup ⊢
      refine ⟨rfl, fun hbound => hnodup ?_⟩
      rw [List.nodup_append]
      refine ⟨hbound, List.nodup_singleton v, ?_⟩
      rintro x hx y hy rfl
      exact hv (List.mem_singleton.1 hy ▸ hx)

theorem scoped_of_validateUnder {types : List FlatTypeNode} {fuel : ℕ} {bound : List ℕ} {id : ℕ}
    (h : validateUnder types fuel bound id = .ok ()) : Scoped types bound id := by
  induction fuel generalizing bound id with
  | zero => exact nomatch h
  | succ fuel ih =>
    rw [validateUnder] at h
    split at h
    case h_1 => exact nomatch h
    case h_2 v hnode =>
      split at h
      case isTrue hv => exact .rigid hnode hv
      case isFalse => exact nomatch h
    case h_3 vs body hnode =>
      cases hbind : bindRigids bound vs with
      | error e =>
        rw [hbind] at h
        exact nomatch h
      | ok bound' =>
        rw [hbind] at h
        obtain ⟨rfl, hnodup⟩ := bindRigids_ok hbind
        have h : (if id ≤ body then _ else validateUnder types fuel (bound ++ vs) body) = .ok () := h
        split at h
        case isTrue => exact nomatch h
        case isFalse hbody => exact .forallType hnode (Nat.lt_of_not_le hbody) hnodup (ih h)
    case h_4 node hrigid hforall hnode =>
      split at h
      case h_1 => exact nomatch h
      case h_2 hprior =>
        refine .other hnode hrigid hforall ?_ ?_
        · intro child hchild
          have hlt := List.find?_eq_none.1 hprior child (List.mem_reverse.2 hchild)
          simpa using hlt
        · exact fun child hchild => ih (each_eq_ok.1 h child hchild)

/-- A certificate type that passes validation is closed and well scoped. -/
theorem scoped_of_validateCertificateType {types : List FlatTypeNode} {root : ℕ}
    (h : validateCertificateType types root = .ok ()) : Scoped types [] root := scoped_of_validateUnder h

end Blot.Boundary
