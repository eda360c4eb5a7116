import Blot.Support.Checks
import Blot.Typecheck.Closure

/-!
# Subtyping under the recorded bounds

`Checker.Derives s` is the declarative relation (`spec/TYPECHECKING.md`, section 2) with reflexivity, transitivity and
the bounds that `s` records.  `Mapped` relates a type to one rebuilt from it child by child; a type that was rebuilt
along the variance of its positions stands in the relation to what it was rebuilt from.
-/

namespace Blot.Typecheck

open Blot.Support Checker

mutual
/-- Two types without inference variables that are equal up to the names of binders and the order of fields, cases,
members and requirements.  The pairs are the binders around the two types, none of which rebinds one in scope. -/
inductive Alike : List (ℕ × ℕ) → Ty → Ty → Prop where
  | rigid {pairs : List (ℕ × ℕ)} {a b : ℕ} (h : (a, b) ∈ pairs) : Alike pairs (.rigid a) (.rigid b)
  | leaf {pairs : List (ℕ × ℕ)} {t : Ty} (h : t.children = []) (hvar : ∀ x, t ≠ .var x) (hrigid : ∀ r, t ≠ .rigid r) :
    Alike pairs t t
  | forallType {pairs : List (ℕ × ℕ)} {vs ws : List ℕ} {a b : Ty} (hlen : vs.length = ws.length)
    (hleft : (pairs.map Prod.fst ++ vs).Nodup) (hright : (pairs.map Prod.snd ++ ws).Nodup)
    (h : Alike (pairs ++ vs.zip ws) a b) : Alike pairs (.forallType vs a) (.forallType ws b)
  | qualified {pairs : List (ℕ × ℕ)} {rs qs : List (MemberRequirement Ty)} {a b : Ty}
    (hrequirements : AlikeRequirements pairs rs qs) (h : Alike pairs a b) :
    Alike pairs (.qualified rs a) (.qualified qs b)
  | function {pairs : List (ℕ × ℕ)} {d : Bool} {p e r p' e' r' : Ty} (hp : Alike pairs p p') (he : Alike pairs e e')
    (hr : Alike pairs r r') : Alike pairs (.function d p e r) (.function d p' e' r')
  | record {pairs : List (ℕ × ℕ)} {fs gs : List (String × Ty)} (h : AlikeRow pairs fs gs) :
    Alike pairs (.record fs) (.record gs)
  | recordUpdate {pairs : List (ℕ × ℕ)} {a b : Ty} {fs gs : List (String × Ty)} (hbase : Alike pairs a b)
    (h : AlikeRow pairs fs gs) : Alike pairs (.recordUpdate a fs) (.recordUpdate b gs)
  | array {pairs : List (ℕ × ℕ)} {a b : Ty} (h : Alike pairs a b) : Alike pairs (.array a) (.array b)
  | region {pairs : List (ℕ × ℕ)} {a b : Ty} (h : Alike pairs a b) : Alike pairs (.region a) (.region b)
  | scratch {pairs : List (ℕ × ℕ)} {a b : Ty} (h : Alike pairs a b) : Alike pairs (.scratch a) (.scratch b)
  | resource {pairs : List (ℕ × ℕ)} {family : String} {a b : Ty} (h : Alike pairs a b) :
    Alike pairs (.resource family a) (.resource family b)
  | variant {pairs : List (ℕ × ℕ)} {fs gs : List (String × Ty)} {isOpen : Bool} (h : AlikeRow pairs fs gs) :
    Alike pairs (.variant fs isOpen) (.variant gs isOpen)
  | openEffects {pairs : List (ℕ × ℕ)} {labels : Finset String} {a b : Ty} (h : Alike pairs a b) :
    Alike pairs (.openEffects labels a) (.openEffects labels b)
  | union {pairs : List (ℕ × ℕ)} {as bs : List Ty} (h : AlikeMembers pairs as bs) : Alike pairs (.union as) (.union bs)

inductive AlikeRow : List (ℕ × ℕ) → List (String × Ty) → List (String × Ty) → Prop where
  | nil {pairs : List (ℕ × ℕ)} : AlikeRow pairs [] []
  | cons {pairs : List (ℕ × ℕ)} {name : String} {a b : Ty} {fs gs hs : List (String × Ty)} (h : Alike pairs a b)
    (hrest : AlikeRow pairs fs gs) (hperm : hs.Perm ((name, b) :: gs)) : AlikeRow pairs ((name, a) :: fs) hs

inductive AlikeMembers : List (ℕ × ℕ) → List Ty → List Ty → Prop where
  | nil {pairs : List (ℕ × ℕ)} : AlikeMembers pairs [] []
  | cons {pairs : List (ℕ × ℕ)} {a b : Ty} {as bs cs : List Ty} (h : Alike pairs a b)
    (hrest : AlikeMembers pairs as bs) (hperm : cs.Perm (b :: bs)) : AlikeMembers pairs (a :: as) cs

inductive AlikeRequirements :
    List (ℕ × ℕ) → List (MemberRequirement Ty) → List (MemberRequirement Ty) → Prop where
  | nil {pairs : List (ℕ × ℕ)} : AlikeRequirements pairs [] []
  | cons {pairs : List (ℕ × ℕ)} {r q : MemberRequirement Ty} {rs qs ps : List (MemberRequirement Ty)}
    (hname : r.name = q.name) (hsubject : Alike pairs r.subject q.subject) (hmember : Alike pairs r.member q.member)
    (hrest : AlikeRequirements pairs rs qs) (hperm : ps.Perm (q :: qs)) : AlikeRequirements pairs (r :: rs) ps
end

/-- The declarative rules over the recorded bounds.  The requirements of a qualified type are registered and not
derived; a quantified type is compared under its own binders, whose names do not matter. -/
inductive Checker.Derives (s : Checker) : Ty → Ty → Prop where
  | refl {a : Ty} : Derives s a a
  | trans {a b c : Ty} (h : Derives s a b) (h' : Derives s b c) : Derives s a c
  | lower {x : ℕ} {a : Ty} (h : a ∈ s.bounds x .lower) : Derives s a (.var x)
  | upper {x : ℕ} {b : Ty} (h : b ∈ s.bounds x .upper) : Derives s (.var x) b
  | bottom {b : Ty} : Derives s .bottom b
  | top {a : Ty} : Derives s a .top
  | range {d : Domain} {l h l' h' : Option Scalar} (hl : lowerWithin l l' = true) (hh : upperWithin h h' = true) :
    Derives s (.range d l h) (.range d l' h')
  | function {d : Bool} {p e r p' e' r' : Ty} (hp : Derives s p' p) (he : Derives s e e') (hr : Derives s r r') :
    Derives s (.function d p e r) (.function d p' e' r')
  /-- Every field of the right side has a field of its name below it on the left side, or may be omitted. -/
  | record {fs gs : List (String × Ty)} (source : String × Ty → Ty)
    (hfields : ∀ p ∈ gs, (p.1, source p) ∈ fs ∨ p.1 ∉ fs.map Prod.fst ∧ admitsOmission p.2 = true)
    (h : ∀ p ∈ gs, p.1 ∈ fs.map Prod.fst → Derives s (source p) p.2) : Derives s (.record fs) (.record gs)
  | updateRecord {base : Ty} {fs gs : List (String × Ty)} (source : String × Ty → Ty)
    (hfields : ∀ p ∈ gs, p.1 ∈ fs.map Prod.fst → (p.1, source p) ∈ fs)
    (hupdated : ∀ p ∈ gs, p.1 ∈ fs.map Prod.fst → Derives s (source p) p.2)
    (hbase : ∀ p ∈ gs, p.1 ∉ fs.map Prod.fst → Derives s base (.record [p])) :
    Derives s (.recordUpdate base fs) (.record gs)
  | updates {base base' : Ty} {fs gs : List (String × Ty)} (target : String × Ty → Ty) (hlen : fs.length = gs.length)
    (hbase : Derives s base base') (hfields : ∀ p ∈ fs, (p.1, target p) ∈ gs)
    (h : ∀ p ∈ fs, Derives s p.2 (target p)) : Derives s (.recordUpdate base fs) (.recordUpdate base' gs)
  | array {a b : Ty} (h : Derives s a b) : Derives s (.array a) (.array b)
  | region {a b : Ty} (h : Derives s a b) (h' : Derives s b a) : Derives s (.region a) (.region b)
  | scratch {a b : Ty} (h : Derives s a b) (h' : Derives s b a) : Derives s (.scratch a) (.scratch b)
  | resource {family : String} {a b : Ty} (h : Derives s a b) (h' : Derives s b a) :
    Derives s (.resource family a) (.resource family b)
  /-- The cases of the left side are cases of the right side, unless that is open. -/
  | variant {fs gs : List (String × Ty)} {isOpen isOpen' : Bool} (target : String × Ty → Ty)
    (hcases : isOpen' = false → isOpen = false ∧ ∀ p ∈ fs, p.1 ∈ gs.map Prod.fst)
    (hfields : ∀ p ∈ fs, p.1 ∈ gs.map Prod.fst → (p.1, target p) ∈ gs)
    (h : ∀ p ∈ fs, p.1 ∈ gs.map Prod.fst → Derives s p.2 (target p)) :
    Derives s (.variant fs isOpen) (.variant gs isOpen')
  | effects {l m : Finset String} (h : l ⊆ m) : Derives s (.effects l) (.effects m)
  | emptyRigid {r : ℕ} : Derives s (.effects ∅) (.rigid r)
  | rigidRow {r : ℕ} {m : Finset String} {tail : Ty} (h : Derives s (.rigid r) tail) :
    Derives s (.rigid r) (.openEffects m tail)
  | closedRow {l m : Finset String} {tail : Ty} (h : Derives s (.effects (l \ m)) tail) :
    Derives s (.effects l) (.openEffects m tail)
  | rowClosed {l m : Finset String} {tail : Ty} (hl : l ⊆ m) (h : Derives s tail (.effects m)) :
    Derives s (.openEffects l tail) (.effects m)
  | rows {l m : Finset String} {tail tail' : Ty} (hl : l \ m ≠ ∅ → Derives s (.effects (l \ m)) tail')
    (h : Derives s tail tail') : Derives s (.openEffects l tail) (.openEffects m tail')
  | rowsRow {l m : Finset String} {tail tail' : Ty} (hl : l \ m ≠ ∅ → Derives s (.effects (l \ m)) tail')
    (h : Derives s tail (.openEffects m tail')) : Derives s (.openEffects l tail) (.openEffects m tail')
  | unionLeft {members : List Ty} {b : Ty} (h : ∀ a ∈ members, Derives s a b) : Derives s (.union members) b
  | unionRight {members : List Ty} {a b : Ty} (hb : b ∈ members) (h : Derives s a b) : Derives s a (.union members)
  | qualifiedLeft {rs : List (MemberRequirement Ty)} {a b : Ty} (h : Derives s a b) : Derives s (.qualified rs a) b
  | qualifiedRight {rs : List (MemberRequirement Ty)} {a b : Ty} (h : Derives s a b) : Derives s a (.qualified rs b)
  | forallBody {vs : List ℕ} {a b : Ty} (h : Derives s a b) : Derives s (.forallType vs a) (.forallType vs b)
  | alike {a b : Ty} (h : Alike [] a b) : Derives s a b

/-- The relation in the direction of a polarity: a positive copy lies above, a negative one below. -/
def Checker.DerivesAt (s : Checker) (polarity : Bool) (t copy : Ty) : Prop :=
  if polarity then s.Derives t copy else s.Derives copy t

/-- More bounds derive more. -/
theorem Checker.Derives.mono {s s' : Checker} {a b : Ty} (h : s.Derives a b)
    (bounds : ∀ v d, ∀ t ∈ s.bounds v d, t ∈ s'.bounds v d) : s'.Derives a b := by
  induction h with
  | refl => exact .refl
  | trans _ _ ih ih' => exact .trans ih ih'
  | lower h => exact .lower (bounds _ _ _ h)
  | upper h => exact .upper (bounds _ _ _ h)
  | bottom => exact .bottom
  | top => exact .top
  | range hl hh => exact .range hl hh
  | function _ _ _ ihp ihe ihr => exact .function ihp ihe ihr
  | record source hfields _ ih => exact .record source hfields ih
  | updateRecord source hfields _ _ ihu ihb => exact .updateRecord source hfields ihu ihb
  | updates target hlen _ hfields _ ihb ih => exact .updates target hlen ihb hfields ih
  | array _ ih => exact .array ih
  | region _ _ ih ih' => exact .region ih ih'
  | scratch _ _ ih ih' => exact .scratch ih ih'
  | resource _ _ ih ih' => exact .resource ih ih'
  | variant target hcases hfields _ ih => exact .variant target hcases hfields ih
  | effects h => exact .effects h
  | emptyRigid => exact .emptyRigid
  | rigidRow _ ih => exact .rigidRow ih
  | closedRow _ ih => exact .closedRow ih
  | rowClosed hl _ ih => exact .rowClosed hl ih
  | rows _ _ ihl ih => exact .rows ihl ih
  | rowsRow _ _ ihl ih => exact .rowsRow ihl ih
  | unionLeft _ ih => exact .unionLeft ih
  | unionRight hb _ ih => exact .unionRight hb ih
  | qualifiedLeft _ ih => exact .qualifiedLeft ih
  | qualifiedRight _ ih => exact .qualifiedRight ih
  | forallBody _ ih => exact .forallBody ih
  | alike h => exact .alike h

/-! ### Types rebuilt child by child -/

namespace Ty

/-- The children in positions that subtyping compares both ways. -/
def invariants : Ty → List Ty
  | .region element => [element]
  | .scratch element => [element]
  | .resource _ payload => [payload]
  | _ => []

end Ty

/-- Two rows with the same names in the same order, their types related one by one. -/
def MappedRow (R : Ty → Ty → Prop) (fs gs : List (String × Ty)) : Prop :=
  List.Forall₂ (fun p q => q.1 = p.1 ∧ R p.2 q.2) fs gs

/-- The second type is the first with related children; `R` is told which child is a function's parameter. -/
inductive Mapped (R : Bool → Ty → Ty → Prop) : Ty → Ty → Prop where
  | forallType {vs : List ℕ} {a b : Ty} (h : R false a b) : Mapped R (.forallType vs a) (.forallType vs b)
  | qualified {rs qs : List (MemberRequirement Ty)} {a b : Ty}
    (hr : List.Forall₂ (fun r q => q.name = r.name ∧ R false r.subject q.subject ∧ R false r.member q.member) rs qs)
    (h : R false a b) : Mapped R (.qualified rs a) (.qualified qs b)
  | function {d : Bool} {p e r p' e' r' : Ty} (hp : R true p p') (he : R false e e') (hr : R false r r') :
    Mapped R (.function d p e r) (.function d p' e' r')
  | record {fs gs : List (String × Ty)} (h : MappedRow (R false) fs gs) : Mapped R (.record fs) (.record gs)
  | recordUpdate {a b : Ty} {fs gs : List (String × Ty)} (hbase : R false a b) (h : MappedRow (R false) fs gs) :
    Mapped R (.recordUpdate a fs) (.recordUpdate b gs)
  | array {a b : Ty} (h : R false a b) : Mapped R (.array a) (.array b)
  | region {a b : Ty} (h : R false a b) : Mapped R (.region a) (.region b)
  | scratch {a b : Ty} (h : R false a b) : Mapped R (.scratch a) (.scratch b)
  | resource {family : String} {a b : Ty} (h : R false a b) : Mapped R (.resource family a) (.resource family b)
  | variant {fs gs : List (String × Ty)} {isOpen : Bool} (h : MappedRow (R false) fs gs) :
    Mapped R (.variant fs isOpen) (.variant gs isOpen)
  | openEffects {labels : Finset String} {a b : Ty} (h : R false a b) :
    Mapped R (.openEffects labels a) (.openEffects labels b)
  | union {as bs : List Ty} (h : List.Forall₂ (R false) as bs) : Mapped R (.union as) (.union bs)
  | leaf {t : Ty} (h : t.children = []) : Mapped R t t

instance : Inhabited Ty := ⟨.top⟩

section Mapped

variable {R R' : Bool → Ty → Ty → Prop} {t t' : Ty} {fs gs : List (String × Ty)}

theorem MappedRow.names (h : MappedRow (R false) fs gs) : gs.map Prod.fst = fs.map Prod.fst := by
  induction h with
  | nil => rfl
  | cons hp _ ih => rw [List.map_cons, List.map_cons, hp.1, ih]

theorem MappedRow.flip (h : MappedRow (R false) fs gs) : MappedRow (fun a b => R false b a) gs fs := by
  refine (List.Forall₂.flip h).imp ?_
  intro q p hp
  exact ⟨hp.1.symm, hp.2⟩

theorem MappedRow.left (h : MappedRow (R false) fs gs) : ∀ p ∈ fs, ∃ b, (p.1, b) ∈ gs ∧ R false p.2 b := by
  induction h with
  | nil => exact fun p hp => absurd hp List.not_mem_nil
  | @cons p q fs gs hpq _ ih =>
    intro r hr
    rcases List.mem_cons.1 hr with rfl | hr
    · exact ⟨q.2, by rw [← hpq.1]; exact List.mem_cons_self, hpq.2⟩
    · obtain ⟨b, hb, hR⟩ := ih r hr
      exact ⟨b, List.mem_cons_of_mem _ hb, hR⟩

theorem MappedRow.right (h : MappedRow (R false) fs gs) : ∀ q ∈ gs, ∃ a, (q.1, a) ∈ fs ∧ R false a q.2 :=
  MappedRow.left (R := fun _ a b => R false b a) h.flip

/-- Read from the rebuilt type back. -/
theorem Mapped.flip (h : Mapped R t t') : Mapped (fun b a a' => R b a' a) t' t := by
  cases h with
  | forallType h => exact .forallType h
  | qualified hr h => exact .qualified (hr.flip.imp fun q r hq => ⟨hq.1.symm, hq.2⟩) h
  | function hp he hr => exact .function hp he hr
  | record h => exact .record h.flip
  | recordUpdate hbase h => exact .recordUpdate hbase h.flip
  | array h => exact .array h
  | region h => exact .region h
  | scratch h => exact .scratch h
  | resource h => exact .resource h
  | variant h => exact .variant h.flip
  | openEffects h => exact .openEffects h
  | union h => exact .union h.flip
  | leaf h => exact .leaf h

theorem mappedRow_iff {R : Ty → Ty → Prop} :
    MappedRow R fs gs ↔ ∃ cs, List.Forall₂ R (fs.map Prod.snd) cs ∧ gs = (fs.map Prod.fst).zip cs := by
  constructor
  · intro h
    induction h with
    | nil => exact ⟨[], .nil, rfl⟩
    | @cons p q _ _ hpq _ ih =>
      obtain ⟨cs, hcs, rfl⟩ := ih
      exact ⟨q.2 :: cs, .cons hpq.2 hcs, by simp [← hpq.1]⟩
  · rintro ⟨cs, h, rfl⟩
    induction fs generalizing cs with
    | nil => exact .nil
    | cons p fs ih =>
      cases h with
      | cons hc h => exact .cons ⟨rfl, hc⟩ (ih _ h)

theorem forall₂_withRequirements {R : Ty → Ty → Prop} {rs : List (MemberRequirement Ty)} {body : Ty} {cs : List Ty}
    (h : List.Forall₂ R ((rs.flatMap fun r => [r.subject, r.member]) ++ [body]) cs) :
    List.Forall₂ (fun r q => q.name = r.name ∧ R r.subject q.subject ∧ R r.member q.member) rs
      (withRequirements rs cs).1 ∧ ∃ c, (withRequirements rs cs).2 = [c] ∧ R body c := by
  induction rs generalizing cs with
  | nil =>
    obtain _ | ⟨hc, _ | _⟩ := h
    exact ⟨.nil, _, rfl, hc⟩
  | cons r rs ih =>
    obtain _ | ⟨hs, _ | ⟨hm, h⟩⟩ := h
    exact ⟨.cons ⟨rfl, hs, hm⟩ (ih h).1, (ih h).2⟩

theorem exists_requirements {R : Ty → Ty → Prop} {rs qs : List (MemberRequirement Ty)}
    (h : List.Forall₂ (fun r q => q.name = r.name ∧ R r.subject q.subject ∧ R r.member q.member) rs qs) :
    ∃ cs, List.Forall₂ R (rs.flatMap fun r => [r.subject, r.member]) cs ∧
      ∀ rest, withRequirements rs (cs ++ rest) = (qs, rest) := by
  induction h with
  | nil => exact ⟨[], .nil, fun rest => by cases rest <;> rfl⟩
  | @cons r q _ _ hq _ ih =>
    obtain ⟨cs, hcs, hqs⟩ := ih
    refine ⟨q.subject :: q.member :: cs, .cons hq.2.1 (.cons hq.2.2 hcs), fun rest => ?_⟩
    simp [withRequirements, hqs, ← hq.1]

theorem Mapped.of_parts {cs : List Ty} (h : List.Forall₂ (fun p c => R p.1 p.2 c) t.parts cs) :
    Mapped R t (t.withChildren cs) := by
  cases t
  case function =>
    obtain _ | ⟨hp, _ | ⟨he, _ | ⟨hr, _ | _⟩⟩⟩ := h
    exact .function hp he hr
  all_goals replace h := List.forall₂_map_left_iff.1 h
  case qualified =>
    obtain ⟨hrs, c, hc, hR⟩ := forall₂_withRequirements h
    rw [Ty.withChildren, hc]
    exact .qualified hrs hR
  case record => exact .record (mappedRow_iff.2 ⟨cs, h, rfl⟩)
  case variant => exact .variant (mappedRow_iff.2 ⟨cs, h, rfl⟩)
  case recordUpdate =>
    obtain _ | ⟨hbase, h⟩ := h
    exact .recordUpdate hbase (mappedRow_iff.2 ⟨_, h, rfl⟩)
  case union => exact .union h
  case forallType => obtain _ | ⟨h, _ | _⟩ := h; exact .forallType h
  case array => obtain _ | ⟨h, _ | _⟩ := h; exact .array h
  case region => obtain _ | ⟨h, _ | _⟩ := h; exact .region h
  case scratch => obtain _ | ⟨h, _ | _⟩ := h; exact .scratch h
  case resource => obtain _ | ⟨h, _ | _⟩ := h; exact .resource h
  case openEffects => obtain _ | ⟨h, _ | _⟩ := h; exact .openEffects h
  all_goals exact .leaf rfl

theorem Mapped.exists_parts (h : Mapped R t t') :
    ∃ cs, List.Forall₂ (fun p c => R p.1 p.2 c) t.parts cs ∧ t' = t.withChildren cs := by
  cases h with
  | forallType h | array h | region h | scratch h | resource h | openEffects h => exact ⟨_, .cons h .nil, rfl⟩
  | function hp he hr => exact ⟨_, .cons hp (.cons he (.cons hr .nil)), rfl⟩
  | qualified hr h =>
    obtain ⟨cs, hcs, hqs⟩ := exists_requirements hr
    refine ⟨cs ++ [_], List.forall₂_map_left_iff.2 (List.rel_append hcs (.cons h .nil)), ?_⟩
    rw [Ty.withChildren, hqs]
    rfl
  | record h | variant h =>
    obtain ⟨cs, hcs, rfl⟩ := mappedRow_iff.1 h
    exact ⟨cs, List.forall₂_map_left_iff.2 hcs, rfl⟩
  | recordUpdate hbase h =>
    obtain ⟨cs, hcs, rfl⟩ := mappedRow_iff.1 h
    exact ⟨_ :: cs, .cons hbase (List.forall₂_map_left_iff.2 hcs), rfl⟩
  | union h => exact ⟨_, List.forall₂_map_left_iff.2 h, rfl⟩
  | leaf h =>
    refine ⟨[], ?_, by rw [← h, Ty.withChildren_children]⟩
    rw [List.map_eq_nil_iff.1 (t.children_of_parts.trans h)]
    exact .nil

theorem Mapped.source_of_child (h : Mapped R t t') : ∀ c' ∈ t'.children, ∃ b c, R b c c' := by
  obtain ⟨cs, hcs, rfl⟩ := h.exists_parts
  intro c' hc'
  rw [Ty.children_withChildren (by rw [← hcs.length_eq, ← Ty.children_of_parts, List.length_map])] at hc'
  obtain ⟨p, _, hp⟩ := exists_right_of_forall₂ hcs.flip hc'
  exact ⟨p.1, p.2, hp⟩

theorem Mapped.ne_var (h : Mapped R t t') (hvar : ∀ id, t ≠ .var id) : ∀ id, t' ≠ .var id := by
  obtain ⟨cs, -, rfl⟩ := h.exists_parts
  exact t.withChildren_ne_var hvar cs

theorem eq_of_forall₂ {A B : Type} {P P' : A → B → Prop} {as : List A} {bs cs : List B} (h : List.Forall₂ P as bs)
    (h' : List.Forall₂ P' as cs) (hP : ∀ a b c, P a b → P' a c → b = c) : bs = cs := by
  induction h generalizing cs with
  | nil =>
    cases h'
    rfl
  | cons hab _ ih =>
    cases h' with
    | cons hac hrest => rw [ih hrest, hP _ _ _ hab hac]

theorem Mapped.unique {u : Ty} (h : Mapped R t t') (h' : Mapped R' t u)
    (hR : ∀ b a a' a'', R b a a' → R' b a a'' → a' = a'') : t' = u := by
  obtain ⟨cs, hcs, rfl⟩ := h.exists_parts
  obtain ⟨cs', hcs', rfl⟩ := h'.exists_parts
  rw [eq_of_forall₂ hcs hcs' fun _ _ _ => hR _ _ _ _]

/-- **Variance**: a type lies below one rebuilt from it when each child does, parameters the other way round and the
children in invariant positions both ways. -/
theorem Mapped.derives {s : Checker} (h : Mapped R t t') (covariant : ∀ a b, R false a b → s.Derives a b)
    (contravariant : ∀ a b, R true a b → s.Derives b a)
    (both : ∀ a b, a ∈ t.invariants → b ∈ t'.invariants → R false a b → s.Derives b a) : s.Derives t t' := by
  cases h with
  | forallType h => exact .forallBody (covariant _ _ h)
  | qualified _ h => exact .qualifiedLeft (.qualifiedRight (covariant _ _ h))
  | function hp he hr => exact .function (contravariant _ _ hp) (covariant _ _ he) (covariant _ _ hr)
  | @record fs gs h =>
    choose! source hsource using fun q (hq : q ∈ gs) => h.right q hq
    exact .record source (fun q hq => .inl (hsource q hq).1) fun q hq _ => covariant _ _ (hsource q hq).2
  | @recordUpdate a b fs gs hbase h =>
    choose! target htarget using h.left
    exact .updates target h.length_eq (covariant _ _ hbase) (fun p hp => (htarget p hp).1)
      fun p hp => covariant _ _ (htarget p hp).2
  | array h => exact .array (covariant _ _ h)
  | region h => exact .region (covariant _ _ h) (both _ _ (by simp [Ty.invariants]) (by simp [Ty.invariants]) h)
  | scratch h => exact .scratch (covariant _ _ h) (both _ _ (by simp [Ty.invariants]) (by simp [Ty.invariants]) h)
  | resource h => exact .resource (covariant _ _ h) (both _ _ (by simp [Ty.invariants]) (by simp [Ty.invariants]) h)
  | @variant fs gs isOpen h =>
    choose! target htarget using h.left
    refine .variant target (fun ho => ⟨ho, fun p hp => ?_⟩) (fun p hp _ => (htarget p hp).1)
      fun p hp _ => covariant _ _ (htarget p hp).2
    rw [h.names]
    exact List.mem_map_of_mem hp
  | openEffects h => exact .rows (fun hne => absurd (by simp) hne) (covariant _ _ h)
  | @union as bs h =>
    refine .unionLeft fun a ha => ?_
    obtain ⟨b, hb, hR⟩ := exists_right_of_forall₂ h ha
    exact .unionRight hb (covariant _ _ hR)
  | leaf => exact .refl

end Mapped

/-! ### Reading types in two values -/

/-- A type holds under a reading of the variables as two values.  A function reads as its result, a union as the
disjunction of its members, `bottom` as false, and any other shape as true. -/
inductive Holds (V : ℕ → Prop) : Ty → Prop where
  | var {x : ℕ} (h : V x) : Holds V (.var x)
  | forallType {vs : List ℕ} {body : Ty} (h : Holds V body) : Holds V (.forallType vs body)
  | qualified {rs : List (MemberRequirement Ty)} {body : Ty} (h : Holds V body) : Holds V (.qualified rs body)
  | function {d : Bool} {p e r : Ty} (h : Holds V r) : Holds V (.function d p e r)
  | union {members : List Ty} {a : Ty} (ha : a ∈ members) (h : Holds V a) : Holds V (.union members)
  | rigid {r : ℕ} : Holds V (.rigid r)
  | range {d : Domain} {l h : Option Scalar} : Holds V (.range d l h)
  | unit : Holds V .unit
  | record {fs : List (String × Ty)} : Holds V (.record fs)
  | recordUpdate {base : Ty} {fs : List (String × Ty)} : Holds V (.recordUpdate base fs)
  | array {a : Ty} : Holds V (.array a)
  | region {a : Ty} : Holds V (.region a)
  | scratch {a : Ty} : Holds V (.scratch a)
  | resource {family : String} {a : Ty} : Holds V (.resource family a)
  | variant {fs : List (String × Ty)} {isOpen : Bool} : Holds V (.variant fs isOpen)
  | effects {labels : Finset String} : Holds V (.effects labels)
  | openEffects {labels : Finset String} {tail : Ty} : Holds V (.openEffects labels tail)
  | opaqueType {name : String} : Holds V (.opaqueType name)
  | top : Holds V .top

theorem AlikeMembers.exists_mem {pairs : List (ℕ × ℕ)} {as bs : List Ty} (h : AlikeMembers pairs as bs) {a : Ty}
    (hmem : a ∈ as) : ∃ b ∈ bs, Alike pairs a b := by
  induction as generalizing bs with
  | nil => cases hmem
  | cons _ _ ih =>
    cases h with
    | cons h hrest hperm =>
      rcases List.mem_cons.1 hmem with rfl | hmem
      · exact ⟨_, hperm.mem_iff.2 List.mem_cons_self, h⟩
      · obtain ⟨c, hc, halike⟩ := ih hrest hmem
        exact ⟨c, hperm.mem_iff.2 (List.mem_cons_of_mem _ hc), halike⟩

/-- Names of binders and orders do not matter to a reading. -/
theorem Alike.holds {V : ℕ → Prop} {pairs : List (ℕ × ℕ)} {a b : Ty} (h : Alike pairs a b) (ha : Holds V a) :
    Holds V b := by
  induction ha generalizing pairs b with
  | var hx =>
    cases h with
    | leaf => exact .var hx
  | forallType hbody ih =>
    cases h with
    | leaf => exact .forallType hbody
    | forallType _ _ _ h => exact .forallType (ih h)
  | qualified hbody ih =>
    cases h with
    | leaf => exact .qualified hbody
    | qualified _ h => exact .qualified (ih h)
  | function hresult ih =>
    cases h with
    | leaf => exact .function hresult
    | function _ _ hr => exact .function (ih hr)
  | union hmem hm ih =>
    cases h with
    | leaf => exact .union hmem hm
    | union h =>
      obtain ⟨c, hc, halike⟩ := h.exists_mem hmem
      exact .union hc (ih halike)
  | _ => cases h <;> constructor

/-- **A reading that respects the bounds respects what they derive.** -/
theorem Checker.Derives.holds {s : Checker} {V : ℕ → Prop} {a b : Ty} (h : s.Derives a b)
    (lower : ∀ x, ∀ t ∈ s.bounds x .lower, Holds V t → V x)
    (upper : ∀ x, ∀ t ∈ s.bounds x .upper, V x → Holds V t) (ha : Holds V a) : Holds V b := by
  induction h with
  | refl => exact ha
  | trans _ _ ih ih' => exact ih' (ih ha)
  | lower h => exact .var (lower _ _ h ha)
  | upper h =>
    cases ha with
    | var hx => exact upper _ _ h hx
  | bottom => cases ha
  | top => exact .top
  | range => exact .range
  | function _ _ _ _ _ ihr =>
    cases ha with
    | function hr => exact .function (ihr hr)
  | record => exact .record
  | updateRecord => exact .record
  | updates => exact .recordUpdate
  | array => exact .array
  | region => exact .region
  | scratch => exact .scratch
  | resource => exact .resource
  | variant => exact .variant
  | effects => exact .effects
  | emptyRigid => exact .rigid
  | rigidRow | closedRow | rows | rowsRow => exact .openEffects
  | rowClosed => exact .effects
  | unionLeft _ ih =>
    cases ha with
    | union hmem hm => exact ih _ hmem hm
  | unionRight hb _ ih => exact .union hb (ih ha)
  | qualifiedLeft _ ih =>
    cases ha with
    | qualified hbody => exact ih hbody
  | qualifiedRight _ ih => exact .qualified (ih ha)
  | forallBody _ ih =>
    cases ha with
    | forallType hbody => exact .forallType (ih hbody)
  | alike h => exact h.holds ha

end Blot.Typecheck
