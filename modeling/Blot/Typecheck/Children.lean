import Blot.Typecheck.Copy

/-!
# The children of a type, one after another

`mapChildren` rebuilds the children of a type in order.  It is a loop over `Ty.parts`, the children with a note whether
each is a function's parameter, and `Ty.withChildren` puts what the loop returns in their places.

* `mapChildren_eq` — `mapChildren` is that loop, so that a property of a traversal is an induction over a list;
* `Ty.children_withChildren` — the type has the children it was given;
* `Ty.withChildren_children` — with its own children a type is itself.
-/

namespace Blot.Typecheck

open Blot.Support

/-- Requirements of the same names over other types, two for each, and the types left over. -/
def withRequirements : List (MemberRequirement Ty) → List Ty → List (MemberRequirement Ty) × List Ty
  | r :: rs, subject :: member :: cs =>
    (⟨r.name, subject, member⟩ :: (withRequirements rs cs).1, (withRequirements rs cs).2)
  | _, cs => ([], cs)

theorem withRequirements_flat (rs : List (MemberRequirement Ty)) (cs : List Ty) :
    ((withRequirements rs cs).1.flatMap fun r => [r.subject, r.member]) ++ (withRequirements rs cs).2 = cs := by
  fun_induction withRequirements rs cs with
  | case1 r rs subject member cs ih => simpa using ih
  | case2 => rfl

theorem withRequirements_append (rs : List (MemberRequirement Ty)) (cs : List Ty) :
    withRequirements rs ((rs.flatMap fun r => [r.subject, r.member]) ++ cs) = (rs, cs) := by
  induction rs with
  | nil => cases cs <;> rfl
  | cons r rs ih => simp [withRequirements, ih]

theorem length_withRequirements {rs : List (MemberRequirement Ty)} {cs : List Ty} {n : ℕ}
    (h : cs.length = (rs.flatMap fun r => [r.subject, r.member]).length + n) :
    (withRequirements rs cs).2.length = n := by
  fun_induction withRequirements rs cs with
  | case1 r rs subject member cs ih =>
    refine ih ?_
    simp only [List.flatMap_cons, List.length_append, List.length_cons, List.length_nil] at h
    omega
  | case2 rs cs hne =>
    rcases rs with _ | ⟨r, rs⟩
    · simpa using h
    · rcases cs with _ | ⟨c, _ | ⟨d, cs⟩⟩
      case cons.cons => exact absurd rfl (hne r rs c d cs rfl)
      all_goals
        simp only [List.flatMap_cons, List.length_append, List.length_cons, List.length_nil] at h
        omega

namespace Ty

def parts : Ty → List (Bool × Ty)
  | .function _ p e r => [(true, p), (false, e), (false, r)]
  | t => t.children.map (false, ·)

theorem children_of_parts (t : Ty) : t.parts.map Prod.snd = t.children := by
  cases t
  case function => rfl
  all_goals simp [parts]

theorem child_of_part {t c : Ty} {b : Bool} (h : (b, c) ∈ t.parts) : c ∈ t.children :=
  t.children_of_parts ▸ List.mem_map_of_mem h

def withChildren : Ty → List Ty → Ty
  | .forallType vs body, cs => .forallType vs (cs.headD body)
  | .qualified rs body, cs => .qualified (withRequirements rs cs).1 ((withRequirements rs cs).2.headD body)
  | .function d p e r, cs => .function d (cs.headD p) (cs.tail.headD e) (cs.tail.tail.headD r)
  | .record fields, cs => .record ((fields.map Prod.fst).zip cs)
  | .recordUpdate base fields, cs => .recordUpdate (cs.headD base) ((fields.map Prod.fst).zip cs.tail)
  | .array element, cs => .array (cs.headD element)
  | .region element, cs => .region (cs.headD element)
  | .scratch element, cs => .scratch (cs.headD element)
  | .resource family payload, cs => .resource family (cs.headD payload)
  | .variant entries isOpen, cs => .variant ((entries.map Prod.fst).zip cs) isOpen
  | .openEffects labels rest, cs => .openEffects labels (cs.headD rest)
  | .union _, cs => .union cs
  | t, _ => t

theorem withChildren_ne_var {t : Ty} (hvar : ∀ id, t ≠ .var id) (cs : List Ty) (id : ℕ) :
    t.withChildren cs ≠ .var id := by
  cases t
  case var v => exact absurd rfl (hvar v)
  all_goals nofun

theorem withChildren_children (t : Ty) : t.withChildren t.children = t := by
  have hrow (fields : List (String × Ty)) : (fields.map Prod.fst).zip (fields.map Prod.snd) = fields :=
    (List.zip_of_prod rfl rfl).symm
  cases t
  case qualified rs body => simp [withChildren, children, withRequirements_append]
  case record | variant | recordUpdate => simp [withChildren, children, hrow]
  all_goals rfl

theorem children_withChildren {t : Ty} {cs : List Ty} (h : cs.length = t.children.length) :
    (t.withChildren cs).children = cs := by
  have hrow {fields : List (String × Ty)} {cs : List Ty} (h : cs.length = (fields.map Prod.snd).length) :
      ((fields.map Prod.fst).zip cs).map Prod.snd = cs := List.map_snd_zip (by simp_all)
  cases t
  case record | variant => exact hrow h
  case union => rfl
  case qualified rs body =>
    have hrest := length_withRequirements (h.trans List.length_append)
    obtain ⟨c, hc⟩ := List.length_eq_one_iff.1 hrest
    have hflat := withRequirements_flat rs cs
    rw [hc] at hflat
    simpa only [withChildren, children, hc, List.headD_cons] using hflat
  case function =>
    obtain ⟨p, e, r, rfl⟩ := List.length_eq_three.1 h
    rfl
  case recordUpdate base fields =>
    obtain ⟨c, cs, rfl⟩ := List.exists_cons_of_length_eq_add_one h
    simp [withChildren, children, hrow (Nat.succ.inj h)]
  case forallType | array | region | scratch | resource | openEffects =>
    obtain ⟨c, rfl⟩ := List.length_eq_one_iff.1 h
    rfl
  all_goals exact (List.length_eq_zero_iff.1 h).symm

end Ty

section Parts

variable {κ α : Type} {f : Bool → Ty → κ → Solve (Ty × κ)}

def mapParts (f : Bool → Ty → κ → Solve (Ty × κ)) : List (Bool × Ty) → κ → Solve (List Ty × κ)
  | [], k => pure ([], k)
  | (b, t) :: rest, k => do
    let (t, k) ← f b t k
    let (rest, k) ← mapParts f rest k
    return (t :: rest, k)

theorem mapTypes_eq (ts : List Ty) (k : κ) : mapTypes (f false) ts k = mapParts f (ts.map (false, ·)) k := by
  induction ts generalizing k with
  | nil => rfl
  | cons t ts ih => simp only [mapTypes, List.map_cons, mapParts, ih]

theorem mapRow_eq (fields : List (String × Ty)) (k : κ) :
    mapRow (f false) fields k = mapParts f ((fields.map Prod.snd).map (false, ·)) k >>= fun p =>
      pure ((fields.map Prod.fst).zip p.1, p.2) := by
  induction fields generalizing k with
  | nil => rfl
  | cons p fields ih =>
    simp only [mapRow, List.map_cons, mapParts, ih, bind_assoc, pure_bind, List.zip_cons_cons]

/-- The loop over requirements is the loop over their subjects and members. -/
theorem mapRequirements_eq (rs : List (MemberRequirement Ty)) (ps : List (Bool × Ty))
    (next : List (MemberRequirement Ty) × List Ty → κ → Solve α) (k : κ) :
    (mapParts f (((rs.flatMap fun r => [r.subject, r.member]).map (false, ·)) ++ ps) k >>= fun p =>
        next (withRequirements rs p.1) p.2) =
      mapRequirements (f false) rs k >>= fun q => mapParts f ps q.2 >>= fun p => next (q.1, p.1) p.2 := by
  induction rs generalizing k next with
  | nil =>
    have hnone (cs : List Ty) : withRequirements [] cs = ([], cs) := by cases cs <;> rfl
    simp [mapRequirements, hnone]
  | cons r rs ih =>
    have hrest (subject member : Ty) (k : κ) := ih (fun q => next (⟨r.name, subject, member⟩ :: q.1, q.2)) k
    simp only [mapRequirements, List.flatMap_cons, List.cons_append, List.nil_append, List.map_cons, mapParts,
      bind_assoc, pure_bind, withRequirements, hrest]

/-- **`map_type_children` is a loop over the parts.** -/
theorem mapChildren_eq (t : Ty) (k : κ) :
    mapChildren f t k = mapParts f t.parts k >>= fun p => pure (t.withChildren p.1, p.2) := by
  cases t
  case qualified rs body =>
    have h := mapRequirements_eq (f := f) rs [(false, body)] (fun q k => pure (Ty.qualified q.1 (q.2.headD body), k)) k
    simpa [mapChildren, Ty.parts, Ty.children, mapParts, Ty.withChildren] using h.symm
  all_goals
    simp [mapChildren, Ty.parts, Ty.children, mapParts, mapRow_eq, mapTypes_eq, Ty.withChildren]

end Parts

end Blot.Typecheck
