import Blot.Boundary.Keys

/-!
# The copy of a boundary is canonical (`copy_boundary_type`)

A copied type equals the type it was copied from (`copyUnder_sound`), so equal boundaries are boundaries of equal types.
Conversely two equal types are copied alike (`copyUnder_same`) where the sorting of rows and unions leaves no choice:
entries of one name, and members of one key, are the same type (`TiesAgree`).
-/

namespace Blot.Boundary

open Blot.Support Blot.Typecheck FlatTypeNode

/-! ### The branches of the copy -/

section Branches

variable {source : List FlatTypeNode} {fuel id : ℕ}

theorem copyUnder_rigid {v : ℕ} (h : source[id]? = some (.rigid v)) (rigids : List (ℕ × ℕ)) (s : Building) :
    copyUnder source (fuel + 1) rigids id s =
      match rigids.reverse.lookup v with
      | some canonical => .ok (s.intern (.rigid canonical))
      | none => .error ("sealed boundary contains free rigid variable " ++ toString v) := by
  cases hlookup : rigids.reverse.lookup v <;> simp only [copyUnder, h, hlookup]

theorem copyUnder_forallType {vs : List ℕ} {body : ℕ} (h : source[id]? = some (.forallType vs body))
    (rigids : List (ℕ × ℕ)) (s : Building) : copyUnder source (fuel + 1) rigids id s = (do
      let (canonical, s) ← freshRigids vs s
      let (body, s) ← copyUnder source fuel (rigids ++ vs.zip canonical) body s
      .ok (s.intern (.forallType canonical body))) := by
  simp only [copyUnder, h]

theorem copyUnder_other {node : FlatTypeNode} (h : source[id]? = some node) (hrigid : ∀ v, node ≠ .rigid v)
    (hforall : ∀ vs body, node ≠ .forallType vs body) (rigids : List (ℕ × ℕ)) (s : Building) :
    copyUnder source (fuel + 1) rigids id s = (do
      let node ← arrange source rigids node
      let (children, s) ← copyAll (copyUnder source fuel rigids) node.children s
      .ok (s.intern (node.assemble children))) := by
  cases node with
  | rigid v => exact absurd rfl (hrigid v)
  | forallType vs body => exact absurd rfl (hforall vs body)
  | _ => simp only [copyUnder, h]

end Branches

theorem freshRigids_ok {vs cs : List ℕ} {s s' : Building} (h : freshRigids vs s = .ok (cs, s')) :
    cs = List.range' s.nextRigid vs.length ∧ s' = { s with nextRigid := s.nextRigid + vs.length } := by
  induction vs generalizing cs s with
  | nil =>
    obtain ⟨rfl, rfl⟩ := Prod.mk.inj (Except.ok.inj h)
    exact ⟨rfl, rfl⟩
  | cons v vs ih =>
    rw [freshRigids] at h
    split at h
    case isTrue =>
      obtain ⟨⟨rest, s''⟩, hrest, h⟩ := bind_eq_ok.1 h
      obtain ⟨rfl, rfl⟩ := Prod.mk.inj (Except.ok.inj h)
      obtain ⟨rfl, rfl⟩ := ih hrest
      refine ⟨by rw [List.length_cons, List.range'_succ], ?_⟩
      rw [List.length_cons, Nat.add_right_comm, Nat.add_assoc]
    case isFalse => exact nomatch h

theorem freshRigids_length {vs ws : List ℕ} (hlen : vs.length = ws.length) (s : Building) :
    freshRigids vs s = freshRigids ws s := by
  induction vs generalizing ws s with
  | nil =>
    obtain rfl := List.eq_nil_of_length_eq_zero hlen.symm
    rfl
  | cons v vs ih =>
    cases ws with
    | nil => exact absurd hlen (Nat.succ_ne_zero _)
    | cons w ws =>
      rw [freshRigids, freshRigids]
      split
      · rw [ih (Nat.succ.inj hlen)]
      · rfl

/-! ### The order of rows and members -/

/-- What `arrange` does: rows are sorted by name and members by key. -/
structure Arranged (source : List FlatTypeNode) (rigids : List (ℕ × ℕ)) (node node' : FlatTypeNode) : Prop where
  head : node'.head = node.head
  fixed : node'.fixed = node.fixed
  row : node'.row = sortBy Prod.fst node.row
  members : ∃ keyed, List.Forall₂ (fun m p => closedBoundaryTypeKey source m rigids = some p.1 ∧ p.2 = m)
    node.members keyed ∧ node'.members = (sortBy Prod.fst keyed).map Prod.snd

theorem sortBy_nil {A K : Type} [LinearOrder K] (key : A → K) : sortBy key [] = [] := (sortBy_perm key []).eq_nil

theorem keyedMember_ok {source : List FlatTypeNode} {rigids : List (ℕ × ℕ)} {m : ℕ} {p : String × ℕ} :
    keyedMember source rigids m = .ok p ↔ closedBoundaryTypeKey source m rigids = some p.1 ∧ p.2 = m := by
  unfold keyedMember
  cases closedBoundaryTypeKey source m rigids with
  | none => exact iff_of_false nofun fun h => nomatch h.1
  | some key =>
    obtain ⟨k, x⟩ := p
    simp only [Except.ok.injEq, Prod.mk.injEq, Option.some.injEq]
    exact and_congr_right fun _ => eq_comm

theorem arrange_ok {source : List FlatTypeNode} {rigids : List (ℕ × ℕ)} {node node' : FlatTypeNode}
    (h : arrange source rigids node = .ok node') : Arranged source rigids node node' := by
  cases node with
  | record fields | recordUpdate base fields | variant entries isOpen =>
    obtain rfl := Except.ok.inj h
    exact ⟨rfl, rfl, rfl, [], .nil, (congrArg (List.map Prod.snd) (sortBy_nil Prod.fst)).symm⟩
  | union members =>
    obtain ⟨keyed, hkeyed, h⟩ := bind_eq_ok.1 h
    obtain rfl := Except.ok.inj h
    refine ⟨rfl, rfl, (sortBy_nil Prod.fst).symm, keyed, ?_, rfl⟩
    exact (collect_eq_ok.1 hkeyed).imp fun m p => keyedMember_ok.1
  | _ =>
    obtain rfl := Except.ok.inj h
    exact ⟨rfl, rfl, (sortBy_nil Prod.fst).symm, [], .nil, (congrArg (List.map Prod.snd) (sortBy_nil Prod.fst)).symm⟩

/-- Nodes are arranged when their members have keys. -/
theorem arrange_total {source : List FlatTypeNode} {rigids : List (ℕ × ℕ)} (node : FlatTypeNode)
    (h : ∀ m ∈ node.members, ∃ key, closedBoundaryTypeKey source m rigids = some key) :
    ∃ node', arrange source rigids node = .ok node' := by
  cases node with
  | union members =>
    obtain ⟨keyed, hkeyed⟩ := collect_of_forall (f := keyedMember source rigids) (l := members) fun m hm => by
      obtain ⟨key, hkey⟩ := h m hm
      exact ⟨(key, m), keyedMember_ok.2 ⟨hkey, rfl⟩⟩
    exact ⟨_, bind_eq_ok.2 ⟨keyed, hkeyed, rfl⟩⟩
  | _ => exact ⟨_, rfl⟩

theorem Arranged.members_perm {source : List FlatTypeNode} {rigids : List (ℕ × ℕ)} {node node' : FlatTypeNode}
    (h : Arranged source rigids node node') : node'.members.Perm node.members := by
  obtain ⟨keyed, hkeyed, hmembers⟩ := h.members
  have hsnd : keyed.map Prod.snd = node.members := by
    rw [← List.forall₂_eq_eq_eq, List.forall₂_map_left_iff]
    exact hkeyed.flip.imp fun p m hp => hp.2
  rw [hmembers, ← hsnd]
  exact (sortBy_perm Prod.fst keyed).map Prod.snd

theorem Arranged.children_perm {source : List FlatTypeNode} {rigids : List (ℕ × ℕ)} {node node' : FlatTypeNode}
    (h : Arranged source rigids node node') : node'.children.Perm node.children := by
  rw [children_eq, children_eq, h.fixed, h.row]
  exact (((sortBy_perm Prod.fst node.row).map Prod.snd).append h.members_perm).append_left node.fixed

/-! ### A copied type is the type -/

theorem getElem?_of_prefix {X : Type} {xs ys : List X} (h : xs <+: ys) {i : ℕ} {x : X} (hx : xs[i]? = some x) :
    ys[i]? = some x := by
  obtain ⟨zs, rfl⟩ := h
  obtain ⟨hi, -⟩ := List.getElem?_eq_some_iff.1 hx
  rw [List.getElem?_append_left hi, hx]

/-- The type `t` has been copied to `id`, wherever the arena grows to. -/
structure Copied (A : List FlatTypeNode) (fuel : ℕ) (pairs : List (ℕ × ℕ)) (s s' : Building) (t id : ℕ) : Prop where
  grows : s.nodes <+: s'.nodes
  next : s.nextRigid ≤ s'.nextRigid
  same : ∀ T, s'.nodes <+: T → SameWithin A T fuel pairs t id

/-- Types copied in turn. -/
theorem copyAll_sound {A : List FlatTypeNode} {fuel : ℕ} {pairs : List (ℕ × ℕ)}
    {copy : ℕ → Building → Except String (ℕ × Building)} {ts ids : List ℕ} {s s' : Building}
    (hcopy : ∀ t ∈ ts, ∀ s₁ id s₂, s.nextRigid ≤ s₁.nextRigid → copy t s₁ = .ok (id, s₂) →
      Copied A fuel pairs s₁ s₂ t id) (h : copyAll copy ts s = .ok (ids, s')) :
    s.nodes <+: s'.nodes ∧ s.nextRigid ≤ s'.nextRigid ∧
      ∀ T, s'.nodes <+: T → List.Forall₂ (SameWithin A T fuel pairs) ts ids := by
  induction ts generalizing s ids with
  | nil =>
    obtain ⟨rfl, rfl⟩ := Prod.mk.inj (Except.ok.inj h)
    exact ⟨List.prefix_rfl, Nat.le_refl _, fun T _ => .nil⟩
  | cons t ts ih =>
    obtain ⟨⟨id, s₁⟩, hid, h⟩ := bind_eq_ok.1 h
    obtain ⟨⟨rest, s₂⟩, hrest, h⟩ := bind_eq_ok.1 h
    obtain ⟨rfl, rfl⟩ := Prod.mk.inj (Except.ok.inj h)
    have hhead := hcopy t List.mem_cons_self s id s₁ (Nat.le_refl _) hid
    obtain ⟨hgrows, hnext, hall⟩ := ih (fun t ht s₂ id s₃ hle => hcopy t (List.mem_cons_of_mem _ ht) s₂ id s₃
      (Nat.le_trans hhead.next hle)) hrest
    refine ⟨hhead.grows.trans hgrows, Nat.le_trans hhead.next hnext, fun T hT => ?_⟩
    exact .cons (hhead.same T (hgrows.trans hT)) (hall T hT)

/-- The rigid that is read for a name corresponds to it, as the new numbers are distinct. -/
theorem corresponds_of_lookup {rigids : List (ℕ × ℕ)} (hnodup : (rigids.map Prod.snd).Nodup) {v c : ℕ}
    (h : rigids.lookup v = some c) : Corresponds rigids v c := by
  induction rigids with
  | nil => exact nomatch h
  | cons p rigids ih =>
    obtain ⟨w, d⟩ := p
    rw [List.map_cons, List.nodup_cons] at hnodup
    rw [Table.lookup_cons] at h
    by_cases hv : v = w
    · rw [if_pos hv] at h
      exact Or.inl ⟨hv, (Option.some.inj h).symm⟩
    · rw [if_neg hv] at h
      refine Or.inr ⟨hv, ?_, ih hnodup.2 h⟩
      rintro rfl
      obtain ⟨l₁, l₂, rfl, -⟩ := List.lookup_eq_some_iff.1 h
      exact hnodup.1 (by simp)

theorem nodeMatch_of_children {R : List (ℕ × ℕ) → ℕ → ℕ → Prop} {pairs : List (ℕ × ℕ)} {a b : FlatTypeNode}
    (hrigid : ∀ v, a ≠ .rigid v) (hforall : ∀ vs body, a ≠ .forallType vs body) (hhead : a.head = b.head)
    (hnames : a.row.map Prod.fst = b.row.map Prod.fst) (h : List.Forall₂ (R pairs) a.children b.children) :
    NodeMatch R pairs a b := by
  rw [children_eq, children_eq] at h
  have hfixed : a.fixed.length = b.fixed.length := by
    rw [← fixed_length_head a, hhead, fixed_length_head b]
  have hrow : a.row.length = b.row.length := by
    have := congrArg List.length hnames
    rwa [List.length_map, List.length_map] at this
  obtain ⟨h₁, h⟩ := forall₂_of_append hfixed h
  obtain ⟨h₂, h₃⟩ := forall₂_of_append (by rw [List.length_map, List.length_map, hrow]) h
  refine .other hrigid hforall hhead h₁ ⟨b.row, .refl _, ?_⟩ ⟨b.members, .refl _, h₃⟩
  rw [List.forall₂_map_left_iff, List.forall₂_map_right_iff] at h₂
  have hfst : List.Forall₂ (fun f g => f.1 = g.1) a.row b.row := by
    rw [← List.forall₂_eq_eq_eq, List.forall₂_map_left_iff, List.forall₂_map_right_iff] at hnames
    exact hnames
  exact forall₂_and hfst h₂

theorem nodeMatch_arranged {source : List FlatTypeNode} {rigids : List (ℕ × ℕ)} {node node' b : FlatTypeNode}
    {R : List (ℕ × ℕ) → ℕ → ℕ → Prop} {pairs : List (ℕ × ℕ)} (h : Arranged source rigids node node')
    (hmatch : NodeMatch R pairs node' b) (hrigid : ∀ v, node ≠ .rigid v)
    (hforall : ∀ vs body, node ≠ .forallType vs body) : NodeMatch R pairs node b := by
  obtain ⟨hrigid', hforall'⟩ := plain_of_head h.head.symm hrigid hforall
  cases hmatch with
  | rigid => exact absurd rfl (hrigid' _)
  | forallType => exact absurd rfl (hforall' _ _)
  | other _ _ hhead hfixed hrow hmembers =>
    refine .other hrigid hforall (h.head.symm.trans hhead) (h.fixed ▸ hfixed) ?_ ?_
    · obtain ⟨gs, hperm, hall⟩ := hrow
      rw [h.row] at hall
      obtain ⟨gs', hall', hperm'⟩ := List.perm_comp_forall₂ (sortBy_perm Prod.fst node.row).symm hall
      exact ⟨gs', hperm'.trans hperm, hall'⟩
    · obtain ⟨ns, hperm, hall⟩ := hmembers
      obtain ⟨ns', hall', hperm'⟩ := List.perm_comp_forall₂ h.members_perm.symm hall
      exact ⟨ns', hperm'.trans hperm, hall'⟩

/-- **A copied type is the type it was copied from**, with its rigids renamed. -/
theorem copyUnder_sound {A : List FlatTypeNode} {fuel : ℕ} {rigids : List (ℕ × ℕ)} {t id : ℕ} {s s' : Building}
    (hnodup : (rigids.map Prod.snd).Nodup) (hlt : ∀ p ∈ rigids, p.2 < s.nextRigid)
    (h : copyUnder A fuel rigids t s = .ok (id, s')) : Copied A fuel rigids.reverse s s' t id := by
  induction fuel generalizing rigids t id s s' with
  | zero => exact nomatch h
  | succ fuel ih =>
    cases hnode : A[t]? with
    | none =>
      simp only [copyUnder, hnode] at h
      exact nomatch h
    | some node =>
      by_cases hrigid : ∃ v, node = .rigid v
      · obtain ⟨v, rfl⟩ := hrigid
        rw [copyUnder_rigid hnode] at h
        cases hv : rigids.reverse.lookup v with
        | none =>
          rw [hv] at h
          exact nomatch h
        | some c =>
          rw [hv] at h
          obtain ⟨hmem, hgrows, hnext⟩ := s.intern_spec (.rigid c)
          rw [Except.ok.inj h] at hmem hgrows hnext
          refine ⟨hgrows, hnext.ge, fun T hT => ⟨.rigid v, .rigid c, hnode, ?_, .rigid ?_⟩⟩
          · exact getElem?_of_prefix hT hmem
          · refine corresponds_of_lookup ?_ hv
            rw [List.map_reverse]
            exact List.nodup_reverse.2 hnodup
      by_cases hforall : ∃ vs body, node = .forallType vs body
      · obtain ⟨vs, body, rfl⟩ := hforall
        rw [copyUnder_forallType hnode] at h
        obtain ⟨⟨cs, s₁⟩, hfresh, h⟩ := bind_eq_ok.1 h
        obtain ⟨⟨body', s₂⟩, hbody, h⟩ := bind_eq_ok.1 h
        obtain ⟨hcs, hs₁⟩ := freshRigids_ok hfresh
        have hlen : vs.length = cs.length := by rw [hcs, List.length_range']
        have hsnd : ((rigids ++ vs.zip cs).map Prod.snd) = rigids.map Prod.snd ++ cs := by
          rw [List.map_append, List.map_snd_zip hlen.ge]
        have hfresh : ∀ c ∈ cs, s.nextRigid ≤ c ∧ c < s₁.nextRigid := by
          intro c hc
          rw [hcs, List.mem_range'_1] at hc
          rw [hs₁]
          exact hc
        have hbody := ih ?_ ?_ hbody
        · obtain ⟨hmem, hgrows, hnext⟩ := s₂.intern_spec (.forallType cs body')
          rw [Except.ok.inj h] at hmem hgrows hnext
          have hnodes : s₁.nodes = s.nodes := by rw [hs₁]
          have hle : s.nextRigid ≤ s₁.nextRigid := by rw [hs₁]; exact Nat.le_add_right _ _
          refine ⟨hnodes ▸ hbody.grows.trans hgrows, hnext ▸ Nat.le_trans hle hbody.next, fun T hT => ?_⟩
          refine ⟨.forallType vs body, .forallType cs body', hnode, getElem?_of_prefix hT hmem, .forallType hlen ?_⟩
          unfold bindPairs
          rw [← List.reverse_append]
          exact hbody.same T (hgrows.trans hT)
        · rw [hsnd, List.nodup_append]
          refine ⟨hnodup, hcs ▸ List.nodup_range', ?_⟩
          rintro c hc d hd rfl
          obtain ⟨p, hp, rfl⟩ := List.mem_map.1 hc
          exact absurd (hlt p hp) (Nat.not_lt.2 (hfresh p.2 hd).1)
        · intro p hp
          have hmem : p.2 ∈ (rigids ++ vs.zip cs).map Prod.snd := List.mem_map_of_mem hp
          rw [hsnd, List.mem_append] at hmem
          rcases hmem with hmem | hmem
          · obtain ⟨q, hq, heq⟩ := List.mem_map.1 hmem
            rw [← heq, hs₁]
            exact Nat.lt_add_right _ (hlt q hq)
          · exact (hfresh p.2 hmem).2
      · have hrigid : ∀ v, node ≠ .rigid v := fun v hv => hrigid ⟨v, hv⟩
        have hforall : ∀ vs body, node ≠ .forallType vs body := fun vs body hv => hforall ⟨vs, body, hv⟩
        rw [copyUnder_other hnode hrigid hforall] at h
        obtain ⟨node', harrange, h⟩ := bind_eq_ok.1 h
        obtain ⟨⟨ids, s₁⟩, hids, h⟩ := bind_eq_ok.1 h
        have harranged := arrange_ok harrange
        obtain ⟨hrigid', hforall'⟩ := plain_of_head harranged.head.symm hrigid hforall
        obtain ⟨hgrows, hnext, hall⟩ := copyAll_sound
          (fun t _ s₂ id s₃ hle hcopy => ih hnodup (fun p hp => Nat.lt_of_lt_of_le (hlt p hp) hle) hcopy) hids
        have hlen : ids.length = node'.children.length := (hall s₁.nodes List.prefix_rfl).length_eq.symm
        obtain ⟨hhead, hchildren, hnames⟩ := assemble_parts hlen hforall'
        obtain ⟨hmem, hgrows', hnext'⟩ := s₁.intern_spec (node'.assemble ids)
        rw [Except.ok.inj h] at hmem hgrows' hnext'
        refine ⟨hgrows.trans hgrows', hnext' ▸ hnext, fun T hT => ?_⟩
        refine ⟨node, node'.assemble ids, hnode, getElem?_of_prefix hT hmem, ?_⟩
        refine nodeMatch_arranged harranged ?_ hrigid hforall
        refine nodeMatch_of_children hrigid' hforall' hhead.symm hnames.symm ?_
        rw [hchildren]
        exact hall T (hgrows'.trans hT)

/-! ### Equal types are copied alike -/

/-- The types that a type is made of. -/
def Below (source : List FlatTypeNode) : ℕ → ℕ → Prop :=
  Relation.ReflTransGen fun id child => ∃ node, source[id]? = some node ∧ child ∈ node.children

/-- The sorting of rows and unions below `root` leaves no choice: entries of one name are the same type, and so are
members of one key, under whichever binders the row or the union is reached. -/
structure TiesAgree (source : List FlatTypeNode) (root : ℕ) : Prop where
  row : ∀ id node, Below source root id → source[id]? = some node → ∀ scope : List ℕ, scope.Nodup →
    Scoped source scope id → ∀ f ∈ node.row, ∀ g ∈ node.row, f.1 = g.1 →
    SameType source source (bindPairs scope scope []) f.2 g.2
  members : ∀ id node, Below source root id → source[id]? = some node → ∀ scope cs : List ℕ, scope.Nodup →
    scope.length = cs.length → Scoped source scope id → ∀ m ∈ node.members, ∀ m' ∈ node.members,
    closedBoundaryTypeKey source m (scope.zip cs) = closedBoundaryTypeKey source m' (scope.zip cs) →
    SameType source source (bindPairs scope scope []) m m'

theorem TiesAgree.child {source : List FlatTypeNode} {root child : ℕ} {node : FlatTypeNode} (h : TiesAgree source root)
    (hnode : source[root]? = some node) (hchild : child ∈ node.children) : TiesAgree source child where
  row id node' hbelow := h.row id node' (.head ⟨node, hnode, hchild⟩ hbelow)
  members id node' hbelow := h.members id node' (.head ⟨node, hnode, hchild⟩ hbelow)

section Alike

variable {A B : List FlatTypeNode} {xs ys cs : List ℕ} {n : ℕ} {a b a' b' : FlatTypeNode} {i j : ℕ}

/-- Members of unions that are equal have one key. -/
theorem closedBoundaryTypeKey_same (hxs : xs.Nodup) (hys : ys.Nodup) (hlen : xs.length = ys.length)
    (hcs : xs.length = cs.length) (hi : Scoped A xs i) (hj : Scoped B ys j)
    (h : SameWithin A B n (bindPairs xs ys []) i j) :
    closedBoundaryTypeKey A i (xs.zip cs) = closedBoundaryTypeKey B j (ys.zip cs) := by
  have hfuel : i < max i j + 1 := Nat.lt_succ_of_le (Nat.le_max_left i j)
  have hfuel' : j < max i j + 1 := Nat.lt_succ_of_le (Nat.le_max_right i j)
  rw [closedBoundaryTypeKey_eq hxs hcs hi hfuel, closedBoundaryTypeKey_eq hys (hlen.symm.trans hcs) hj hfuel', hlen]
  unfold bindPairs at h
  rw [List.append_nil] at h
  rw [keyUnder_same hxs hys hlen hi hj h]

theorem children_arranged (hxs : xs.Nodup) (hys : ys.Nodup) (hlen : xs.length = ys.length) (hcs : xs.length = cs.length)
    (ha : A[i]? = some a) (hb : B[j]? = some b) (hi : Scoped A xs i) (hj : Scoped B ys j) (hties : TiesAgree B j)
    (hrigid : ∀ v, a ≠ .rigid v) (hforall : ∀ vs body, a ≠ .forallType vs body) (hhead : a.head = b.head)
    (hfixed : List.Forall₂ (SameWithin A B n (bindPairs xs ys [])) a.fixed b.fixed)
    (hrow : SameRow (SameWithin A B n (bindPairs xs ys [])) a.row b.row)
    (hmembers : SameBag (SameWithin A B n (bindPairs xs ys [])) a.members b.members)
    (harranged : Arranged A (xs.zip cs) a a') (harranged' : Arranged B (ys.zip cs) b b') :
    List.Forall₂ (SameWithin A B n (bindPairs xs ys [])) a'.children b'.children ∧
      a'.row.map Prod.fst = b'.row.map Prod.fst := by
  obtain ⟨hrigid', hforall'⟩ := plain_of_head hhead hrigid hforall
  have hchain : Chain (bindPairs xs ys []) (bindPairs ys ys []) (bindPairs xs ys []) := chain_nil.bind hlen rfl
  have hrows : List.Forall₂ (SameEntry (SameWithin A B n (bindPairs xs ys []))) a'.row b'.row := by
    rw [harranged.row, harranged'.row]
    refine forall₂_sortBy hrow (fun f g hfg => hfg.1) fun f _ g hg g' hg' hname hfg => ⟨hfg.1.trans hname, ?_⟩
    obtain ⟨m, hsame⟩ := hties.row j b .refl hb ys hys hj g hg g' hg' hname
    exact hfg.2.trans hchain hsame
  have hmembers' : List.Forall₂ (SameWithin A B n (bindPairs xs ys [])) a'.members b'.members := by
    obtain ⟨keyed, hkeyed, hmem⟩ := harranged.members
    obtain ⟨keyed', hkeyed', hmem'⟩ := harranged'.members
    -- The lists of keyed members match as the members do, with equal keys.
    have hbag : SameBag (fun p q => p.1 = q.1 ∧ SameWithin A B n (bindPairs xs ys []) p.2 q.2) keyed keyed' := by
      refine hmembers.along hkeyed hkeyed' fun m hm m' hm' p q hp hmm hq => ?_
      obtain ⟨hkeyp, rfl⟩ := hp
      obtain ⟨hkeyq, rfl⟩ := hq
      have hscoped := (hi.children ha hrigid hforall _ (mem_children_of_member hm)).2
      have hscoped' := (hj.children hb hrigid' hforall' _ (mem_children_of_member hm')).2
      have hkey := closedBoundaryTypeKey_same hxs hys hlen hcs hscoped hscoped' hmm
      rw [hkeyp, hkeyq] at hkey
      exact ⟨Option.some.inj hkey, hmm⟩
    rw [hmem, hmem', List.forall₂_map_left_iff, List.forall₂_map_right_iff]
    refine (forall₂_sortBy hbag (fun p q hpq => hpq.1) ?_).imp fun p q hpq => hpq.2
    intro p _ q hq q' hq' hkey hpq
    obtain ⟨m, hm, hkeym, rfl⟩ := exists_left_of_forall₂ hkeyed' hq
    obtain ⟨m', hm', hkeym', rfl⟩ := exists_left_of_forall₂ hkeyed' hq'
    obtain ⟨d, hsame⟩ := hties.members j b .refl hb ys cs hys (hlen.symm.trans hcs) hj q.2 hm q'.2 hm'
      (by rw [hkeym, hkeym', hkey])
    exact ⟨hpq.1.trans hkey, hpq.2.trans hchain hsame⟩
  refine ⟨?_, ?_⟩
  · rw [children_eq, children_eq, harranged.fixed, harranged'.fixed]
    refine List.rel_append hfixed (List.rel_append ?_ hmembers')
    rw [List.forall₂_map_left_iff, List.forall₂_map_right_iff]
    exact hrows.imp fun f g hfg => hfg.2
  · rw [← List.forall₂_eq_eq_eq, List.forall₂_map_left_iff, List.forall₂_map_right_iff]
    exact hrows.imp fun f g hfg => hfg.1

theorem lookup_zip {scope : List ℕ} (hnodup : scope.Nodup) (hlen : scope.length = cs.length) {k v : ℕ}
    (h : scope[k]? = some v) : (scope.zip cs).reverse.lookup v = cs[k]? := by
  obtain ⟨hk, -⟩ := List.getElem?_eq_some_iff.1 h
  have hc := List.getElem?_eq_getElem (hlen ▸ hk)
  rw [hc]
  refine Table.lookup_of_mem ?_ (List.mem_reverse.2 ?_)
  · rw [List.map_reverse, List.map_fst_zip hlen.le]
    exact List.nodup_reverse.2 hnodup
  · exact List.mem_of_getElem? (List.getElem?_zip_eq_some.2 ⟨h, hc⟩)

theorem copyAll_length {copy : ℕ → Building → Except String (ℕ × Building)} {ts ids : List ℕ} {s s' : Building}
    (h : copyAll copy ts s = .ok (ids, s')) : ids.length = ts.length := by
  induction ts generalizing s ids with
  | nil =>
    obtain ⟨rfl, -⟩ := Prod.mk.inj (Except.ok.inj h)
    rfl
  | cons t ts ih =>
    obtain ⟨⟨id, s₁⟩, -, h⟩ := bind_eq_ok.1 h
    obtain ⟨⟨rest, s₂⟩, hrest, h⟩ := bind_eq_ok.1 h
    obtain ⟨rfl, rfl⟩ := Prod.mk.inj (Except.ok.inj h)
    rw [List.length_cons, List.length_cons, ih hrest]

theorem copyAll_same {R : ℕ → ℕ → Prop} {copy copy' : ℕ → Building → Except String (ℕ × Building)} {ts us ids : List ℕ}
    {s s' : Building} (hR : List.Forall₂ R ts us)
    (hcopy : ∀ t ∈ ts, ∀ u ∈ us, R t u → ∀ s id s', copy t s = .ok (id, s') → copy' u s = .ok (id, s'))
    (h : copyAll copy ts s = .ok (ids, s')) : copyAll copy' us s = .ok (ids, s') := by
  induction hR generalizing s ids with
  | nil => exact h
  | @cons t u ts us htu _ ih =>
    obtain ⟨⟨id, s₁⟩, hid, h⟩ := bind_eq_ok.1 h
    obtain ⟨⟨rest, s₂⟩, hrest, h⟩ := bind_eq_ok.1 h
    obtain ⟨rfl, rfl⟩ := Prod.mk.inj (Except.ok.inj h)
    refine bind_eq_ok.2 ⟨(id, s₁), hcopy t List.mem_cons_self u List.mem_cons_self htu s id s₁ hid, ?_⟩
    refine bind_eq_ok.2 ⟨(rest, s₂), ih ?_ hrest, rfl⟩
    exact fun t ht u hu => hcopy t (List.mem_cons_of_mem _ ht) u (List.mem_cons_of_mem _ hu)

/-- **Equal types are copied alike.** -/
theorem copyUnder_same {fuel fuel' id : ℕ} {s s' : Building} (hxs : xs.Nodup) (hys : ys.Nodup)
    (hlen : xs.length = ys.length) (hcs : xs.length = cs.length) (hi : Scoped A xs i) (hj : Scoped B ys j)
    (hties : TiesAgree B j) (h : SameWithin A B n (bindPairs xs ys []) i j) (hfuel : j < fuel')
    (hcopy : copyUnder A fuel (xs.zip cs) i s = .ok (id, s')) :
    copyUnder B fuel' (ys.zip cs) j s = .ok (id, s') := by
  induction fuel generalizing n fuel' id s s' xs ys cs i j with
  | zero => exact nomatch hcopy
  | succ fuel ih =>
    cases n with
    | zero => exact h.elim
    | succ n =>
      cases fuel' with
      | zero => exact absurd hfuel (Nat.not_lt_zero _)
      | succ fuel' =>
        obtain ⟨a, b, ha, hb, hab⟩ := h
        cases hab with
        | @rigid v w hvw =>
          have hlookup : (xs.zip cs).reverse.lookup v = (ys.zip cs).reverse.lookup w := by
            unfold bindPairs at hvw
            rw [List.append_nil] at hvw
            obtain ⟨k, hk, hk'⟩ := bound_of_corresponds hlen hvw (hi.mem_bound ha)
            rw [lookup_zip hxs hcs hk, lookup_zip hys (hlen.symm.trans hcs) hk']
          rw [copyUnder_rigid ha, hlookup] at hcopy
          rw [copyUnder_rigid hb]
          cases hw : (ys.zip cs).reverse.lookup w with
          | none =>
            rw [hw] at hcopy
            exact nomatch hcopy
          | some c =>
            rw [hw] at hcopy
            exact hcopy
        | @forallType vs ws body body' hvs hbody =>
          obtain ⟨-, hbound, hi⟩ := hi.body ha
          obtain ⟨hprior, hbound', hj⟩ := hj.body hb
          rw [copyUnder_forallType ha] at hcopy
          rw [copyUnder_forallType hb]
          obtain ⟨⟨fresh, s₁⟩, hfresh, hcopy⟩ := bind_eq_ok.1 hcopy
          obtain ⟨⟨copied, s₂⟩, hcopied, hcopy⟩ := bind_eq_ok.1 hcopy
          have hlenfresh : vs.length = fresh.length := by
            rw [(freshRigids_ok hfresh).1, List.length_range']
          refine bind_eq_ok.2 ⟨(fresh, s₁), freshRigids_length hvs s ▸ hfresh, ?_⟩
          refine bind_eq_ok.2 ⟨(copied, s₂), ?_, hcopy⟩
          have hbody : SameWithin A B n (bindPairs (xs ++ vs) (ys ++ ws) []) body body' := by
            have hpairs : bindPairs vs ws (bindPairs xs ys []) = bindPairs (xs ++ vs) (ys ++ ws) [] := by
              unfold bindPairs
              rw [List.zip_append hlen, List.reverse_append, List.append_assoc]
            rwa [← hpairs]
          rw [← List.zip_append hcs] at hcopied
          rw [← List.zip_append (hlen.symm.trans hcs)]
          refine ih (hbound hxs) (hbound' hys) ?_ ?_ hi hj ?_ hbody (by omega) hcopied
          · rw [List.length_append, List.length_append, hlen, hvs]
          · rw [List.length_append, List.length_append, hcs, hlenfresh]
          · exact hties.child hb List.mem_cons_self
        | other hrigid hforall hhead hfixed hrow hmembers =>
          obtain ⟨hrigid', hforall'⟩ := plain_of_head hhead hrigid hforall
          rw [copyUnder_other ha hrigid hforall] at hcopy
          rw [copyUnder_other hb hrigid' hforall']
          obtain ⟨a', harrange, hcopy⟩ := bind_eq_ok.1 hcopy
          obtain ⟨⟨ids, s₁⟩, hids, hcopy⟩ := bind_eq_ok.1 hcopy
          have harranged := arrange_ok harrange
          -- The members on the right have the keys of the members on the left.
          have hkeys : ∀ m' ∈ b.members, ∃ key, closedBoundaryTypeKey B m' (ys.zip cs) = some key := by
            intro m' hm'
            obtain ⟨m, hm, hmm⟩ := (hmembers.symm fun _ _ h => h).covers m' hm'
            obtain ⟨keyed, hkeyed, -⟩ := harranged.members
            obtain ⟨p, -, hkey, -⟩ := exists_right_of_forall₂ hkeyed hm
            have hscoped := (hi.children ha hrigid hforall m (mem_children_of_member hm)).2
            have hscoped' := (hj.children hb hrigid' hforall' m' (mem_children_of_member hm')).2
            exact ⟨p.1, (closedBoundaryTypeKey_same hxs hys hlen hcs hscoped hscoped' hmm).symm.trans hkey⟩
          obtain ⟨b', harrange'⟩ := arrange_total b hkeys
          have harranged' := arrange_ok harrange'
          obtain ⟨hchildren, hnames⟩ := children_arranged hxs hys hlen hcs ha hb hi hj hties hrigid hforall hhead hfixed
            hrow hmembers harranged harranged'
          have hids' : copyAll (copyUnder B fuel' (ys.zip cs)) b'.children s = .ok (ids, s₁) := by
            refine copyAll_same hchildren (fun t ht u hu htu s id s' hcopy => ?_) hids
            have ht := harranged.children_perm.mem_iff.1 ht
            have hu := harranged'.children_perm.mem_iff.1 hu
            obtain ⟨hlt, hscoped'⟩ := hj.children hb hrigid' hforall' u hu
            have hscoped := (hi.children ha hrigid hforall t ht).2
            exact ih hxs hys hlen hcs hscoped hscoped' (hties.child hb hu) htu (by omega) hcopy
          have hassemble : a'.assemble ids = b'.assemble ids := by
            have hlenids := copyAll_length hids
            obtain ⟨hrigida, hforalla⟩ := plain_of_head harranged.head.symm hrigid hforall
            obtain ⟨hrigidb, hforallb⟩ := plain_of_head harranged'.head.symm hrigid' hforall'
            obtain ⟨hheada, hchildrena, hnamesa⟩ := assemble_parts hlenids hforalla
            obtain ⟨hheadb, hchildrenb, hnamesb⟩ := assemble_parts (copyAll_length hids') hforallb
            have hheads : a'.head = b'.head := harranged.head.trans (hhead.trans harranged'.head.symm)
            obtain ⟨hrigidr, hforallr⟩ := plain_of_head hheada.symm hrigida hforalla
            refine eq_of_parts (hheada.trans (hheads.trans hheadb.symm)) (hchildrena.trans hchildrenb.symm) ?_ hrigidr
              hforallr
            exact hnamesa.trans (hnames.trans hnamesb.symm)
          have hcopy : Except.ok (s₁.intern (a'.assemble ids)) = .ok (id, s') := hcopy
          rw [hassemble] at hcopy
          exact bind_eq_ok.2 ⟨b', harrange', bind_eq_ok.2 ⟨(ids, s₁), hids', hcopy⟩⟩

end Alike

end Blot.Boundary
