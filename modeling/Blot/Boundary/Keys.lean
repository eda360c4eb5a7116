import Blot.Boundary.Same
import Blot.Typecheck.Keys

/-!
# Keys of equal types (`closed_boundary_type_key`)

Equal types have one key, whichever arenas they are in and whatever their binders are called (`keyUnder_same`): the key
numbers the binders, and sorts what it reads of rows, unions and requirements.
-/

namespace Blot.Boundary

open Blot.Support Blot.Typecheck FlatTypeNode

/-! ### The branches of the two loops -/

section Branches

variable {source : List FlatTypeNode} {fuel id : ℕ}

theorem keyUnder_rigid {v : ℕ} (h : source[id]? = some (.rigid v)) (binders : Table ℕ ℕ) :
    keyUnder source (fuel + 1) binders id = (binders.lookup v).map fun index => "^" ++ toString index := by
  rw [keyUnder, h]

theorem keyUnder_forallType {vs : List ℕ} {body : ℕ} (h : source[id]? = some (.forallType vs body))
    (binders : Table ℕ ℕ) : keyUnder source (fuel + 1) binders id =
      (keyUnder source fuel (binders.extend (vs.zipIdx binders.length)) body).map fun body =>
        "all" ++ toString vs.length ++ "(" ++ body ++ ")" := by
  rw [keyUnder, h]

theorem keyUnder_other {node : FlatTypeNode} (h : source[id]? = some node) (hrigid : ∀ v, node ≠ .rigid v)
    (hforall : ∀ vs body, node ≠ .forallType vs body) (binders : Table ℕ ℕ) :
    keyUnder source (fuel + 1) binders id =
      (node.children.mapM (keyUnder source fuel binders)).bind (assembleKey node) := by
  rw [keyUnder, h]
  cases node with
  | rigid v => exact absurd rfl (hrigid v)
  | forallType vs body => exact absurd rfl (hforall vs body)
  | _ => rfl

end Branches

theorem mapM_forall₂ {f g : ℕ → Option String} {xs ys : List ℕ} (h : List.Forall₂ (fun x y => f x = g y) xs ys) :
    xs.mapM f = ys.mapM g := by
  induction h with
  | nil => rfl
  | cons hxy _ ih => rw [List.mapM_cons, List.mapM_cons, hxy, ih]

theorem mapM_congr {f g : ℕ → Option String} {xs : List ℕ} (h : ∀ x ∈ xs, f x = g x) : xs.mapM f = xs.mapM g :=
  mapM_forall₂ (List.forall₂_same.2 h)

theorem keyUnder_fuel {source : List FlatTypeNode} {bound : List ℕ} {id : ℕ} (h : Scoped source bound id)
    {fuel fuel' : ℕ} (hfuel : id < fuel) (hfuel' : id < fuel') (binders : Table ℕ ℕ) :
    keyUnder source fuel binders id = keyUnder source fuel' binders id := by
  induction h generalizing fuel fuel' binders with
  | rigid hnode hv =>
    cases fuel with
    | zero => exact absurd hfuel (Nat.not_lt_zero _)
    | succ fuel =>
      cases fuel' with
      | zero => exact absurd hfuel' (Nat.not_lt_zero _)
      | succ fuel' => rw [keyUnder_rigid hnode, keyUnder_rigid hnode]
  | @forallType _ vs id body hnode hbody _ _ ih =>
    cases fuel with
    | zero => exact absurd hfuel (Nat.not_lt_zero _)
    | succ fuel =>
      cases fuel' with
      | zero => exact absurd hfuel' (Nat.not_lt_zero _)
      | succ fuel' =>
        have hlt : body < fuel := by omega
        have hlt' : body < fuel' := by omega
        rw [keyUnder_forallType hnode, keyUnder_forallType hnode, ih hlt hlt']
  | other hnode hrigid hforall hprior _ ih =>
    cases fuel with
    | zero => exact absurd hfuel (Nat.not_lt_zero _)
    | succ fuel =>
      cases fuel' with
      | zero => exact absurd hfuel' (Nat.not_lt_zero _)
      | succ fuel' =>
        rw [keyUnder_other hnode hrigid hforall, keyUnder_other hnode hrigid hforall]
        rw [mapM_congr fun child hchild => ?_]
        have hlt := hprior child hchild
        exact ih child hchild (by omega) (by omega) binders

/-! ### Keys of matching parts -/

theorem sortedKey_perm {ks ks' : List String} (h : ks.Perm ks') : Ty.sortedKey ks = Ty.sortedKey ks' := by
  unfold Ty.sortedKey
  congr 1
  have hsorted : ∀ l : List String, (l.mergeSort fun a b => decide (a ≤ b)).Pairwise (· ≤ ·) := by
    intro l
    have := sortBy_sorted (fun k : String => k) l
    rwa [List.map_id'] at this
  refine List.Perm.eq_of_pairwise (fun _ _ _ _ => le_antisymm) (hsorted ks) (hsorted ks') ?_
  exact (List.mergeSort_perm ks _).trans (h.trans (List.mergeSort_perm ks' _).symm)

theorem mapM_sameBag {X Y K : Type} {f : X → Option K} {g : Y → Option K} {xs : List X} {ys : List Y} {ks : List K}
    (h : SameBag (fun x y => f x = g y) xs ys) (hks : xs.mapM f = some ks) :
    ∃ ks', ys.mapM g = some ks' ∧ ks'.Perm ks := by
  obtain ⟨ys', hperm, hall⟩ := h
  have hys' : List.Forall₂ (fun y k => g y = some k) ys' ks := by
    refine forall₂_trans hall.flip (mapM_eq_some_iff.1 hks) fun y x k hxy hk => ?_
    exact hxy.symm.trans hk
  obtain ⟨ks', hks', hperm'⟩ := List.perm_comp_forall₂ hperm.symm hys'
  exact ⟨ks', mapM_eq_some_iff.2 hks', hperm'⟩

theorem rowKey_eq {f : ℕ → Option String} (fields : List (String × ℕ)) :
    ((fields.map Prod.snd).mapM f).map (rowKey fields) =
      (fields.mapM fun p => (f p.2).map (Ty.textKey p.1 ++ ·)).map
        fun keys => "\x7b" ++ Ty.sortedKey keys ++ "\x7d" := by
  have hzip : ((fields.map Prod.snd).mapM f).map (List.zipWith (fun p key => Ty.textKey p.1 ++ key) fields) =
      fields.mapM fun p => (f p.2).map (Ty.textKey p.1 ++ ·) := by
    induction fields with
    | nil => rfl
    | cons p fields ih =>
      rw [List.map_cons, List.mapM_cons, List.mapM_cons, ← ih]
      cases f p.2 with
      | none => rfl
      | some key => cases (fields.map Prod.snd).mapM f <;> rfl
  rw [← hzip, Option.map_map]
  rfl

theorem rowKey_sameRow {f g : ℕ → Option String} {fs gs : List (String × ℕ)}
    (h : SameRow (fun x y => f x = g y) fs gs) {ks : List String} (hks : (fs.map Prod.snd).mapM f = some ks) :
    ∃ ks', (gs.map Prod.snd).mapM g = some ks' ∧ rowKey gs ks' = rowKey fs ks := by
  have hentries := rowKey_eq (f := f) fs
  rw [hks, Option.map_some] at hentries
  obtain ⟨entries, hentries, hsame⟩ := Option.map_eq_some_iff.1 hentries.symm
  have hbag : SameBag (fun p q => (f p.2).map (Ty.textKey p.1 ++ ·) = (g q.2).map (Ty.textKey q.1 ++ ·)) fs gs := by
    refine SameBag.mono h fun p _ q _ hpq => ?_
    rw [hpq.1, hpq.2]
  obtain ⟨entries', hentries', hperm⟩ := mapM_sameBag hbag hentries
  have hkey := rowKey_eq (f := g) gs
  rw [hentries', Option.map_some, sortedKey_perm hperm, hsame] at hkey
  obtain ⟨ks', hks', hkey⟩ := Option.map_eq_some_iff.1 hkey
  exact ⟨ks', hks', hkey⟩

theorem requirementKeys_names {rs qs : List (MemberRequirement ℕ)}
    (h : rs.map (fun r => (⟨r.name, 0, 0⟩ : MemberRequirement ℕ)) = qs.map fun q => ⟨q.name, 0, 0⟩)
    (keys : List String) :
    requirementKeys rs keys = requirementKeys qs keys := by
  induction rs generalizing qs keys with
  | nil =>
    obtain rfl := List.map_eq_nil_iff.1 h.symm
    rfl
  | cons r rs ih =>
    cases qs with
    | nil => exact nomatch h
    | cons q qs =>
      obtain ⟨hname, hrest⟩ := List.cons.inj h
      match keys with
      | [] => rfl
      | [_] => rfl
      | subject :: member :: keys =>
        rw [requirementKeys, requirementKeys, ih hrest, (MemberRequirement.mk.inj hname).1]

theorem assembleKey_head (a : FlatTypeNode) (hrow : a.row = []) (keys : List String) :
    assembleKey a keys = assembleKey a.head keys := by
  cases a with
  | qualified rs body =>
    cases keys with
    | nil => rfl
    | cons key keys =>
      have hkeys : requirementKeys rs keys = requirementKeys (rs.map fun r => ⟨r.name, 0, 0⟩) keys := by
        refine requirementKeys_names ?_ keys
        rw [List.map_map]
        rfl
      rw [head, assembleKey, assembleKey, hkeys]
  | record fields =>
    obtain rfl : fields = [] := hrow
    rfl
  | recordUpdate base fields =>
    obtain rfl : fields = [] := hrow
    cases keys <;> rfl
  | variant entries isOpen =>
    obtain rfl : entries = [] := hrow
    rfl
  | function deferred p e r =>
    rcases keys with _ | ⟨_, _ | ⟨_, _ | ⟨_, _ | _⟩⟩⟩ <;> rfl
  | array _ | region _ | scratch _ | resource _ _ | openEffects _ _ =>
    rcases keys with _ | ⟨_, _ | _⟩ <;> rfl
  | _ => rfl

section Nodes

variable {f g : ℕ → Option String} {a b : FlatTypeNode}

theorem nodeKey_fixed (hhead : a.head = b.head) (hfixed : List.Forall₂ (fun x y => f x = g y) a.fixed b.fixed)
    (ha : a.row = [] ∧ a.members = []) (hb : b.row = [] ∧ b.members = []) :
    (a.children.mapM f).bind (assembleKey a) = (b.children.mapM g).bind (assembleKey b) := by
  have hchildren : a.children.mapM f = b.children.mapM g := by
    rw [children_eq, children_eq, ha.1, ha.2, hb.1, hb.2]
    simpa using mapM_forall₂ hfixed
  rw [hchildren]
  congr 1
  funext keys
  rw [assembleKey_head a ha.1, assembleKey_head b hb.1, hhead]

theorem nodeKey_of_match {key : String} (hhead : a.head = b.head)
    (hfixed : List.Forall₂ (fun x y => f x = g y) a.fixed b.fixed) (hrow : SameRow (fun x y => f x = g y) a.row b.row)
    (hmembers : SameBag (fun x y => f x = g y) a.members b.members)
    (hkey : (a.children.mapM f).bind (assembleKey a) = some key) :
    (b.children.mapM g).bind (assembleKey b) = some key := by
  have hplain : a.row = [] ∧ a.members = [] → (b.children.mapM g).bind (assembleKey b) = some key := by
    intro ha
    have hb : b.row = [] ∧ b.members = [] := by
      constructor
      · exact List.eq_nil_of_length_eq_zero (by rw [← hrow.length_eq, ha.1]; rfl)
      · exact List.eq_nil_of_length_eq_zero (by rw [← hmembers.length_eq, ha.2]; rfl)
    rw [← nodeKey_fixed hhead hfixed ha hb]
    exact hkey
  cases a with
  | record fs =>
    cases b with
    | record gs =>
      have hrow : SameRow (fun x y => f x = g y) fs gs := hrow
      obtain ⟨ks, hks, hkey⟩ := Option.bind_eq_some_iff.1 hkey
      obtain ⟨ks', hks', hsame⟩ := rowKey_sameRow hrow hks
      refine Option.bind_eq_some_iff.2 ⟨ks', hks', ?_⟩
      rw [← hkey, assembleKey, assembleKey, hsame]
    | _ => cases hhead
  | recordUpdate base fs =>
    cases b with
    | recordUpdate base' gs =>
      have hrow : SameRow (fun x y => f x = g y) fs gs := hrow
      obtain ⟨keys, hkeys, hkey⟩ := Option.bind_eq_some_iff.1 hkey
      rw [children, List.mapM_cons] at hkeys ⊢
      obtain ⟨k, ks, hk, hks, rfl⟩ := bind₂_eq_some.1 hkeys
      obtain ⟨ks', hks', hsame⟩ := rowKey_sameRow hrow hks
      have hbase : f base = g base' := (List.forall₂_cons.1 hfixed).1
      rw [← hbase, hk, hks']
      rw [assembleKey, ← hsame] at hkey
      exact hkey
    | _ => cases hhead
  | variant fs isOpen =>
    cases b with
    | variant gs isOpen' =>
      have hrow : SameRow (fun x y => f x = g y) fs gs := hrow
      obtain ⟨ks, hks, hkey⟩ := Option.bind_eq_some_iff.1 hkey
      obtain ⟨ks', hks', hsame⟩ := rowKey_sameRow hrow hks
      obtain ⟨-, rfl⟩ := FlatTypeNode.variant.inj hhead
      refine Option.bind_eq_some_iff.2 ⟨ks', hks', ?_⟩
      rw [← hkey, assembleKey, assembleKey, hsame]
    | _ => cases hhead
  | union ms =>
    cases b with
    | union ns =>
      obtain ⟨ks, hks, hkey⟩ := Option.bind_eq_some_iff.1 hkey
      obtain ⟨ks', hks', hperm⟩ := mapM_sameBag hmembers hks
      refine Option.bind_eq_some_iff.2 ⟨ks', hks', ?_⟩
      rw [← hkey, assembleKey, assembleKey, sortedKey_perm hperm]
    | _ => cases hhead
  | _ => exact hplain ⟨rfl, rfl⟩

/-- **Matching nodes have one key.** -/
theorem nodeKey_match (hhead : a.head = b.head) (hfixed : List.Forall₂ (fun x y => f x = g y) a.fixed b.fixed)
    (hrow : SameRow (fun x y => f x = g y) a.row b.row)
    (hmembers : SameBag (fun x y => f x = g y) a.members b.members) :
    (a.children.mapM f).bind (assembleKey a) = (b.children.mapM g).bind (assembleKey b) := by
  refine Option.ext fun key => ⟨nodeKey_of_match hhead hfixed hrow hmembers, ?_⟩
  refine nodeKey_of_match hhead.symm (hfixed.flip.imp fun y x => Eq.symm) ?_ ?_
  · exact hrow.symm fun x y => Eq.symm
  · exact hmembers.symm fun x y => Eq.symm

end Nodes

/-! ### Keys of equal types -/

theorem lookup_binderTable {scope : List ℕ} (hnodup : scope.Nodup) {k v : ℕ} (h : scope[k]? = some v) :
    (Ty.binderTable scope).lookup v = some k := by
  refine Table.lookup_of_mem ?_ (List.mem_zipIdx_iff_getElem?.2 h)
  unfold Ty.binderTable
  rwa [List.zipIdx_map_fst]

theorem bound_of_corresponds {xs ys : List ℕ} (hlen : xs.length = ys.length) {v w : ℕ}
    (h : Corresponds (xs.zip ys).reverse v w) (hv : v ∈ xs) :
    ∃ k : ℕ, xs[k]? = some v ∧ ys[k]? = some w := by
  rcases h.mem_or_free with hmem | ⟨hfree, -, -⟩
  · obtain ⟨k, hk⟩ := List.mem_iff_getElem?.1 (List.mem_reverse.1 hmem)
    exact ⟨k, List.getElem?_zip_eq_some.1 hk⟩
  · rw [List.map_reverse, List.map_fst_zip hlen.le, List.mem_reverse] at hfree
    exact absurd hv hfree

section Same

variable {A B : List FlatTypeNode}

theorem Scoped.children {bound : List ℕ} {id : ℕ} (h : Scoped A bound id) {node : FlatTypeNode}
    (hnode : A[id]? = some node) (hrigid : ∀ v, node ≠ .rigid v) (hforall : ∀ vs body, node ≠ .forallType vs body) :
    ∀ child ∈ node.children, child < id ∧ Scoped A bound child := by
  cases h with
  | rigid hnode' => exact absurd (Option.some.inj (hnode.symm.trans hnode')) (hrigid _)
  | forallType hnode' => exact absurd (Option.some.inj (hnode.symm.trans hnode')) (hforall _ _)
  | other hnode' _ _ hprior h =>
    obtain rfl := Option.some.inj (hnode.symm.trans hnode')
    exact fun child hchild => ⟨hprior child hchild, h child hchild⟩

theorem Scoped.body {bound : List ℕ} {id : ℕ} (h : Scoped A bound id) {vs : List ℕ} {body : ℕ}
    (hnode : A[id]? = some (.forallType vs body)) :
    body < id ∧ (bound.Nodup → (bound ++ vs).Nodup) ∧ Scoped A (bound ++ vs) body := by
  cases h with
  | rigid hnode' => exact nomatch hnode.symm.trans hnode'
  | forallType hnode' hbody hbound h =>
    obtain ⟨rfl, rfl⟩ := FlatTypeNode.forallType.inj (Option.some.inj (hnode.symm.trans hnode'))
    exact ⟨hbody, hbound, h⟩
  | other hnode' _ hforall => exact absurd (Option.some.inj (hnode'.symm.trans hnode)) (hforall _ _)

theorem Scoped.mem_bound {bound : List ℕ} {id v : ℕ} (h : Scoped A bound id) (hnode : A[id]? = some (.rigid v)) :
    v ∈ bound := by
  cases h with
  | rigid hnode' hv =>
    obtain rfl := FlatTypeNode.rigid.inj (Option.some.inj (hnode.symm.trans hnode'))
    exact hv
  | forallType hnode' => exact nomatch hnode.symm.trans hnode'
  | other hnode' hrigid => exact absurd (Option.some.inj (hnode'.symm.trans hnode)) (hrigid _)

/-- **Equal types have one key.** -/
theorem keyUnder_same {n fuel : ℕ} {xs ys : List ℕ} {i j : ℕ} (hxs : xs.Nodup) (hys : ys.Nodup)
    (hlen : xs.length = ys.length) (hi : Scoped A xs i) (hj : Scoped B ys j)
    (h : SameWithin A B n (xs.zip ys).reverse i j) :
    keyUnder A fuel (Ty.binderTable xs) i = keyUnder B fuel (Ty.binderTable ys) j := by
  induction fuel generalizing n xs ys i j with
  | zero => rfl
  | succ fuel ih =>
    cases n with
    | zero => exact h.elim
    | succ n =>
      obtain ⟨a, b, ha, hb, hab⟩ := h
      cases hab with
      | rigid hvw =>
        obtain ⟨k, hk, hk'⟩ := bound_of_corresponds hlen hvw (hi.mem_bound ha)
        rw [keyUnder_rigid ha, keyUnder_rigid hb, lookup_binderTable hxs hk, lookup_binderTable hys hk']
      | forallType hvs hbody =>
        obtain ⟨-, hbound, hi⟩ := hi.body ha
        obtain ⟨-, hbound', hj⟩ := hj.body hb
        rw [bindPairs_zip hlen] at hbody
        rw [keyUnder_forallType ha, keyUnder_forallType hb, hvs, Ty.binderTable_extend (hbound hxs),
          Ty.binderTable_extend (hbound' hys)]
        rw [ih (hbound hxs) (hbound' hys) (by rw [List.length_append, List.length_append, hlen, hvs]) hi hj hbody]
      | other hrigid hforall hhead hfixed hrow hmembers =>
        obtain ⟨hrigid', hforall'⟩ := plain_of_head hhead hrigid hforall
        rw [keyUnder_other ha hrigid hforall, keyUnder_other hb hrigid' hforall']
        have hchild : ∀ x ∈ a.children, ∀ y ∈ b.children, SameWithin A B n (xs.zip ys).reverse x y →
            keyUnder A fuel (Ty.binderTable xs) x = keyUnder B fuel (Ty.binderTable ys) y := by
          intro x hx y hy hxy
          exact ih hxs hys hlen (hi.children ha hrigid hforall x hx).2 (hj.children hb hrigid' hforall' y hy).2 hxy
        refine nodeKey_match hhead ?_ ?_ ?_
        · refine forall₂_imp_of_mem₂ hfixed fun x y hx hy => hchild x ?_ y ?_
          · exact mem_children_of_fixed hx
          · exact mem_children_of_fixed hy
        · refine hrow.mono fun p hp q hq _ => hchild _ ?_ _ ?_
          · exact mem_children_of_row hp
          · exact mem_children_of_row hq
        · refine hmembers.mono fun x hx y hy => hchild x ?_ y ?_
          · exact mem_children_of_member hx
          · exact mem_children_of_member hy

end Same

theorem closedBoundaryTypeKey_eq {source : List FlatTypeNode} {scope cs : List ℕ} {member fuel : ℕ}
    (hscope : scope.Nodup) (hlen : scope.length = cs.length) (h : Scoped source scope member) (hfuel : member < fuel) :
    closedBoundaryTypeKey source member (scope.zip cs) =
      (keyUnder source fuel (Ty.binderTable scope) member).map fun body =>
        "all" ++ toString scope.length ++ "(" ++ body ++ ")" := by
  have htable : Table.extend [] (scope.zipIdx) = Ty.binderTable scope := by
    have hnodup : ([] ++ scope).Nodup := hscope
    exact Ty.binderTable_extend hnodup
  unfold closedBoundaryTypeKey
  rw [List.map_fst_zip hlen.le, List.length_zip, ← hlen, Nat.min_self, htable,
    keyUnder_fuel h (Nat.lt_succ_self member) hfuel]

end Blot.Boundary
