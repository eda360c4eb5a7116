import Blot.Boundary.Canonical

/-!
# When two interfaces have one boundary

Equal bytes are bytes of equal interfaces.  Equal interfaces have equal bytes where the sorting of rows and unions
leaves no choice (`TiesAgree`).  It can leave one: the key of a qualified type sorts its requirements and the copy does
not, so a union can have two members of one key (`sealedBoundaryBytes_union`).
-/

namespace Blot.Boundary

open Blot.Support Blot.Typecheck FlatTypeNode

namespace CachedModuleInterface

def roots (interface : CachedModuleInterface) : List ℕ :=
  interface.result :: interface.effects :: interface.parameter.toList

/-- The type arena of the interface satisfies `validate_certificate_type`. -/
def Validated (interface : CachedModuleInterface) : Prop :=
  ∀ root ∈ interface.roots, validateCertificateType interface.types root = .ok ()

/-- The copied types of an interface, one after the other. -/
theorem sealedBoundary_ok {interface : CachedModuleInterface} {boundary : SealedModuleBoundary} :
    interface.sealedBoundary = .ok boundary ↔
      ∃ result effects s s', copyBoundaryType interface.types interface.result ⟨[], 0⟩ = .ok (result, s) ∧
        copyBoundaryType interface.types interface.effects s = .ok (effects, s') ∧
        ((interface.parameter = none ∧ boundary = ⟨1, "0.1.0", 24, s'.nodes, result, effects, none⟩) ∨
          ∃ parameter copied s'', interface.parameter = some parameter ∧
            copyBoundaryType interface.types parameter s' = .ok (copied, s'') ∧
            boundary = ⟨1, "0.1.0", 24, s''.nodes, result, effects, some copied⟩) := by
  unfold sealedBoundary
  constructor
  · intro h
    obtain ⟨⟨result, s⟩, hresult, h⟩ := bind_eq_ok.1 h
    obtain ⟨⟨effects, s'⟩, heffects, h⟩ := bind_eq_ok.1 h
    refine ⟨result, effects, s, s', hresult, heffects, ?_⟩
    cases hparameter : interface.parameter with
    | none =>
      rw [hparameter] at h
      exact Or.inl ⟨rfl, (Except.ok.inj h).symm⟩
    | some parameter =>
      rw [hparameter] at h
      obtain ⟨⟨copied, s''⟩, hcopied, h⟩ := bind_eq_ok.1 h
      exact Or.inr ⟨parameter, copied, s'', rfl, hcopied, (Except.ok.inj h).symm⟩
  · rintro ⟨result, effects, s, s', hresult, heffects, h⟩
    refine bind_eq_ok.2 ⟨(result, s), hresult, bind_eq_ok.2 ⟨(effects, s'), heffects, ?_⟩⟩
    rcases h with ⟨hparameter, rfl⟩ | ⟨parameter, copied, s'', hparameter, hcopied, rfl⟩
    · rw [hparameter]
    · rw [hparameter]
      exact bind_eq_ok.2 ⟨(copied, s''), hcopied, rfl⟩

end CachedModuleInterface

open CachedModuleInterface

section Interfaces

variable {A B : CachedModuleInterface} {boundary : SealedModuleBoundary}

theorem copyBoundaryType_sound {types : List FlatTypeNode} {t id : ℕ} {s s' : Building}
    (h : copyBoundaryType types t s = .ok (id, s')) : Copied types (t + 1) [] s s' t id := by
  refine copyUnder_sound ?_ ?_ h
  · exact List.nodup_nil
  · exact fun _ hp => absurd hp List.not_mem_nil

theorem sealedBoundary_sound (h : A.sealedBoundary = .ok boundary) :
    SameType A.types boundary.types [] A.result boundary.result ∧
      SameType A.types boundary.types [] A.effects boundary.effects ∧
      Option.Rel (SameType A.types boundary.types []) A.parameter boundary.parameter := by
  obtain ⟨result, effects, s, s', hresult, heffects, h⟩ := sealedBoundary_ok.1 h
  have hresult := copyBoundaryType_sound hresult
  have heffects := copyBoundaryType_sound heffects
  rcases h with ⟨hparameter, rfl⟩ | ⟨parameter, copied, s'', hparameter, hcopied, rfl⟩
  · rw [hparameter]
    exact ⟨⟨_, hresult.same _ heffects.grows⟩, ⟨_, heffects.same _ List.prefix_rfl⟩, .none⟩
  · have hcopied := copyBoundaryType_sound hcopied
    rw [hparameter]
    exact ⟨⟨_, hresult.same _ (heffects.grows.trans hcopied.grows)⟩, ⟨_, heffects.same _ hcopied.grows⟩,
      .some ⟨_, hcopied.same _ List.prefix_rfl⟩⟩

theorem copyBoundaryType_same {types types' : List FlatTypeNode} {i j id : ℕ} {s s' : Building}
    (hi : validateCertificateType types i = .ok ()) (hj : validateCertificateType types' j = .ok ())
    (hties : TiesAgree types' j) (h : SameType types types' [] i j)
    (hcopy : copyBoundaryType types i s = .ok (id, s')) :
    copyBoundaryType types' j s = .ok (id, s') := by
  obtain ⟨n, h⟩ := h
  have hnodup : ([] : List ℕ).Nodup := List.nodup_nil
  have hlen : ([] : List ℕ).length = ([] : List ℕ).length := rfl
  exact copyUnder_same hnodup hnodup hlen hlen (scoped_of_validateCertificateType hi)
    (scoped_of_validateCertificateType hj) hties h (Nat.lt_succ_self j) hcopy

theorem sealedBoundary_same (hA : A.Validated) (hB : B.Validated) (hties : ∀ root ∈ B.roots, TiesAgree B.types root)
    (hsame : SameInterface A B) (h : A.sealedBoundary = .ok boundary) : B.sealedBoundary = .ok boundary := by
  obtain ⟨result, effects, s, s', hresult, heffects, h⟩ := sealedBoundary_ok.1 h
  have hmem : ∀ {I : CachedModuleInterface}, I.result ∈ I.roots ∧ I.effects ∈ I.roots ∧
      ∀ parameter, I.parameter = some parameter → parameter ∈ I.roots := by
    intro I
    refine ⟨List.mem_cons_self, List.mem_cons_of_mem _ List.mem_cons_self, fun parameter hparameter => ?_⟩
    refine List.mem_cons_of_mem _ (List.mem_cons_of_mem _ ?_)
    rw [hparameter]
    exact List.mem_singleton_self parameter
  refine sealedBoundary_ok.2 ⟨result, effects, s, s', ?_, ?_, ?_⟩
  · exact copyBoundaryType_same (hA _ hmem.1) (hB _ hmem.1) (hties _ hmem.1) hsame.result hresult
  · exact copyBoundaryType_same (hA _ hmem.2.1) (hB _ hmem.2.1) (hties _ hmem.2.1) hsame.effects heffects
  · have hparameters := hsame.parameter
    rcases h with ⟨hparameter, rfl⟩ | ⟨parameter, copied, s'', hparameter, hcopied, rfl⟩
    · rw [hparameter] at hparameters
      refine Or.inl ⟨?_, rfl⟩
      generalize B.parameter = other at hparameters
      cases hparameters
      rfl
    · cases hother : B.parameter with
      | none =>
        rw [hparameter, hother] at hparameters
        nomatch hparameters
      | some other =>
        rw [hparameter, hother] at hparameters
        cases hparameters with
        | some hparameters =>
          refine Or.inr ⟨other, copied, s'', rfl, ?_, rfl⟩
          have hroot := hmem.2.2 other hother
          exact copyBoundaryType_same (hA _ (hmem.2.2 parameter hparameter)) (hB _ hroot) (hties _ hroot) hparameters
            hcopied

theorem optionRel_trans {X Y Z : Type} {R : X → Y → Prop} {S : Y → Z → Prop} {T : X → Z → Prop} {x : Option X}
    {y : Option Y} {z : Option Z} (h : Option.Rel R x y) (h' : Option.Rel S y z) (hT : ∀ a b c, R a b → S b c → T a c) :
    Option.Rel T x z := by
  cases h with
  | none =>
    cases h'
    exact .none
  | some h =>
    cases h' with
    | some h' => exact .some (hT _ _ _ h h')

theorem optionRel_symm {X Y : Type} {R : X → Y → Prop} {S : Y → X → Prop} {x : Option X} {y : Option Y}
    (h : Option.Rel R x y) (hS : ∀ a b, R a b → S b a) : Option.Rel S y x := by
  cases h with
  | none => exact .none
  | some h => exact .some (hS _ _ h)

theorem sameInterface_of_sealedBoundary (hA : A.sealedBoundary = .ok boundary) (hB : B.sealedBoundary = .ok boundary) :
    SameInterface A B := by
  obtain ⟨hresult, heffects, hparameter⟩ := sealedBoundary_sound hA
  obtain ⟨hresult', heffects', hparameter'⟩ := sealedBoundary_sound hB
  have htrans : ∀ i j k, SameType A.types boundary.types [] i j → SameType boundary.types B.types [] j k →
      SameType A.types B.types [] i k := fun i j k hij hjk => hij.trans chain_nil hjk
  refine ⟨htrans _ _ _ hresult hresult'.symm, htrans _ _ _ heffects heffects'.symm, ?_⟩
  exact optionRel_trans hparameter (optionRel_symm hparameter' fun _ _ h => h.symm) htrans

end Interfaces

/-- **Sealed boundaries are canonical**: two interfaces whose bytes are equal are equal, and the bytes of equal
interfaces are equal where the sorting of rows and unions leaves no choice.  `hencode` is the round trip of the
encoder. -/
theorem sealedBoundaryBytes_canonical {Bytes : Type} (encode : SealedModuleBoundary → Except String Bytes)
    (hencode : ∀ b b' bytes, encode b = .ok bytes → encode b' = .ok bytes → b = b') (A B : CachedModuleInterface)
    (hA : A.Validated) (hB : B.Validated) (bytes : Bytes) (h : A.sealedBoundaryBytes encode = .ok bytes) :
    (B.sealedBoundaryBytes encode = .ok bytes → SameInterface A B) ∧
    ((∀ root ∈ B.roots, TiesAgree B.types root) →
      (B.sealedBoundaryBytes encode = .ok bytes ↔ SameInterface A B)) := by
  obtain ⟨boundary, hboundary, hbytes⟩ := bind_eq_ok.1 h
  have hsound : B.sealedBoundaryBytes encode = .ok bytes → SameInterface A B := by
    intro h'
    obtain ⟨boundary', hboundary', hbytes'⟩ := bind_eq_ok.1 h'
    obtain ⟨-, -, hbytes⟩ := bind_eq_ok.1 hbytes
    obtain ⟨-, -, hbytes'⟩ := bind_eq_ok.1 hbytes'
    obtain rfl := hencode _ _ _ hbytes hbytes'
    exact sameInterface_of_sealedBoundary hboundary hboundary'
  refine ⟨hsound, fun hties => ⟨hsound, fun hsame => ?_⟩⟩
  exact bind_eq_ok.2 ⟨boundary, sealedBoundary_same hA hB hties hsame hboundary, hbytes⟩

theorem validated_of_each {interface : CachedModuleInterface}
    (h : each (validateCertificateType interface.types) interface.roots = .ok ()) : interface.Validated :=
  each_eq_ok.1 h

theorem ok_encode : ∀ b b' bytes : SealedModuleBoundary, (.ok b : Except String SealedModuleBoundary) = .ok bytes →
    (.ok b' : Except String SealedModuleBoundary) = .ok bytes → b = b' :=
  fun _ _ _ h h' => (Except.ok.inj h).trans (Except.ok.inj h').symm

/-- A type that has neither names, nor entries, nor members is the same as itself in two arenas, if what it is made of
is. -/
theorem sameWithin_plain {A B : List FlatTypeNode} {n i : ℕ} {pairs : List (ℕ × ℕ)}
    (node : FlatTypeNode) (hrigid : ∀ v, node ≠ .rigid v) (hforall : ∀ vs body, node ≠ .forallType vs body)
    (hA : A[i]? = some node) (hB : B[i]? = some node) (hrow : node.row = []) (hmembers : node.members = [])
    (hfixed : ∀ child ∈ node.fixed, SameWithin A B n pairs child child) : SameWithin A B (n + 1) pairs i i := by
  refine ⟨node, node, hA, hB, .other hrigid hforall rfl (List.forall₂_same.2 hfixed) ?_ ?_⟩
  · rw [hrow]
    exact SameRow.refl fun f hf => absurd hf List.not_mem_nil
  · rw [hmembers]
    exact SameBag.refl fun m hm => absurd hm List.not_mem_nil

/-- `∀ v. v → {a: Array Unit, b: Unit}`, with the fields of the record in some order. -/
def quantifiedRecord (v : ℕ) (fields : List (String × ℕ)) : CachedModuleInterface :=
  ⟨[.rigid v, .unit, .array 1, .record fields, .effects ∅, .function false 0 4 3, .forallType [v] 5], 6, 4, none⟩

/-- The fields stand in order, and so they are copied. -/
theorem quantifiedRecord_boundary : (quantifiedRecord 1 [("a", 2), ("b", 1)]).sealedBoundary =
    .ok ⟨1, "0.1.0", 24, [.rigid 0, .effects ∅, .unit, .array 2, .record [("a", 3), ("b", 2)], .function false 0 1 4,
      .forallType [0] 5], 6, 1, none⟩ := by
  have hsort : sortBy Prod.fst [("a", 2), ("b", 1)] = [("a", 2), ("b", 1)] := List.mergeSort_of_pairwise (by decide)
  have hrecord : copyUnder (quantifiedRecord 1 [("a", 2), ("b", 1)]).types 5 [(1, 0)] 3 ⟨[.rigid 0, .effects ∅], 1⟩ =
      .ok (4, ⟨[.rigid 0, .effects ∅, .unit, .array 2, .record [("a", 3), ("b", 2)]], 1⟩) := by
    have hnode : (quantifiedRecord 1 [("a", 2), ("b", 1)]).types[3]? = some (.record [("a", 2), ("b", 1)]) := rfl
    rw [copyUnder_other hnode nofun nofun, arrange, hsort, ok_bind]
    rfl
  have hchildren : copyAll (copyUnder (quantifiedRecord 1 [("a", 2), ("b", 1)]).types 5 [(1, 0)]) [0, 4, 3] ⟨[], 1⟩ =
      .ok ([0, 1, 4], ⟨[.rigid 0, .effects ∅, .unit, .array 2, .record [("a", 3), ("b", 2)]], 1⟩) :=
    bind_eq_ok.2 ⟨(0, ⟨[.rigid 0], 1⟩), rfl, bind_eq_ok.2 ⟨([1, 4], _), bind_eq_ok.2 ⟨(1, _), rfl,
      bind_eq_ok.2 ⟨([4], _), bind_eq_ok.2 ⟨_, hrecord, rfl⟩, rfl⟩⟩, rfl⟩⟩
  have hfunction : copyUnder (quantifiedRecord 1 [("a", 2), ("b", 1)]).types 6 [(1, 0)] 5 ⟨[], 1⟩ =
      .ok (5, ⟨[.rigid 0, .effects ∅, .unit, .array 2, .record [("a", 3), ("b", 2)], .function false 0 1 4], 1⟩) := by
    have hnode : (quantifiedRecord 1 [("a", 2), ("b", 1)]).types[5]? = some (.function false 0 4 3) := rfl
    rw [copyUnder_other hnode (by simp) (by simp)]
    exact bind_eq_ok.2 ⟨.function false 0 4 3, rfl, bind_eq_ok.2 ⟨_, hchildren, rfl⟩⟩
  have hresult : copyBoundaryType (quantifiedRecord 1 [("a", 2), ("b", 1)]).types 6 ⟨[], 0⟩ =
      .ok (6, ⟨[.rigid 0, .effects ∅, .unit, .array 2, .record [("a", 3), ("b", 2)], .function false 0 1 4,
        .forallType [0] 5], 1⟩) :=
    bind_eq_ok.2 ⟨([0], ⟨[], 1⟩), rfl, bind_eq_ok.2 ⟨_, hfunction, rfl⟩⟩
  exact sealedBoundary_ok.2 ⟨6, 1, _, _, hresult, rfl, Or.inl ⟨rfl, rfl⟩⟩

theorem quantifiedRecord_same :
    SameInterface (quantifiedRecord 1 [("a", 2), ("b", 1)]) (quantifiedRecord 2 [("b", 1), ("a", 2)]) := by
  let A := (quantifiedRecord 1 [("a", 2), ("b", 1)]).types
  let B := (quantifiedRecord 2 [("b", 1), ("a", 2)]).types
  have heffects : ∀ n pairs, SameWithin A B (n + 1) pairs 4 4 := fun n pairs =>
    sameWithin_plain (.effects ∅) (by simp) (by simp) rfl rfl rfl rfl (by simp [fixed])
  have hunit : ∀ n pairs, SameWithin A B (n + 1) pairs 1 1 := fun n pairs =>
    sameWithin_plain .unit (by simp) (by simp) rfl rfl rfl rfl (by simp [fixed])
  have harray : SameWithin A B 2 [(1, 2)] 2 2 :=
    sameWithin_plain (.array 1) (by simp) (by simp) rfl rfl rfl rfl (by simp [fixed, hunit])
  have hrecord : SameWithin A B 3 [(1, 2)] 3 3 := by
    have hfields : SameRow (SameWithin A B 2 [(1, 2)]) [("a", 2), ("b", 1)] [("b", 1), ("a", 2)] :=
      ⟨[("a", 2), ("b", 1)], .swap _ _ _, .cons ⟨rfl, harray⟩ (.cons ⟨rfl, hunit 1 _⟩ .nil)⟩
    refine ⟨_, _, rfl, rfl, .other (by simp) (by simp) rfl .nil hfields ?_⟩
    exact SameBag.refl fun m hm => absurd hm List.not_mem_nil
  have hvariable : SameWithin A B 3 [(1, 2)] 0 0 := ⟨_, _, rfl, rfl, .rigid (.inl ⟨rfl, rfl⟩)⟩
  have hfunction : SameWithin A B 4 [(1, 2)] 5 5 :=
    sameWithin_plain (.function false 0 4 3) (by simp) (by simp) rfl rfl rfl rfl
      (by simp [fixed, hvariable, heffects, hrecord])
  exact ⟨⟨5, _, _, rfl, rfl, .forallType rfl hfunction⟩, ⟨1, heffects 0 []⟩, .none⟩

/-- Each name occurs once in the record, and there is no union. -/
theorem tiesAgree_quantifiedRecord (root : ℕ) : TiesAgree (quantifiedRecord 2 [("b", 1), ("a", 2)]).types root where
  row id node _ hnode scope _ _ f hf g hg hname := by
    let B := (quantifiedRecord 2 [("b", 1), ("a", 2)]).types
    have hunit : ∀ n pairs, SameWithin B B (n + 1) pairs 1 1 := fun n pairs =>
      sameWithin_plain .unit (by simp) (by simp) rfl rfl rfl rfl (by simp [fixed])
    have harray : ∀ pairs, SameWithin B B 2 pairs 2 2 := fun pairs =>
      sameWithin_plain (.array 1) (by simp) (by simp) rfl rfl rfl rfl (by simp [fixed, hunit])
    have hmem := List.mem_of_getElem? hnode
    simp only [quantifiedRecord, List.mem_cons, List.not_mem_nil, or_false] at hmem
    rcases hmem with rfl | rfl | rfl | rfl | rfl | rfl | rfl
    case inr.inr.inr.inl =>
      simp only [row, List.mem_cons, List.not_mem_nil, or_false] at hf hg
      rcases hf with rfl | rfl <;> rcases hg with rfl | rfl
      · exact ⟨1, hunit 0 _⟩
      · exact absurd hname (by decide)
      · exact absurd hname (by decide)
      · exact ⟨2, harray _⟩
    all_goals exact absurd hf List.not_mem_nil
  members id node _ hnode scope cs _ _ _ m hm := by
    have hmem := List.mem_of_getElem? hnode
    simp only [quantifiedRecord, List.mem_cons, List.not_mem_nil, or_false] at hmem
    rcases hmem with rfl | rfl | rfl | rfl | rfl | rfl | rfl
    all_goals exact absurd hm List.not_mem_nil

/-- The two interfaces differ in a name and in the order of the fields, and have one boundary. -/
theorem sealedBoundaryBytes_canonical_renamed :
    SameInterface (quantifiedRecord 1 [("a", 2), ("b", 1)]) (quantifiedRecord 2 [("b", 1), ("a", 2)]) ∧
    sealedBoundaryBytes .ok (quantifiedRecord 2 [("b", 1), ("a", 2)]) =
      .ok ⟨1, "0.1.0", 24, [.rigid 0, .effects ∅, .unit, .array 2, .record [("a", 3), ("b", 2)], .function false 0 1 4,
        .forallType [0] 5], 6, 1, none⟩ := by
  have hA : Validated (quantifiedRecord 1 [("a", 2), ("b", 1)]) := validated_of_each rfl
  have hB : Validated (quantifiedRecord 2 [("b", 1), ("a", 2)]) := validated_of_each rfl
  have hbytes := bind_eq_ok.2 ⟨_, quantifiedRecord_boundary, (rfl : SealedModuleBoundary.toBytes .ok _ = .ok _)⟩
  obtain ⟨-, hiff⟩ := sealedBoundaryBytes_canonical .ok ok_encode _ _ hA hB _ hbytes
  exact ⟨quantifiedRecord_same, (hiff fun root _ => tiesAgree_quantifiedRecord root).2 quantifiedRecord_same⟩

/-! ### A union whose members are left in their order -/

/-- Two qualified types that differ in the order of their requirements, as the members of a union. -/
def unionOf (members : List ℕ) : CachedModuleInterface :=
  ⟨[.unit, .qualified [⟨"a", 0, 0⟩, ⟨"b", 0, 0⟩] 0, .qualified [⟨"b", 0, 0⟩, ⟨"a", 0, 0⟩] 0, .union members,
    .effects ∅],
    3, 4, none⟩

theorem sortBy_of_ties {A K : Type} [LinearOrder K] {key : A → K} {as : List A}
    (h : ∀ a ∈ as, ∀ b ∈ as, key a = key b) : sortBy key as = as := by
  refine List.mergeSort_of_pairwise (List.pairwise_of_forall_mem_list fun a ha b hb => ?_)
  exact decide_eq_true (h a ha b hb).le

/-- The two members have one key. -/
theorem unionOf_keys (members : List ℕ) : ∃ key, closedBoundaryTypeKey (unionOf members).types 1 [] = some key ∧
    closedBoundaryTypeKey (unionOf members).types 2 [] = some key := by
  refine ⟨_, rfl, ?_⟩
  have hkeys : ∀ k k' : String, Ty.sortedKey [k, k'] = Ty.sortedKey [k', k] :=
    fun k k' => sortedKey_perm (List.Perm.swap k' k [])
  refine Eq.trans rfl (congrArg (fun sorted => some
    ("all" ++ toString 0 ++ "(" ++ ("qualified(" ++ "unit" ++ ";" ++ sorted ++ ")") ++ ")")) (hkeys _ _))

theorem unionOf_arrange (members listed : List ℕ) (h : ∀ m ∈ listed, m = 1 ∨ m = 2) :
    arrange (unionOf members).types [] (.union listed) = .ok (.union listed) := by
  obtain ⟨key, hfirst, hsecond⟩ := unionOf_keys members
  have hkey : ∀ m ∈ listed, closedBoundaryTypeKey (unionOf members).types m [] = some key := by
    intro m hm
    rcases h m hm with rfl | rfl
    · exact hfirst
    · exact hsecond
  have hkeyed : collect (keyedMember (unionOf members).types []) listed = .ok (listed.map fun m => (key, m)) := by
    rw [collect_eq_ok, List.forall₂_map_right_iff, List.forall₂_same]
    exact fun m hm => keyedMember_ok.2 ⟨hkey m hm, rfl⟩
  have hsort : sortBy Prod.fst (listed.map fun m => (key, m)) = listed.map fun m => (key, m) := by
    refine sortBy_of_ties fun p hp q hq => ?_
    obtain ⟨m, -, rfl⟩ := List.mem_map.1 hp
    obtain ⟨m', -, rfl⟩ := List.mem_map.1 hq
    rfl
  refine bind_eq_ok.2 ⟨_, hkeyed, ?_⟩
  rw [hsort, List.map_map]
  exact congrArg (fun members => Except.ok (FlatTypeNode.union members)) (List.map_id listed)

theorem unionOf_boundary {members : List ℕ} (h : ∀ m ∈ members, m = 1 ∨ m = 2) {ids : List ℕ} {s : Building}
    (hcopy : copyAll (copyUnder (unionOf members).types 3 []) members ⟨[], 0⟩ = .ok (ids, s)) :
    (unionOf members).sealedBoundary = .ok ⟨1, "0.1.0", 24, ((s.intern (.union ids)).2.intern (.effects ∅)).2.nodes,
      (s.intern (.union ids)).1, ((s.intern (.union ids)).2.intern (.effects ∅)).1, none⟩ := by
  have hunion : copyBoundaryType (unionOf members).types 3 ⟨[], 0⟩ = .ok (s.intern (.union ids)) := by
    have hnode : (unionOf members).types[3]? = some (.union members) := rfl
    unfold copyBoundaryType
    rw [copyUnder_other hnode nofun nofun, unionOf_arrange members members h, ok_bind]
    exact bind_eq_ok.2 ⟨(ids, s), hcopy, rfl⟩
  exact sealedBoundary_ok.2 ⟨_, _, _, _, hunion, rfl, Or.inl ⟨rfl, rfl⟩⟩

theorem unionOf_same : SameInterface (unionOf [1, 2]) (unionOf [2, 1]) := by
  let A := (unionOf [1, 2]).types
  let B := (unionOf [2, 1]).types
  have hunit : ∀ n, SameWithin A B (n + 1) [] 0 0 := fun n =>
    sameWithin_plain .unit (by simp) (by simp) rfl rfl rfl rfl (by simp [fixed])
  have heffects : SameWithin A B 1 [] 4 4 :=
    sameWithin_plain (.effects ∅) (by simp) (by simp) rfl rfl rfl rfl (by simp [fixed])
  have hqualified : ∀ i, i = 1 ∨ i = 2 → SameWithin A B 2 [] i i := by
    rintro i (rfl | rfl)
    · exact sameWithin_plain (.qualified [⟨"a", 0, 0⟩, ⟨"b", 0, 0⟩] 0) (by simp) (by simp) rfl rfl rfl rfl
        (by simp [fixed, hunit])
    · exact sameWithin_plain (.qualified [⟨"b", 0, 0⟩, ⟨"a", 0, 0⟩] 0) (by simp) (by simp) rfl rfl rfl rfl
        (by simp [fixed, hunit])
  refine ⟨⟨3, .union [1, 2], .union [2, 1], rfl, rfl, ?_⟩, ⟨1, heffects⟩, .none⟩
  refine .other (by simp) (by simp) rfl .nil (SameRow.refl fun f hf => absurd hf List.not_mem_nil) ?_
  refine ⟨[1, 2], List.Perm.swap 2 1 [], ?_⟩
  have hmembers : ∀ i ∈ [1, 2], i = 1 ∨ i = 2 := by decide
  exact List.forall₂_same.2 fun i hi => hqualified i (hmembers i hi)

/-- **Permuting a union changes the boundary**: two of its members have one key, and stay in the order in which the
interface lists them. -/
theorem sealedBoundaryBytes_union :
    ¬ ∀ (encode : SealedModuleBoundary → Except String SealedModuleBoundary),
      (∀ b b' bytes, encode b = .ok bytes → encode b' = .ok bytes → b = b') → ∀ A B : CachedModuleInterface,
      A.Validated → B.Validated → ∀ x y, A.sealedBoundaryBytes encode = .ok x → B.sealedBoundaryBytes encode = .ok y →
      (x = y ↔ SameInterface A B) := by
  intro hclaim
  have hfirst : ∀ m ∈ [1, 2], m = 1 ∨ m = 2 := by decide
  have hsecond : ∀ m ∈ [2, 1], m = 1 ∨ m = 2 := by decide
  have hbytes := bind_eq_ok.2 ⟨_, unionOf_boundary hfirst rfl, (rfl : SealedModuleBoundary.toBytes .ok _ = .ok _)⟩
  have hbytes' := bind_eq_ok.2 ⟨_, unionOf_boundary hsecond rfl, (rfl : SealedModuleBoundary.toBytes .ok _ = .ok _)⟩
  have hequal := (hclaim .ok ok_encode (unionOf [1, 2]) (unionOf [2, 1]) (validated_of_each rfl) (validated_of_each rfl)
    _ _ hbytes hbytes').2 unionOf_same
  exact absurd hequal (by decide)

end Blot.Boundary
