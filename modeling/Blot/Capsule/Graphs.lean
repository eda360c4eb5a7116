import Blot.Capsule.References
import Blot.Support.Checks
import Blot.Support.LongestPaths

/-!
# The graphs of a capsule (`validate_environment_graph`, `validate_effect_scope_graph`)

A capsule is refused where a reference is out of range, where the references go round in a cycle, or where a path of
them is too long.

* `validateGraph_exact`, `validateGraph_refuses` — what the two validations have in common;
* `ValueCapsule.Refers`, `ValueCapsule.CreatedIn` — the references of the two graphs;
* `ValueCapsule.refusals_are_true` — what the two validations say when they refuse.
-/

namespace Blot.Capsule

open Relation Support Support.LongestPaths

def valueCapsuleMaxDepth : ℕ := 128

def valueCapsuleMaxEnvironmentGraphDepth : ℕ := 1024

inductive CapsuleGraphFailure where
  | overBudget (message : String)
  | invalid (message : String)

def CapsuleGraphFailure.intoMessage : CapsuleGraphFailure → String
  | .overBudget message => message
  | .invalid message => message

/-- `CapsuleClosureApplication`, with application sites `S`. -/
structure CapsuleClosureApplication (S : Type) where
  application : S
  creationScope : ℕ

/-- `ValueCapsule`, without its schema. -/
structure ValueCapsule (S : Type) where
  environments : List CapsuleEnvironment
  effectScopes : List (List (CapsuleClosureApplication S))
  root : ℕ

variable {S : Type}

/-! ### The validations -/

def checkReferences (rows : List (List ℕ)) (missing : ℕ → ℕ → String) : Except CapsuleGraphFailure Unit :=
  each (fun (references, id) =>
    each (fun reference => require (reference < rows.length) (.invalid (missing id reference))) references) rows.zipIdx

/-- What the two validations have in common: the references of each row are checked, and the rows are scanned. -/
def validateGraph (rows : List (List ℕ)) (limit : ℕ) (missing : ℕ → ℕ → String) (deep : String)
    (cycle : ℕ → ℕ → String) : Option (Except CapsuleGraphFailure Unit) :=
  match checkReferences rows missing with
  | .error e => some (.error e)
  | .ok () =>
    scan (fun id => rows.getD id []) limit (.overBudget deep) (fun id reference => .invalid (cycle id reference))
      (List.range rows.length)

namespace ValueCapsule

def validateEnvironmentGraphForPublication (capsule : ValueCapsule S) : Option (Except CapsuleGraphFailure Unit) :=
  if capsule.environments.length ≤ capsule.root then
    some (.error (.invalid
      s!"value capsule root environment {capsule.root} is outside {capsule.environments.length} environments"))
  else
    validateGraph (capsule.environments.map (·.references)) valueCapsuleMaxEnvironmentGraphDepth
      (fun id reference => s!"value capsule environment {id} references missing environment {reference}")
      s!"value capsule environment graph exceeds its maximum depth of {valueCapsuleMaxEnvironmentGraphDepth}"
      fun environment reference =>
        s!"value capsule environments contain a strong-reference cycle from {environment} to {reference}"

def validateEnvironmentGraph (capsule : ValueCapsule S) : Option (Except String Unit) :=
  capsule.validateEnvironmentGraphForPublication.map (·.mapError CapsuleGraphFailure.intoMessage)

def validateEffectScopeGraphForPublication (capsule : ValueCapsule S) : Option (Except CapsuleGraphFailure Unit) :=
  validateGraph (capsule.effectScopes.map (·.map (·.creationScope))) valueCapsuleMaxDepth
    (fun id reference => s!"value capsule effect scope {id} references missing effect scope {reference}")
    s!"value capsule effect-scope graph exceeds its maximum depth of {valueCapsuleMaxDepth}"
    fun effectScope reference => s!"value capsule effect scopes contain a cycle from {effectScope} to {reference}"

def validateEffectScopeGraph (capsule : ValueCapsule S) : Option (Except String Unit) :=
  capsule.validateEffectScopeGraphForPublication.map (·.mapError CapsuleGraphFailure.intoMessage)

/-- An environment of the capsule refers to another one. -/
def Refers (capsule : ValueCapsule S) (id target : ℕ) : Prop :=
  ∃ environment, capsule.environments[id]? = some environment ∧ environment.Refers target

/-- A frame of an effect scope of the capsule was created in another one. -/
def CreatedIn (capsule : ValueCapsule S) (id target : ℕ) : Prop :=
  ∃ frames, capsule.effectScopes[id]? = some frames ∧ ∃ frame ∈ frames, frame.creationScope = target

end ValueCapsule

/-! ### What a validation accepts -/

/-- References to `count` things that can be followed: they are in range, on no cycle, and no path of them is longer
than the limit. -/
structure Grounded (count limit : ℕ) (r : ℕ → ℕ → Prop) : Prop where
  inRange : ∀ id target, r id target → target < count
  acyclic : Acyclic r
  within : Within r limit

/-- What a refusal says of such references: one that is out of range, one that closes a cycle, or a path over the
limit. -/
inductive Ungrounded (count limit : ℕ) (r : ℕ → ℕ → Prop) (missing : ℕ → ℕ → String) (deep : String)
    (cycle : ℕ → ℕ → String) : CapsuleGraphFailure → Prop
  | missing {id target : ℕ} (h : r id target) (hrange : count ≤ target) :
      Ungrounded count limit r missing deep cycle (.invalid (missing id target))
  | cycle {id target : ℕ} (h : r id target) (hback : ReflTransGen r target id) :
      Ungrounded count limit r missing deep cycle (.invalid (cycle id target))
  | deep {n id target : ℕ} (hlimit : limit < n) (hsteps : Steps r n id target) :
      Ungrounded count limit r missing deep cycle (.overBudget deep)

section Validation

variable {rows : List (List ℕ)} {limit : ℕ} {missing : ℕ → ℕ → String} {deep : String} {cycle : ℕ → ℕ → String}

theorem mem_row {id reference : ℕ} :
    reference ∈ rows.getD id [] ↔ ∃ references, rows[id]? = some references ∧ reference ∈ references := by
  cases hrow : rows[id]? <;> simp [List.getD, hrow]

theorem checkReferences_eq_ok :
    checkReferences rows missing = .ok () ↔ ∀ id, ∀ reference ∈ rows.getD id [], reference < rows.length := by
  simp only [checkReferences, each_eq_ok, require_eq_ok, decide_eq_true_eq, Prod.forall, List.mem_zipIdx_iff_getElem?,
    mem_row]
  constructor
  · rintro h id reference ⟨references, hrow, href⟩
    exact h references id hrow reference href
  · intro h references id hrow reference href
    exact h id reference ⟨references, hrow, href⟩

/-- What is scanned contains the nodes of all edges. -/
theorem edges_in_range (h : ∀ id, ∀ reference ∈ rows.getD id [], reference < rows.length) (id : ℕ) :
    ∀ reference ∈ rows.getD id [], id ∈ List.range rows.length ∧ reference ∈ List.range rows.length := by
  intro reference href
  obtain ⟨references, hrow, -⟩ := mem_row.mp href
  obtain ⟨hid, -⟩ := List.getElem?_eq_some_iff.mp hrow
  exact ⟨List.mem_range.mpr hid, List.mem_range.mpr (h id reference href)⟩

/-- **What the two validations have in common** comes to an end, and accepts what is grounded. -/
theorem validateGraph_exact :
    ∃ result, validateGraph rows limit missing deep cycle = some result ∧
      (result = .ok () ↔ Grounded rows.length limit (Edge fun id => rows.getD id [])) := by
  rw [validateGraph]
  cases hcheck : checkReferences rows missing with
  | error e =>
    refine ⟨.error e, rfl, nofun, fun hgrounded => ?_⟩
    rw [checkReferences_eq_ok.mpr hgrounded.inRange] at hcheck
    cases hcheck
  | ok =>
    have hrange := checkReferences_eq_ok.mp hcheck
    obtain ⟨result, hscan, hexact, -⟩ := scan_exact (fun id => rows.getD id []) limit
      (CapsuleGraphFailure.overBudget deep) (fun id reference => .invalid (cycle id reference))
      (edges_in_range hrange)
    refine ⟨result, hscan, hexact.trans ⟨fun ⟨hacyclic, hwithin⟩ => ⟨hrange, hacyclic, hwithin⟩, fun hgrounded => ?_⟩⟩
    exact ⟨hgrounded.acyclic, hgrounded.within⟩

theorem validateGraph_refuses {e : CapsuleGraphFailure}
    (h : validateGraph rows limit missing deep cycle = some (.error e)) :
    (∃ id reference, e = .invalid (missing id reference) ∧ reference ∈ rows.getD id [] ∧ rows.length ≤ reference) ∨
    Refuses (fun id => rows.getD id []) limit (.overBudget deep) (fun id reference => .invalid (cycle id reference))
      e := by
  rw [validateGraph] at h
  cases hcheck : checkReferences rows missing with
  | error e' =>
    rw [hcheck] at h
    cases h
    obtain ⟨⟨references, id⟩, hrow, hreferences⟩ := exists_of_each_error hcheck
    obtain ⟨reference, href, hrequire⟩ := exists_of_each_error hreferences
    have hrow : rows[id]? = some references := List.mem_zipIdx_iff_getElem?.mp hrow
    by_cases hrange : reference < rows.length
    · rw [decide_eq_true hrange] at hrequire
      cases hrequire
    · rw [decide_eq_false hrange] at hrequire
      cases hrequire
      exact .inl ⟨id, reference, rfl, mem_row.mpr ⟨references, hrow, href⟩, Nat.le_of_not_lt hrange⟩
  | ok =>
    rw [hcheck] at h
    obtain ⟨result, hscan, -, hrefuses⟩ := scan_exact (fun id => rows.getD id []) limit
      (CapsuleGraphFailure.overBudget deep) (fun id reference => .invalid (cycle id reference))
      (edges_in_range (checkReferences_eq_ok.mp hcheck))
    rw [hscan] at h
    exact .inr (hrefuses e (Option.some.inj h))

/-- What the two validations have in common comes to an end, and refuses with reason. -/
theorem validateGraph_ungrounded {r : ℕ → ℕ → Prop} (hr : Edge (fun id => rows.getD id []) = r) :
    ∃ result, validateGraph rows limit missing deep cycle = some result ∧
      ∀ e, result = .error e → Ungrounded rows.length limit r missing deep cycle e := by
  subst hr
  obtain ⟨result, hresult, -⟩ := validateGraph_exact
  refine ⟨result, hresult, fun e he => ?_⟩
  rcases validateGraph_refuses (he ▸ hresult) with ⟨id, reference, rfl, href, hrange⟩ | ⟨rfl, n, v, w, hlt, hsteps⟩ |
    ⟨v, target, rfl, htarget, hback⟩
  · exact .missing href hrange
  · exact .deep hlt hsteps
  · exact .cycle htarget hback

theorem edge_map {α : Type} (as : List α) (f : α → List ℕ) :
    Edge (fun id => (as.map f).getD id []) = fun id target => ∃ a, as[id]? = some a ∧ target ∈ f a := by
  funext id target
  refine propext (mem_row.trans ?_)
  simp only [List.getElem?_map, Option.map_eq_some_iff]
  constructor
  · rintro ⟨_, ⟨a, ha, rfl⟩, htarget⟩
    exact ⟨a, ha, htarget⟩
  · rintro ⟨a, ha, htarget⟩
    exact ⟨f a, ⟨a, ha, rfl⟩, htarget⟩

theorem exists_intoMessage {outcome : Option (Except CapsuleGraphFailure Unit)} {P : Prop}
    (h : ∃ result, outcome = some result ∧ (result = .ok () ↔ P)) :
    ∃ result, outcome.map (·.mapError CapsuleGraphFailure.intoMessage) = some result ∧ (result = .ok () ↔ P) := by
  obtain ⟨result, rfl, hresult⟩ := h
  refine ⟨_, rfl, Iff.trans ?_ hresult⟩
  cases result with
  | error e => exact ⟨nofun, nofun⟩
  | ok => exact ⟨fun _ => rfl, fun _ => rfl⟩

end Validation

namespace ValueCapsule

theorem edge_refers (capsule : ValueCapsule S) :
    Edge (fun id => (capsule.environments.map (·.references)).getD id []) = capsule.Refers := by
  simp only [edge_map, CapsuleEnvironment.mem_references]
  rfl

theorem edge_createdIn (capsule : ValueCapsule S) :
    Edge (fun id => (capsule.effectScopes.map (·.map (·.creationScope))).getD id []) = capsule.CreatedIn := by
  simp only [edge_map, List.mem_map]
  rfl

theorem validateEnvironmentGraph_exact (capsule : ValueCapsule S) :
    ∃ result, capsule.validateEnvironmentGraph = some result ∧ (result = .ok () ↔
      capsule.root < capsule.environments.length ∧
      Grounded capsule.environments.length valueCapsuleMaxEnvironmentGraphDepth capsule.Refers) := by
  refine exists_intoMessage ?_
  rw [validateEnvironmentGraphForPublication, ← edge_refers]
  split
  · next hroot => exact ⟨_, rfl, nofun, fun ⟨hlt, _⟩ => absurd hlt (Nat.not_lt_of_le hroot)⟩
  · next hroot =>
    obtain ⟨result, hvalidate, hexact⟩ := validateGraph_exact
    refine ⟨result, hvalidate, hexact.trans ?_⟩
    rw [List.length_map]
    exact (and_iff_right (Nat.lt_of_not_le hroot)).symm

theorem validateEffectScopeGraph_exact (capsule : ValueCapsule S) :
    ∃ result, capsule.validateEffectScopeGraph = some result ∧ (result = .ok () ↔
      Grounded capsule.effectScopes.length valueCapsuleMaxDepth capsule.CreatedIn) := by
  refine exists_intoMessage ?_
  rw [validateEffectScopeGraphForPublication, ← edge_createdIn]
  obtain ⟨result, hvalidate, hexact⟩ := validateGraph_exact
  refine ⟨result, hvalidate, hexact.trans ?_⟩
  rw [List.length_map]

/-- **What a refused capsule is told is so**: both validations come to an end; the environments are refused for a root
that is out of range, and both graphs for a reference that is out of range or closes a cycle, each of them named, or for
a path over the limit. -/
theorem refusals_are_true (capsule : ValueCapsule S) :
    (∃ result, capsule.validateEnvironmentGraphForPublication = some result ∧ ∀ e, result = .error e →
      (e = .invalid
        s!"value capsule root environment {capsule.root} is outside {capsule.environments.length} environments" ∧
        capsule.environments.length ≤ capsule.root) ∨
      Ungrounded capsule.environments.length valueCapsuleMaxEnvironmentGraphDepth capsule.Refers
        (fun id reference => s!"value capsule environment {id} references missing environment {reference}")
        s!"value capsule environment graph exceeds its maximum depth of {valueCapsuleMaxEnvironmentGraphDepth}"
        (fun environment reference =>
          s!"value capsule environments contain a strong-reference cycle from {environment} to {reference}") e) ∧
    ∃ result, capsule.validateEffectScopeGraphForPublication = some result ∧ ∀ e, result = .error e →
      Ungrounded capsule.effectScopes.length valueCapsuleMaxDepth capsule.CreatedIn
        (fun id reference => s!"value capsule effect scope {id} references missing effect scope {reference}")
        s!"value capsule effect-scope graph exceeds its maximum depth of {valueCapsuleMaxDepth}"
        (fun effectScope reference => s!"value capsule effect scopes contain a cycle from {effectScope} to {reference}")
        e := by
  constructor
  · rw [validateEnvironmentGraphForPublication]
    split
    · next hroot => exact ⟨_, rfl, fun e he => .inl ⟨(Except.error.inj he).symm, hroot⟩⟩
    · obtain ⟨result, hresult, hrefused⟩ := validateGraph_ungrounded capsule.edge_refers
      rw [List.length_map] at hrefused
      exact ⟨result, hresult, fun e he => .inr (hrefused e he)⟩
  · obtain ⟨result, hresult, hrefused⟩ := validateGraph_ungrounded capsule.edge_createdIn
    rw [List.length_map] at hrefused
    exact ⟨result, hresult, hrefused⟩

end ValueCapsule

end Blot.Capsule
