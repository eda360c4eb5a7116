import Blot.Capsule.Graphs

/-!
# What the decoder of a capsule follows (`EffectScopeDecoder`, `index_environment_names`)

The decoder calls itself for the scopes in which the frames of an effect scope were created, and goes from the root
environment to its parents.  It keeps its own watch on cycles, and on scopes that are missing.

* `decodeEffectScopes_returns` — where the effect scopes are grounded it comes to an end, and the watch finds nothing;
* `capsule_graph_validation_exact` — the two validations are exact, and what they accept can be followed.
-/

namespace Blot.Capsule

open Relation Support Support.LongestPaths

variable {S : Type}

/-! ### The names of the environments -/

/-- The names of a scope as `index_environment_names` reads them: its own, those of its recursive group, and those that
it opens, the last ones first. -/
def CapsuleEnvironment.indexed (environment : CapsuleEnvironment) : List String :=
  environment.names.map Prod.fst ++ environment.recursiveNames ++
    environment.opens.reverse.flatMap fun fields => fields.map Prod.fst

/-- The loop of `index_environment_names` over the parents of an environment; the first scope that has a name keeps
it. -/
def indexLoop (environments : List CapsuleEnvironment) : ℕ → Option ℕ → List (String × ℕ) → Option (List (String × ℕ))
  | _, none, locations => some locations
  | 0, some _, _ => none
  | rounds + 1, some current, locations =>
    match environments[current]? with
    | none => some locations
    | some environment =>
      let fresh := environment.indexed.filter fun name => (locations.lookup name).isNone
      indexLoop environments rounds environment.parent (locations ++ fresh.map fun name => (name, current))

/-- `index_environment_names`, for the root of a capsule. -/
def ValueCapsule.indexEnvironmentNames (capsule : ValueCapsule S) (rounds : ℕ) : Option (List (String × ℕ)) :=
  indexLoop capsule.environments rounds (some capsule.root) []

/-- The loop comes to an end in as many rounds as there are parents. -/
theorem indexLoop_returns (capsule : ValueCapsule S) : ∀ (rounds : ℕ) (current : Option ℕ)
    (locations : List (String × ℕ)), (∀ id, current = some id → ∀ n w, Steps capsule.Refers n id w → n < rounds) →
    ∃ locations', indexLoop capsule.environments rounds current locations = some locations'
  | _, none, locations, _ => ⟨locations, by rw [indexLoop]⟩
  | 0, some id, _, h => absurd (h id rfl 0 id (.stay id)) (Nat.lt_irrefl 0)
  | rounds + 1, some id, locations, h => by
    rw [indexLoop]
    split
    · exact ⟨locations, rfl⟩
    · next environment henvironment =>
      refine indexLoop_returns capsule rounds _ _ fun parent hparent n w hsteps => ?_
      have hrefers : capsule.Refers id parent := ⟨environment, henvironment, .parent hparent⟩
      exact Nat.lt_of_succ_lt_succ (h id rfl (n + 1) w (.step hrefers hsteps))

/-! ### The effect scopes -/

/-- `EffectScope`, with application sites `A`: its applications, each with the scope in which its closure was
created. -/
inductive EffectScope (A : Type) where
  | mk (applications : List (A × EffectScope A))

variable {A : Type}

def EffectScope.applications : EffectScope A → List (A × EffectScope A)
  | .mk applications => applications

/-- `EffectScopeDecoder`, without what it reads only. -/
structure EffectScopeDecoder (A : Type) where
  decoded : ℕ → Option (EffectScope A)
  visiting : List ℕ

section Decode

variable (decodeApplicationSite : S → Except String A) (base : EffectScope A)
  (encoded : List (List (CapsuleClosureApplication S)))

/-- The loop of `decode` over the frames of an effect scope; `decode` is called for the scope of each. -/
def decodeFrames
    (decode : ℕ → EffectScopeDecoder A → Option (Except String (EffectScope A × EffectScopeDecoder A))) :
    List (CapsuleClosureApplication S) → List (A × EffectScope A) → EffectScopeDecoder A →
      Option (Except String (List (A × EffectScope A) × EffectScopeDecoder A))
  | [], effectScope, decoder => some (.ok (effectScope, decoder))
  | frame :: frames, effectScope, decoder =>
    match decodeApplicationSite frame.application with
    | .error e => some (.error e)
    | .ok application =>
      match decode frame.creationScope decoder with
      | none => none
      | some (.error e) => some (.error e)
      | some (.ok (creationScope, decoder)) =>
        decodeFrames decode frames (effectScope ++ [(application, creationScope)]) decoder

/-- `decode`, with `depth` calls that are nested at most. -/
def decode : ℕ → ℕ → EffectScopeDecoder A → Option (Except String (EffectScope A × EffectScopeDecoder A))
  | 0, _, _ => none
  | depth + 1, id, decoder =>
    match decoder.decoded id with
    | some effectScope => some (.ok (effectScope, decoder))
    | none =>
      if id ∈ decoder.visiting then some (.error s!"value capsule effect scope {id} is cyclic")
      else
        let visiting := id :: decoder.visiting
        match encoded[id]? with
        | none => some (.error s!"value capsule references missing effect scope {id}")
        | some [] => some (.ok (base, ⟨Function.update decoder.decoded id (some base), visiting.erase id⟩))
        | some frames =>
          match decodeFrames decodeApplicationSite (decode depth) frames base.applications
            ⟨decoder.decoded, visiting⟩ with
          | none => none
          | some (.error e) => some (.error e)
          | some (.ok (applications, decoder)) =>
            some (.ok (.mk applications,
              ⟨Function.update decoder.decoded id (some (.mk applications)), decoder.visiting.erase id⟩))

/-- The loop of `decode_effect_scopes`. -/
def decodeIds (depth : ℕ) : List ℕ → EffectScopeDecoder A → Option (Except String (EffectScopeDecoder A))
  | [], decoder => some (.ok decoder)
  | id :: ids, decoder =>
    if 2 ^ 32 ≤ id then some (.error "value capsule has more than u32 effect scopes")
    else
      match decode decodeApplicationSite base encoded depth id decoder with
      | none => none
      | some (.error e) => some (.error e)
      | some (.ok (_, decoder)) => decodeIds depth ids decoder

/-- `decode_effect_scopes`, with `depth` calls of `decode` that are nested at most. -/
def decodeEffectScopes (depth : ℕ) : Option (Except String (List (EffectScope A))) :=
  match decodeIds decodeApplicationSite base encoded depth (List.range encoded.length) ⟨fun _ => none, []⟩ with
  | none => none
  | some (.error e) => some (.error e)
  | some (.ok decoder) =>
    some (collect (fun id => demand (decoder.decoded id) s!"value capsule omitted decoded effect scope {id}")
      (List.range encoded.length))

/-- What the decoder refuses that the validation does not see: an application site that cannot be decoded, and more
effect scopes than there are identities. -/
inductive DecodeFails (e : String) : Prop
  | application {frames : List (CapsuleClosureApplication S)} {frame : CapsuleClosureApplication S}
      (h : frames ∈ encoded) (hframe : frame ∈ frames) (he : decodeApplicationSite frame.application = .error e)
  | identities (h : 2 ^ 32 < encoded.length) (he : e = "value capsule has more than u32 effect scopes")

end Decode

section Returns

variable {decodeApplicationSite : S → Except String A} {base : EffectScope A} {capsule : ValueCapsule S}

/-- What a call of the decoder gives: it comes to an end, keeps what it visits, and loses no scope; where it fails the
validation could not tell. -/
def Decodes (decodeApplicationSite : S → Except String A) (capsule : ValueCapsule S) {B : Type}
    (decoder : EffectScopeDecoder A) (P : EffectScopeDecoder A → Prop)
    (outcome : Option (Except String (B × EffectScopeDecoder A))) : Prop :=
  (∃ e, outcome = some (.error e) ∧ DecodeFails decodeApplicationSite capsule.effectScopes e) ∨
  ∃ b decoder', outcome = some (.ok (b, decoder')) ∧ decoder'.visiting = decoder.visiting ∧
    (∀ id, (decoder.decoded id).isSome → (decoder'.decoded id).isSome) ∧ P decoder'

theorem decodeFrames_decodes
    {decode : ℕ → EffectScopeDecoder A → Option (Except String (EffectScope A × EffectScopeDecoder A))} :
    ∀ {frames : List (CapsuleClosureApplication S)} {effectScope : List (A × EffectScope A)}
      {decoder : EffectScopeDecoder A},
      (∀ frame ∈ frames, ∃ all ∈ capsule.effectScopes, frame ∈ all) →
      (∀ frame ∈ frames, ∀ decoder', decoder'.visiting = decoder.visiting →
        Decodes decodeApplicationSite capsule decoder' (fun _ => True) (decode frame.creationScope decoder')) →
      Decodes decodeApplicationSite capsule decoder (fun _ => True)
        (decodeFrames decodeApplicationSite decode frames effectScope decoder)
  | [], effectScope, decoder, _, _ => .inr ⟨effectScope, decoder, by rw [decodeFrames], rfl, fun _ h => h, trivial⟩
  | frame :: frames, effectScope, decoder, hframes, hdecode => by
    rw [decodeFrames]
    cases happlication : decodeApplicationSite frame.application with
    | error e =>
      obtain ⟨all, hall, hframe⟩ := hframes frame List.mem_cons_self
      exact .inl ⟨e, rfl, .application hall hframe happlication⟩
    | ok application =>
      rcases hdecode frame List.mem_cons_self decoder rfl with ⟨e, he, hfails⟩ |
        ⟨creationScope, decoder₁, h₁, hvisiting₁, hkept₁, -⟩
      · exact .inl ⟨e, by rw [he], hfails⟩
      · have hrest : Decodes decodeApplicationSite capsule decoder₁ (fun _ => True)
            (decodeFrames decodeApplicationSite decode frames (effectScope ++ [(application, creationScope)])
              decoder₁) :=
          decodeFrames_decodes (fun f hf => hframes f (List.mem_cons_of_mem _ hf)) fun f hf decoder' hvisiting' =>
            hdecode f (List.mem_cons_of_mem _ hf) decoder' (hvisiting'.trans hvisiting₁)
        rw [h₁]
        rcases hrest with ⟨e, he, hfails⟩ | ⟨scope, decoder₂, h₂, hvisiting₂, hkept₂, -⟩
        · exact .inl ⟨e, he, hfails⟩
        · exact .inr ⟨scope, decoder₂, h₂, hvisiting₂.trans hvisiting₁, fun id h => hkept₂ id (hkept₁ id h), trivial⟩

theorem isSome_update {decoded : ℕ → Option (EffectScope A)} {id v : ℕ} {effectScope : EffectScope A}
    (h : v = id ∨ (decoded v).isSome) : (Function.update decoded id (some effectScope) v).isSome := by
  by_cases hsame : v = id
  · rw [hsame, Function.update_self]
    rfl
  · rw [Function.update_of_ne hsame]
    exact h.resolve_left hsame

variable (decodeApplicationSite base)

/-- **A call of the decoder** for a scope in range, where those that are visited lead to it. -/
theorem decode_decodes (hgrounded : Grounded capsule.effectScopes.length valueCapsuleMaxDepth capsule.CreatedIn) :
    ∀ {depth id : ℕ} {decoder : EffectScopeDecoder A}, id < capsule.effectScopes.length →
      (∀ n w, Steps capsule.CreatedIn n id w → n < depth) →
      (∀ v ∈ decoder.visiting, TransGen capsule.CreatedIn v id) →
      Decodes decodeApplicationSite capsule decoder (fun decoder' => (decoder'.decoded id).isSome)
        (decode decodeApplicationSite base capsule.effectScopes depth id decoder)
  | 0, id, _, _, hdepth, _ => absurd (hdepth 0 id (.stay id)) (Nat.lt_irrefl 0)
  | depth + 1, id, decoder, hid, hdepth, hvisiting => by
    have hfresh : id ∉ decoder.visiting := fun hmem => hgrounded.acyclic id (hvisiting id hmem)
    rw [decode]
    cases hdecoded : decoder.decoded id with
    | some effectScope => exact .inr ⟨effectScope, decoder, rfl, rfl, fun _ h => h, by simp [hdecoded]⟩
    | none =>
      dsimp only
      rw [if_neg hfresh]
      have hmem := List.getElem_mem hid
      have hcreated : ∀ frame ∈ capsule.effectScopes[id], capsule.CreatedIn id frame.creationScope :=
        fun frame hframe => ⟨_, List.getElem?_eq_getElem hid, frame, hframe, rfl⟩
      rw [List.getElem?_eq_getElem hid]
      cases hframes : capsule.effectScopes[id] with
      | nil =>
        exact .inr ⟨base, _, rfl, List.erase_cons_head .., fun v h => isSome_update (.inr h), isSome_update (.inl rfl)⟩
      | cons frame frames =>
        rw [hframes] at hmem hcreated
        have hcalls : ∀ f ∈ frame :: frames, ∀ decoder', decoder'.visiting = id :: decoder.visiting →
            Decodes decodeApplicationSite capsule decoder' (fun _ => True)
              (decode decodeApplicationSite base capsule.effectScopes depth f.creationScope decoder') := by
          intro f hf decoder' hvisiting'
          have hcall := decode_decodes hgrounded (hgrounded.inRange _ _ (hcreated f hf))
            (fun n w hsteps => Nat.lt_of_succ_lt_succ (hdepth (n + 1) w (.step (hcreated f hf) hsteps))) (by
              intro v hv
              rw [hvisiting'] at hv
              rcases List.mem_cons.mp hv with rfl | hv
              · exact .single (hcreated f hf)
              · exact (hvisiting v hv).tail (hcreated f hf))
          rcases hcall with hfails | ⟨b, decoder'', heq, hkeeps, hkept, -⟩
          · exact .inl hfails
          · exact .inr ⟨b, decoder'', heq, hkeeps, hkept, trivial⟩
        have hloop : Decodes decodeApplicationSite capsule ⟨decoder.decoded, id :: decoder.visiting⟩ (fun _ => True)
            (decodeFrames decodeApplicationSite (decode decodeApplicationSite base capsule.effectScopes depth)
              (frame :: frames) base.applications ⟨decoder.decoded, id :: decoder.visiting⟩) :=
          decodeFrames_decodes (fun f hf => ⟨_, hmem, hf⟩) hcalls
        rcases hloop with ⟨e, he, hfails⟩ | ⟨applications, decoder', hd, hvisiting', hkept, -⟩
        · exact .inl ⟨e, by dsimp only; rw [he], hfails⟩
        · refine .inr ⟨.mk applications, _, by dsimp only; rw [hd], ?_, fun v h => isSome_update (.inr (hkept v h)),
            isSome_update (.inl rfl)⟩
          rw [hvisiting']
          exact List.erase_cons_head ..

theorem decodeIds_decodes (hgrounded : Grounded capsule.effectScopes.length valueCapsuleMaxDepth capsule.CreatedIn) :
    ∀ {ids : List ℕ} {decoder : EffectScopeDecoder A}, (∀ id ∈ ids, id < capsule.effectScopes.length) →
      decoder.visiting = [] →
      (∃ e, decodeIds decodeApplicationSite base capsule.effectScopes (valueCapsuleMaxDepth + 1) ids decoder =
        some (.error e) ∧ DecodeFails decodeApplicationSite capsule.effectScopes e) ∨
      ∃ decoder', decodeIds decodeApplicationSite base capsule.effectScopes (valueCapsuleMaxDepth + 1) ids decoder =
        some (.ok decoder') ∧ (∀ id, id ∈ ids ∨ (decoder.decoded id).isSome → (decoder'.decoded id).isSome)
  | [], decoder, _, _ => .inr ⟨decoder, by rw [decodeIds], fun id h => h.resolve_left (List.not_mem_nil)⟩
  | id :: ids, decoder, hids, hnone => by
    have hid := hids id List.mem_cons_self
    rw [decodeIds]
    split
    · next hlarge => exact .inl ⟨_, rfl, .identities (Nat.lt_of_le_of_lt hlarge hid) rfl⟩
    · have hvisiting : ∀ v ∈ decoder.visiting, TransGen capsule.CreatedIn v id := by
        rw [hnone]
        nofun
      have hdepth : ∀ n w, Steps capsule.CreatedIn n id w → n < valueCapsuleMaxDepth + 1 := fun n w hsteps =>
        Nat.lt_succ_of_le (hgrounded.within n id w hsteps)
      rcases decode_decodes decodeApplicationSite base hgrounded hid hdepth hvisiting with ⟨e, he, hfails⟩ |
        ⟨effectScope, decoder₁, h₁, hvisiting₁, hkept₁, hdone₁⟩
      · exact .inl ⟨e, by rw [he], hfails⟩
      · rw [h₁]
        rcases decodeIds_decodes hgrounded (fun v hv => hids v (List.mem_cons_of_mem _ hv))
          (hvisiting₁.trans hnone) with hfails | ⟨decoder₂, h₂, hkept₂⟩
        · exact .inl hfails
        · refine .inr ⟨decoder₂, h₂, fun v hv => hkept₂ v ?_⟩
          rcases hv with hv | hv
          · rcases List.mem_cons.mp hv with rfl | hv
            · exact .inr hdone₁
            · exact .inl hv
          · exact .inr (hkept₁ v hv)

/-- **The decoder of the effect scopes** comes to an end where they are grounded, and its own watch finds nothing. -/
theorem decodeEffectScopes_returns
    (hgrounded : Grounded capsule.effectScopes.length valueCapsuleMaxDepth capsule.CreatedIn) :
    ∃ result,
      decodeEffectScopes decodeApplicationSite base capsule.effectScopes (valueCapsuleMaxDepth + 1) = some result ∧
      ∀ e, result = .error e → DecodeFails decodeApplicationSite capsule.effectScopes e := by
  rw [decodeEffectScopes]
  have hstart : (⟨fun _ => none, []⟩ : EffectScopeDecoder A).visiting = [] := rfl
  rcases decodeIds_decodes decodeApplicationSite base hgrounded (fun _ hid => List.mem_range.mp hid) hstart with
    ⟨e, he, hfails⟩ | ⟨decoder, hdecoder, hdone⟩
  · refine ⟨.error e, by rw [he], fun e' heq => ?_⟩
    cases heq
    exact hfails
  · obtain ⟨scopes, hscopes⟩ : ∃ scopes, collect (fun id => demand (decoder.decoded id)
        s!"value capsule omitted decoded effect scope {id}") (List.range capsule.effectScopes.length) = .ok scopes := by
      refine collect_of_forall fun id hid => ?_
      obtain ⟨effectScope, heffectScope⟩ := Option.isSome_iff_exists.mp (hdone id (.inl hid))
      exact ⟨effectScope, demand_eq_ok.mpr heffectScope⟩
    exact ⟨.ok scopes, by rw [hdecoder]; exact congrArg some hscopes, nofun⟩

end Returns

/-- **The validation of a capsule is exact**: both scans come to an end and accept what is grounded.  Of what they
accept the references are well founded, the walk over the parents of the root ends within the limit, and the decoder of
the effect scopes calls itself no deeper than the limit and finds no cycle and no missing scope. -/
theorem capsule_graph_validation_exact (capsule : ValueCapsule S) :
    (∃ result, capsule.validateEnvironmentGraph = some result ∧ (result = .ok () ↔
      capsule.root < capsule.environments.length ∧
      Grounded capsule.environments.length valueCapsuleMaxEnvironmentGraphDepth capsule.Refers)) ∧
    (∃ result, capsule.validateEffectScopeGraph = some result ∧ (result = .ok () ↔
      Grounded capsule.effectScopes.length valueCapsuleMaxDepth capsule.CreatedIn)) ∧
    (capsule.validateEnvironmentGraph = some (.ok ()) →
      WellFounded (fun target id => capsule.Refers id target) ∧
      ∃ locations, capsule.indexEnvironmentNames (valueCapsuleMaxEnvironmentGraphDepth + 1) = some locations) ∧
    (capsule.validateEffectScopeGraph = some (.ok ()) →
      WellFounded (fun target id => capsule.CreatedIn id target) ∧
      ∀ {A : Type} (decodeApplicationSite : S → Except String A) (base : EffectScope A), ∃ result,
        decodeEffectScopes decodeApplicationSite base capsule.effectScopes (valueCapsuleMaxDepth + 1) = some result ∧
        ∀ e, result = .error e → DecodeFails decodeApplicationSite capsule.effectScopes e) := by
  have henvironments := capsule.validateEnvironmentGraph_exact
  have heffectScopes := capsule.validateEffectScopeGraph_exact
  refine ⟨henvironments, heffectScopes, fun haccepted => ?_, fun haccepted => ?_⟩
  · obtain ⟨result, hvalidate, hexact⟩ := henvironments
    rw [hvalidate] at haccepted
    obtain ⟨-, hgrounded⟩ := hexact.mp (Option.some.inj haccepted)
    refine ⟨hgrounded.within.wellFounded, indexLoop_returns capsule _ _ _ fun id _ n w hsteps => ?_⟩
    exact Nat.lt_succ_of_le (hgrounded.within n id w hsteps)
  · obtain ⟨result, hvalidate, hexact⟩ := heffectScopes
    rw [hvalidate] at haccepted
    have hgrounded := hexact.mp (Option.some.inj haccepted)
    exact ⟨hgrounded.within.wellFounded, fun decodeApplicationSite base =>
      decodeEffectScopes_returns decodeApplicationSite base hgrounded⟩

/-- Two environments, the second one in a closure that is nested in a field of the first, and two effect scopes. -/
def nestedCapsule : ValueCapsule Unit where
  environments :=
    [⟨none, [("read", .shape [("inner", .closure 1)])], [], [], []⟩, ⟨none, [("unit", .unit)], [], [], []⟩]
  effectScopes := [[⟨(), 1⟩], []]
  root := 0

theorem nestedCapsule_references : nestedCapsule.environments.map (·.references) = [[1], []] := by
  simp [nestedCapsule, CapsuleEnvironment.references, CapsuleValue.collectEnvironmentReferences,
    CapsuleValue.collectLoop, CapsuleValue.pushed]

theorem nestedCapsule_validated :
    nestedCapsule.validateEnvironmentGraph = some (.ok ()) ∧ nestedCapsule.validateEffectScopeGraph = some (.ok ()) ∧
    (∃ locations, nestedCapsule.indexEnvironmentNames 1025 = some locations) ∧
    ∃ result, decodeEffectScopes (fun _ => (.ok () : Except String Unit)) (.mk []) nestedCapsule.effectScopes 129 =
      some result := by
  have henvironments : nestedCapsule.validateEnvironmentGraph = some (.ok ()) := by
    rw [ValueCapsule.validateEnvironmentGraph, ValueCapsule.validateEnvironmentGraphForPublication,
      nestedCapsule_references]
    rfl
  have heffectScopes : nestedCapsule.validateEffectScopeGraph = some (.ok ()) := rfl
  obtain ⟨-, -, hindex, hdecode⟩ := capsule_graph_validation_exact nestedCapsule
  obtain ⟨result, hresult, -⟩ := (hdecode heffectScopes).2 (fun _ => .ok ()) (.mk [])
  exact ⟨henvironments, heffectScopes, (hindex henvironments).2, result, hresult⟩

end Blot.Capsule
