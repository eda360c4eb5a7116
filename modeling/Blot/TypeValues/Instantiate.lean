import Blot.TypeValues.Alike

/-!
# Instantiation of forms

Simultaneous replacement of free names by forms.  A form has no names to capture: this is what a substitution of type
values has to compute.

* `instantiate` — the replacement, of free names and of the identities of effects; refused where the tail of an effect
  row is replaced by no row;
* `instantiate_self`, `instantiate_rename` — nothing replaced, and a name replaced by a name;
* `Alike.instantiate` — agreeing forms have agreeing instances.
-/

namespace Blot.TypeValues

namespace Term

/-! ### Effects -/

def bare {β ν : Type} : Term β ν → Term β ν
  | .extended inner _ => bare inner
  | value => value

theorem bare_ne_extended {β ν : Type} {a inner : Term β ν} {members : List (String × Term β ν)} :
    a.bare ≠ .extended inner members := by
  induction a with
  | extended _ _ ih => exact ih
  | _ => nofun

def isEffect {β ν : Type} : Term β ν → Bool
  | .effect _ _ _ _ => true
  | _ => false

def effectId {β ν : Type} : Term β ν → Option ℕ
  | .effect id _ _ _ => some id
  | _ => none

section Bare

variable {β ν : Type}

theorem core_bare (a : Term β ν) : core a.bare = core a := by
  induction a with
  | extended inner members ih => exact ih
  | _ => rfl

theorem bare_core (a : Term β ν) : (core a).bare = core a := by
  induction a with
  | extended inner members ih => exact ih
  | _ => rfl

theorem isText_core (a : Term β ν) : (core a).isText = a.bare.isText := by
  induction a with
  | scalar value => cases value <;> rfl
  | extended inner members ih => exact ih
  | _ => rfl

theorem effectId_core (a : Term β ν) : effectId (core a) = effectId a.bare := by
  induction a with
  | extended inner members ih => exact ih
  | _ => rfl

end Bare

/-- The effects of a row and those added to it that it does not have, by a test of effects. -/
def pushEffects {α : Type} (same : α → α → Bool) (effects additional : List α) : List α :=
  additional.foldl (fun effects effect => if effects.any (same · effect) then effects else effects ++ [effect]) effects

def sameEffect {β ν : Type} (seen effect : Term β ν) : Bool := effectId seen.bare = effectId effect

/-- An effect row whose tail is replaced: a variable keeps it open, an effect or an array of effects closes it. -/
def replaceTail {β ν : Type} (same : Term β ν → Term β ν → Bool) (effects : List (Term β ν))
    (replacement : Term β ν) : Option (List (Term β ν) × Option ν) :=
  match replacement.bare with
  | .typeVariable id => some (effects, some id)
  | .effect id name operations host => some (pushEffects same effects [.effect id name operations host], none)
  | .array members => if members.all isEffect then some (pushEffects same effects members, none) else none
  | _ => none

/-! ### Instances -/

/-- What replaces a name, what replaces an effect, and what becomes of the members of a union. -/
structure Instantiation where
  types : ℕ → Option Form
  effects : ℕ → Option Form
  unite : List Form → Form

namespace Instantiation

def single (x : ℕ) (R : Form) : Instantiation where
  types y := if y = x then some R else none
  effects _ := none
  unite := .union

def variableOf (σ : Instantiation) : Name → Form
  | .free x => (σ.types x).getD (.typeVariable (.free x))
  | n => .typeVariable n

def arrowOf (σ : Instantiation) (deferred : Bool) (domain codomain : Form) (effects : List Form) :
    Option Name → Option Form
  | some (.free x) =>
    match σ.types x with
    | some R => (replaceTail sameEffect effects R).map fun row => .arrow deferred domain codomain row.1 row.2
    | none => some (.arrow deferred domain codomain effects (some (.free x)))
  | effectTail => some (.arrow deferred domain codomain effects effectTail)

end Instantiation

section Instantiate

variable (σ : Instantiation)

mutual
/-- **The instance of a form.** -/
def instantiate : Form → Option Form
  | .scalar value => some (.scalar value)
  | .function identity => some (.function identity)
  | .shape fields => (instantiateFields fields).map .shape
  | .array elements => (instantiateAll elements).map .array
  | .scratch values capacity => (instantiateAll values).map (.scratch · capacity)
  | .wrapped kind inner => (instantiate inner).map (.wrapped kind)
  | .emptyArray element => (instantiate element).map .emptyArray
  | .range low high domain => do
    let low ← instantiate low
    let high ← instantiate high
    some (.range low high domain)
  | .union members => (instantiateAll members).map σ.unite
  | .arrow deferred domain codomain effects effectTail => do
    let domain ← instantiate domain
    let codomain ← instantiate codomain
    let effects ← instantiateAll effects
    σ.arrowOf deferred domain codomain effects effectTail
  | .typeVariable n => some (σ.variableOf n)
  | .forAll bound body => (instantiate body).map (.forAll bound)
  | .effect id name operations host =>
    match σ.effects id with
    | some R => some R
    | none => (instantiateFields operations).map (.effect id name · host)
  | .operation of name => (instantiate of).map (.operation · name)
  | .extended inner members => do
    let inner ← instantiate inner
    let members ← instantiateFields members
    some (.extended inner members)
termination_by structural t => t
def instantiateAll : List Form → Option (List Form)
  | [] => some []
  | t :: ts => do
    let t ← instantiate t
    let ts ← instantiateAll ts
    some (t :: ts)
termination_by structural ts => ts
def instantiateFields : List (String × Form) → Option (List (String × Form))
  | [] => some []
  | (name, t) :: fields => do
    let t ← instantiate t
    let fields ← instantiateFields fields
    some ((name, t) :: fields)
termination_by structural fields => fields
end

variable {σ}

theorem instantiateAll_eq_map {g : Form → Form} {ts : List Form} (h : ∀ t ∈ ts, instantiate σ t = some (g t)) :
    instantiateAll σ ts = some (ts.map g) := by
  induction ts with
  | nil => rfl
  | cons t ts ih =>
    obtain ⟨ht, hts⟩ := List.forall_mem_cons.1 h
    rw [instantiateAll, ht, ih hts]
    rfl

theorem instantiateFields_eq_map {g : Form → Form} {fields : List (String × Form)}
    (h : ∀ p ∈ fields, instantiate σ p.2 = some (g p.2)) :
    instantiateFields σ fields = some (fields.map fun p => (p.1, g p.2)) := by
  induction fields with
  | nil => rfl
  | cons p fields ih =>
    obtain ⟨hp, hfields⟩ := List.forall_mem_cons.1 h
    rw [instantiateFields, hp, ih hfields]
    rfl

end Instantiate

/-- Where names are replaced by names only, the instance is a renaming. -/
theorem instantiate_walk {σ : Instantiation} {g : Name → Name} (heffects : ∀ id, σ.effects id = none)
    (hunite : σ.unite = .union) {F : Form} (hvariable : ∀ n ∈ F.occurrences, σ.variableOf n = .typeVariable (g n))
    (harrow : ∀ n ∈ F.occurrences, ∀ deferred domain codomain effects,
      σ.arrowOf deferred domain codomain effects (some n) =
        some (.arrow deferred domain codomain effects (some (g n)))) :
    instantiate σ F = some (walk (fun _ b => ((), b)) (fun _ => g) () F) := by
  induction F using induct with
  | scalar value => rfl
  | function identity => rfl
  | shape fields ih =>
    simp only [occurrences, mem_occurrencesFields] at hvariable harrow
    rw [instantiate, walk, walkFields_eq, instantiateFields_eq_map fun p hp =>
      ih p hp (fun n hn => hvariable n ⟨p, hp, hn⟩) fun n hn => harrow n ⟨p, hp, hn⟩]
    rfl
  | array elements ih | scratch values capacity ih =>
    simp only [occurrences, mem_occurrencesAll] at hvariable harrow
    rw [instantiate, walk, walkAll_eq, instantiateAll_eq_map fun t ht =>
      ih t ht (fun n hn => hvariable n ⟨t, ht, hn⟩) fun n hn => harrow n ⟨t, ht, hn⟩]
    rfl
  | wrapped kind inner ih | emptyArray element ih =>
    rw [instantiate, walk, ih hvariable harrow]
    rfl
  | range low high domain ihl ihh =>
    simp only [occurrences, List.mem_append] at hvariable harrow
    rw [instantiate, walk, ihl (fun n hn => hvariable n (.inl hn)) fun n hn => harrow n (.inl hn),
      ihh (fun n hn => hvariable n (.inr hn)) fun n hn => harrow n (.inr hn)]
    rfl
  | union members ih =>
    simp only [occurrences, mem_occurrencesAll] at hvariable harrow
    rw [instantiate, walk, walkAll_eq, hunite, instantiateAll_eq_map fun t ht =>
      ih t ht (fun n hn => hvariable n ⟨t, ht, hn⟩) fun n hn => harrow n ⟨t, ht, hn⟩]
    rfl
  | arrow deferred domain codomain effects effectTail ihd ihc ih =>
    simp only [occurrences, List.mem_append, mem_occurrencesAll] at hvariable harrow
    have hdomain := ihd (fun n hn => hvariable n (.inl (.inl (.inl hn)))) fun n hn => harrow n (.inl (.inl (.inl hn)))
    have hcodomain := ihc (fun n hn => hvariable n (.inl (.inl (.inr hn)))) fun n hn => harrow n (.inl (.inl (.inr hn)))
    rw [instantiate, walk, walkAll_eq, hdomain, hcodomain, instantiateAll_eq_map fun t ht =>
      ih t ht (fun n hn => hvariable n (.inl (.inr ⟨t, ht, hn⟩))) fun n hn => harrow n (.inl (.inr ⟨t, ht, hn⟩))]
    cases effectTail with
    | none => rfl
    | some n => exact harrow n (.inr (by simp)) _ _ _ _
  | typeVariable n => exact congrArg some (hvariable n List.mem_cons_self)
  | forAll bound body ih =>
    rw [instantiate, walk, ih hvariable harrow]
    rfl
  | effect id name operations host ih =>
    simp only [occurrences, mem_occurrencesFields] at hvariable harrow
    rw [instantiate, walk, walkFields_eq, heffects, instantiateFields_eq_map fun p hp =>
      ih p hp (fun n hn => hvariable n ⟨p, hp, hn⟩) fun n hn => harrow n ⟨p, hp, hn⟩]
    rfl
  | operation of name ih =>
    rw [instantiate, walk, ih hvariable harrow]
    rfl
  | extended inner members ih ihm =>
    simp only [occurrences, List.mem_append, mem_occurrencesFields] at hvariable harrow
    rw [instantiate, walk, walkFields_eq, ih (fun n hn => hvariable n (.inl hn)) fun n hn => harrow n (.inl hn),
      instantiateFields_eq_map fun p hp =>
        ihm p hp (fun n hn => hvariable n (.inr ⟨p, hp, hn⟩)) fun n hn => harrow n (.inr ⟨p, hp, hn⟩)]
    rfl

theorem instantiate_rename (x f : ℕ) (F : Form) :
    instantiate (.single x (.typeVariable (.free f))) F = some (rename x f F) := by
  refine instantiate_walk (fun _ => rfl) rfl (fun n _ => ?_) fun n _ deferred domain codomain effects => ?_
  · cases n with
    | bound index => rfl
    | free y =>
      by_cases hy : y = x
      · simp [Instantiation.variableOf, Instantiation.single, hy]
      · simp [Instantiation.variableOf, Instantiation.single, hy]
  · cases n with
    | bound index => rfl
    | free y =>
      by_cases hy : y = x
      · simp [Instantiation.arrowOf, Instantiation.single, hy, replaceTail, bare]
      · simp [Instantiation.arrowOf, Instantiation.single, hy]

theorem instantiate_self {x : ℕ} {R F : Form} (h : .free x ∉ F.occurrences) :
    instantiate (.single x R) F = some F := by
  have htypes (y : ℕ) (hy : .free y ∈ F.occurrences) : (Instantiation.single x R).types y = none := by
    refine if_neg ?_
    rintro rfl
    exact h hy
  conv_rhs => rw [← walk_id F]
  refine instantiate_walk (g := id) (fun _ => rfl) rfl (fun n hn => ?_) fun n hn deferred domain codomain effects => ?_
  · cases n with
    | bound index => rfl
    | free y => simp [Instantiation.variableOf, htypes y hn]
  · cases n with
    | bound index => rfl
    | free y => simp [Instantiation.arrowOf, htypes y hn]

/-! ### Results of lists -/

section Lists

variable {σ : Instantiation}

theorem exists_instantiateAll {ts : List Form} (h : ∀ t ∈ ts, ∃ u, instantiate σ t = some u) :
    ∃ us, instantiateAll σ ts = some us := by
  induction ts with
  | nil => exact ⟨[], rfl⟩
  | cons t ts ih =>
    obtain ⟨⟨u, hu⟩, hts⟩ := List.forall_mem_cons.1 h
    obtain ⟨us, hus⟩ := ih hts
    exact ⟨u :: us, by rw [instantiateAll, hu, hus]; rfl⟩

theorem exists_instantiateFields {fields : List (String × Form)} (h : ∀ p ∈ fields, ∃ u, instantiate σ p.2 = some u) :
    ∃ us, instantiateFields σ fields = some us := by
  induction fields with
  | nil => exact ⟨[], rfl⟩
  | cons p fields ih =>
    obtain ⟨⟨u, hu⟩, hfields⟩ := List.forall_mem_cons.1 h
    obtain ⟨us, hus⟩ := ih hfields
    exact ⟨(p.1, u) :: us, by rw [instantiateFields, hu, hus]; rfl⟩

theorem zip_instantiateAll {ts us : List Form} (h : instantiateAll σ ts = some us) :
    ts.length = us.length ∧ ∀ p ∈ ts.zip us, instantiate σ p.1 = some p.2 := by
  induction ts generalizing us with
  | nil =>
    obtain rfl := Option.some.inj h
    exact ⟨rfl, nofun⟩
  | cons t ts ih =>
    rw [instantiateAll] at h
    obtain ⟨u, us, hu, hus, rfl⟩ := Support.bind₂_eq_some.1 h
    obtain ⟨hlength, hall⟩ := ih hus
    exact ⟨congrArg (· + 1) hlength, List.forall_mem_cons.2 ⟨hu, hall⟩⟩

theorem mem_instantiateAll {ts us : List Form} (h : instantiateAll σ ts = some us) :
    (∀ t ∈ ts, ∃ u ∈ us, instantiate σ t = some u) ∧ ∀ u ∈ us, ∃ t ∈ ts, instantiate σ t = some u := by
  induction ts generalizing us with
  | nil =>
    obtain rfl := Option.some.inj h
    exact ⟨nofun, nofun⟩
  | cons t ts ih =>
    rw [instantiateAll] at h
    obtain ⟨u, us, hu, hus, rfl⟩ := Support.bind₂_eq_some.1 h
    obtain ⟨hleft, hright⟩ := ih hus
    refine ⟨List.forall_mem_cons.2 ⟨⟨u, List.mem_cons_self, hu⟩, fun t ht => ?_⟩,
      List.forall_mem_cons.2 ⟨⟨t, List.mem_cons_self, hu⟩, fun v hv => ?_⟩⟩
    · obtain ⟨v, hv, heq⟩ := hleft t ht
      exact ⟨v, List.mem_cons_of_mem _ hv, heq⟩
    · obtain ⟨t', ht, heq⟩ := hright v hv
      exact ⟨t', List.mem_cons_of_mem _ ht, heq⟩

theorem mem_instantiateFields {fields fields' : List (String × Form)} (h : instantiateFields σ fields = some fields') :
    (∀ p ∈ fields, ∃ q ∈ fields', q.1 = p.1 ∧ instantiate σ p.2 = some q.2) ∧
      ∀ q ∈ fields', ∃ p ∈ fields, q.1 = p.1 ∧ instantiate σ p.2 = some q.2 := by
  induction fields generalizing fields' with
  | nil =>
    obtain rfl := Option.some.inj h
    exact ⟨nofun, nofun⟩
  | cons p fields ih =>
    rw [instantiateFields] at h
    obtain ⟨u, us, hu, hus, rfl⟩ := Support.bind₂_eq_some.1 h
    obtain ⟨hleft, hright⟩ := ih hus
    refine ⟨List.forall_mem_cons.2 ⟨⟨_, List.mem_cons_self, rfl, hu⟩, fun p hp => ?_⟩,
      List.forall_mem_cons.2 ⟨⟨_, List.mem_cons_self, rfl, hu⟩, fun q hq => ?_⟩⟩
    · obtain ⟨q, hq, heq⟩ := hleft p hp
      exact ⟨q, List.mem_cons_of_mem _ hq, heq⟩
    · obtain ⟨p, hp, heq⟩ := hright q hq
      exact ⟨p, List.mem_cons_of_mem _ hp, heq⟩

end Lists

/-! ### Agreeing forms have agreeing instances -/

section Congruence

variable {counted : Bool} {x : ℕ} {R R' A B C : Form} {xs ys : List Form}

theorem Alike.effectId (h : Alike counted A B) : effectId A = effectId B := by
  cases h <;> rfl

theorem Alike.isEffect (h : Alike counted A B) : isEffect A = isEffect B := by
  cases h <;> rfl

theorem Alike.bare_left (h : Alike counted A B) : A.bare = A := by
  cases h <;> rfl

theorem Alike.bare_right (h : Alike counted A B) : B.bare = B :=
  h.symm.bare_left

theorem Members.any_sameEffect (h : Members counted xs ys) {e e' : Form} (he : Term.effectId e = Term.effectId e') :
    xs.any (sameEffect · e) = ys.any (sameEffect · e') := by
  rw [Bool.eq_iff_iff, List.any_eq_true, List.any_eq_true]
  constructor
  · rintro ⟨s, hs, hsame⟩
    obtain ⟨s', hs', halike⟩ := h.2.1 s hs
    refine ⟨s', hs', ?_⟩
    rw [sameEffect, halike.bare_left, halike.effectId, he] at hsame
    rwa [sameEffect, halike.bare_right]
  · rintro ⟨s', hs', hsame⟩
    obtain ⟨s, hs, halike⟩ := h.2.2 s' hs'
    refine ⟨s, hs, ?_⟩
    rw [sameEffect, halike.bare_right, ← halike.effectId, ← he] at hsame
    rwa [sameEffect, halike.bare_left]

theorem Members.append (h : Members counted xs ys) {e e' : Form} (he : Alike counted e e') :
    Members counted (xs ++ [e]) (ys ++ [e']) := by
  refine ⟨fun hc => by rw [List.length_append, List.length_append, h.1 hc]; rfl, fun s hs => ?_, fun s hs => ?_⟩
  · obtain hs | hs := List.mem_append.1 hs
    · obtain ⟨s', hs', halike⟩ := h.2.1 s hs
      exact ⟨s', List.mem_append_left _ hs', halike⟩
    · exact ⟨e', by simp, List.mem_singleton.1 hs ▸ he⟩
  · obtain hs | hs := List.mem_append.1 hs
    · obtain ⟨s', hs', halike⟩ := h.2.2 s hs
      exact ⟨s', List.mem_append_left _ hs', halike⟩
    · exact ⟨e, by simp, List.mem_singleton.1 hs ▸ he⟩

theorem Members.push (h : Members counted xs ys) {es es' : List Form} (hlength : es.length = es'.length)
    (hes : ∀ p ∈ es.zip es', Alike counted p.1 p.2) :
    Members counted (pushEffects sameEffect xs es) (pushEffects sameEffect ys es') := by
  unfold pushEffects
  induction es generalizing es' xs ys with
  | nil =>
    cases es' with
    | nil => exact h
    | cons _ _ => cases hlength
  | cons e es ih =>
    cases es' with
    | nil => cases hlength
    | cons e' es' =>
      rw [List.zip_cons_cons] at hes
      obtain ⟨he, hrest⟩ := List.forall_mem_cons.1 hes
      rw [List.foldl_cons, List.foldl_cons, h.any_sameEffect he.effectId]
      split
      · exact ih h (Nat.succ.inj hlength) hrest
      · exact ih (h.append he) (Nat.succ.inj hlength) hrest

theorem Members.replaceTail (h : Members counted xs ys) (hR : Alike counted R R') {row : List Form × Option Name}
    (hrow : replaceTail sameEffect xs R = some row) :
    ∃ row', Term.replaceTail sameEffect ys R' = some row' ∧ Members counted row.1 row'.1 ∧ row.2 = row'.2 := by
  unfold Term.replaceTail at hrow ⊢
  rw [hR.bare_left] at hrow
  rw [hR.bare_right]
  cases hR with
  | typeVariable id =>
    obtain rfl := Option.some.inj hrow
    exact ⟨_, rfl, h, rfl⟩
  | effect id =>
    obtain rfl := Option.some.inj hrow
    exact ⟨_, rfl, h.push rfl (List.forall_mem_singleton.2 (.effect id)), rfl⟩
  | @array es es' length elements =>
    dsimp only at hrow ⊢
    split at hrow
    · next hall =>
      obtain rfl := Option.some.inj hrow
      have hall' : es'.all Term.isEffect = true := List.all_eq_true.2 <|
        forall_of_zip length (fun p hp he => (elements p hp).isEffect ▸ he) (List.all_eq_true.1 hall)
      rw [if_pos hall']
      exact ⟨_, rfl, h.push length elements, rfl⟩
    · cases hrow
  | _ => cases hrow

theorem zip_instances {ts ts' us : List Form} (hlength : ts.length = ts'.length)
    (h : ∀ p ∈ ts.zip ts', ∀ {C}, instantiate (.single x R) p.1 = some C →
      ∃ D, instantiate (.single x R') p.2 = some D ∧ Alike counted C D)
    (hus : instantiateAll (.single x R) ts = some us) :
    ∃ us', instantiateAll (.single x R') ts' = some us' ∧ us.length = us'.length ∧
      ∀ p ∈ us.zip us', Alike counted p.1 p.2 := by
  induction ts generalizing ts' us with
  | nil =>
    obtain rfl := Option.some.inj hus
    cases ts' with
    | nil => exact ⟨[], rfl, rfl, nofun⟩
    | cons t' ts' => cases hlength
  | cons t ts ih =>
    cases ts' with
    | nil => cases hlength
    | cons t' ts' =>
      rw [List.zip_cons_cons] at h
      obtain ⟨ht, hts⟩ := List.forall_mem_cons.1 h
      rw [instantiateAll] at hus
      obtain ⟨u, us, hu, hrest, rfl⟩ := Support.bind₂_eq_some.1 hus
      obtain ⟨D, hD, halike⟩ := ht hu
      obtain ⟨us', hus', hlength', hall⟩ := ih (Nat.succ.inj hlength) hts hrest
      exact ⟨D :: us', by rw [instantiateAll, hD, hus']; rfl, congrArg (· + 1) hlength',
        List.forall_mem_cons.2 ⟨halike, hall⟩⟩

theorem member_instances {us : List Form} {f g : Form → Form} (length : counted = true → xs.length = ys.length)
    (mem : ∀ t ∈ xs, f t ∈ ys)
    (left : ∀ t ∈ xs, ∀ {C}, instantiate (.single x R) t = some C →
      ∃ D, instantiate (.single x R') (f t) = some D ∧ Alike counted C D)
    (mem' : ∀ t ∈ ys, g t ∈ xs)
    (right : ∀ t ∈ ys, ∀ {C}, instantiate (.single x R) (g t) = some C →
      ∃ D, instantiate (.single x R') t = some D ∧ Alike counted C D)
    (hus : instantiateAll (.single x R) xs = some us) :
    ∃ us', instantiateAll (.single x R') ys = some us' ∧ Members counted us us' := by
  obtain ⟨hleft, hright⟩ := mem_instantiateAll hus
  obtain ⟨us', hus'⟩ : ∃ us', instantiateAll (.single x R') ys = some us' := by
    refine exists_instantiateAll fun t ht => ?_
    obtain ⟨u, -, hu⟩ := hleft (g t) (mem' t ht)
    obtain ⟨D, hD, -⟩ := right t ht hu
    exact ⟨D, hD⟩
  obtain ⟨hleft', hright'⟩ := mem_instantiateAll hus'
  refine ⟨us', hus', fun hc => ?_, fun u hu => ?_, fun v hv => ?_⟩
  · rw [← (zip_instantiateAll hus).1, ← (zip_instantiateAll hus').1, length hc]
  · obtain ⟨t, ht, hinstance⟩ := hright u hu
    obtain ⟨D, hD, halike⟩ := left t ht hinstance
    obtain ⟨v, hv, hv'⟩ := hleft' _ (mem t ht)
    rw [hD] at hv'
    exact ⟨v, hv, Option.some.inj hv' ▸ halike⟩
  · obtain ⟨t, ht, hinstance⟩ := hright' v hv
    obtain ⟨u, hu, hu'⟩ := hleft _ (mem' t ht)
    obtain ⟨D, hD, halike⟩ := right t ht hu'
    obtain rfl := Option.some.inj (hD.symm.trans hinstance)
    exact ⟨u, hu, halike⟩

theorem alike_variableOf (hR : Alike counted R R') (n : Name) :
    Alike counted ((Instantiation.single x R).variableOf n) ((Instantiation.single x R').variableOf n) := by
  cases n with
  | bound index => exact .typeVariable _
  | free y =>
    by_cases hy : y = x
    · simpa [Instantiation.variableOf, Instantiation.single, hy] using hR
    · simpa [Instantiation.variableOf, Instantiation.single, hy] using Alike.typeVariable (Name.free y)

theorem alike_arrowOf (hR : Alike counted R R') {deferred : Bool} {domain domain' codomain codomain' : Form}
    (hdomain : Alike counted domain domain') (hcodomain : Alike counted codomain codomain')
    (hmembers : Members counted xs ys) {effectTail : Option Name}
    (hC : (Instantiation.single x R).arrowOf deferred domain codomain xs effectTail = some C) :
    ∃ D, (Instantiation.single x R').arrowOf deferred domain' codomain' ys effectTail = some D ∧
      Alike counted C D := by
  have hkept (n : Option Name) : Alike counted (.arrow deferred domain codomain xs n)
      (.arrow deferred domain' codomain' ys n) :=
    alike_arrow_iff.2 ⟨rfl, hdomain, hcodomain, hmembers, rfl⟩
  match effectTail with
  | none =>
    obtain rfl := Option.some.inj hC
    exact ⟨_, rfl, hkept none⟩
  | some (.bound index) =>
    obtain rfl := Option.some.inj hC
    exact ⟨_, rfl, hkept _⟩
  | some (.free y) =>
    by_cases hy : y = x
    · simp only [Instantiation.arrowOf, Instantiation.single, hy, if_true] at hC ⊢
      obtain ⟨row, hrow, rfl⟩ := Option.map_eq_some_iff.1 hC
      obtain ⟨row', hrow', hmembers', htail⟩ := hmembers.replaceTail hR hrow
      exact ⟨_, by rw [hrow', Option.map_some], alike_arrow_iff.2 ⟨rfl, hdomain, hcodomain, hmembers', htail⟩⟩
    · simp only [Instantiation.arrowOf, Instantiation.single, hy, if_false] at hC ⊢
      obtain rfl := Option.some.inj hC
      exact ⟨_, rfl, hkept _⟩

/-- **Agreeing forms have agreeing instances.** -/
theorem Alike.instantiate (h : Alike counted A B) (hR : Alike counted R R')
    (hC : instantiate (.single x R) A = some C) :
    ∃ D, Term.instantiate (.single x R') B = some D ∧ Alike counted C D := by
  induction h generalizing C with
  | scalar value =>
    obtain rfl := Option.some.inj hC
    exact ⟨_, rfl, .scalar value⟩
  | function identity =>
    obtain rfl := Option.some.inj hC
    exact ⟨_, rfl, .function identity⟩
  | @shape fields fields' f g mem names left mem' names' right ih ih' =>
    rw [Term.instantiate] at hC
    obtain ⟨us, hus, rfl⟩ := Option.map_eq_some_iff.1 hC
    obtain ⟨hleft, hright⟩ := mem_instantiateFields hus
    obtain ⟨us', hus'⟩ : ∃ us', instantiateFields (.single x R') fields' = some us' := by
      refine exists_instantiateFields fun q hq => ?_
      obtain ⟨p, -, -, hp⟩ := hleft (g q) (mem' q hq)
      obtain ⟨D, hD, -⟩ := ih' q hq hp
      exact ⟨D, hD⟩
    obtain ⟨hleft', hright'⟩ := mem_instantiateFields hus'
    refine ⟨.shape us', by rw [Term.instantiate, hus', Option.map_some],
      alike_shape_iff.2 ⟨fun u hu => ?_, fun v hv => ?_⟩⟩
    · obtain ⟨p, hp, hname, hinstance⟩ := hright u hu
      obtain ⟨D, hD, halike⟩ := ih p hp hinstance
      obtain ⟨v, hv, hname', hv'⟩ := hleft' _ (mem p hp)
      obtain rfl := Option.some.inj (hD.symm.trans hv')
      exact ⟨v, hv, by rw [hname', names p hp, hname], halike⟩
    · obtain ⟨q, hq, hname, hinstance⟩ := hright' v hv
      obtain ⟨u, hu, hname', hu'⟩ := hleft _ (mem' q hq)
      obtain ⟨D, hD, halike⟩ := ih' q hq hu'
      obtain rfl := Option.some.inj (hD.symm.trans hinstance)
      exact ⟨u, hu, by rw [hname', names' q hq, hname], halike⟩
  | array length elements ih =>
    rw [Term.instantiate] at hC
    obtain ⟨us, hus, rfl⟩ := Option.map_eq_some_iff.1 hC
    obtain ⟨us', hus', hlength', hall⟩ := zip_instances length ih hus
    exact ⟨.array us', by rw [Term.instantiate, hus', Option.map_some], .array hlength' hall⟩
  | scratch capacity length elements ih =>
    rw [Term.instantiate] at hC
    obtain ⟨us, hus, rfl⟩ := Option.map_eq_some_iff.1 hC
    obtain ⟨us', hus', hlength', hall⟩ := zip_instances length ih hus
    exact ⟨.scratch us' capacity, by rw [Term.instantiate, hus', Option.map_some], .scratch capacity hlength' hall⟩
  | wrapped kind _ ih =>
    rw [Term.instantiate] at hC
    obtain ⟨C, hinner, rfl⟩ := Option.map_eq_some_iff.1 hC
    obtain ⟨D, hD, halike⟩ := ih hinner
    exact ⟨_, by rw [Term.instantiate, hD, Option.map_some], .wrapped kind halike⟩
  | range domain _ _ ihl ihh =>
    rw [Term.instantiate] at hC
    obtain ⟨low, high, hlow, hhigh, rfl⟩ := Support.bind₂_eq_some.1 hC
    obtain ⟨D, hD, halike⟩ := ihl hlow
    obtain ⟨D', hD', halike'⟩ := ihh hhigh
    exact ⟨_, by rw [Term.instantiate, hD, hD']; rfl, .range domain halike halike'⟩
  | union length mem left mem' right ih ih' =>
    rw [Term.instantiate] at hC
    obtain ⟨us, hus, rfl⟩ := Option.map_eq_some_iff.1 hC
    obtain ⟨us', hus', hmembers⟩ := member_instances length mem ih mem' ih' hus
    exact ⟨.union us', by rw [Term.instantiate, hus', Option.map_some]; rfl, alike_union_iff.2 hmembers⟩
  | arrow deferred effectTail _ _ length mem left mem' right ihd ihc ih ih' =>
    rw [Term.instantiate] at hC
    obtain ⟨domain, hdomain, hC⟩ := Option.bind_eq_some_iff.1 hC
    obtain ⟨codomain, hcodomain, hC⟩ := Option.bind_eq_some_iff.1 hC
    obtain ⟨us, hus, hC⟩ := Option.bind_eq_some_iff.1 hC
    obtain ⟨domain', hdomain', halike⟩ := ihd hdomain
    obtain ⟨codomain', hcodomain', halike'⟩ := ihc hcodomain
    obtain ⟨us', hus', hmembers⟩ := member_instances length mem ih mem' ih' hus
    obtain ⟨D, hD, halikeD⟩ := alike_arrowOf hR halike halike' hmembers hC
    exact ⟨D, by rw [Term.instantiate, hdomain', hcodomain', hus']; exact hD, halikeD⟩
  | typeVariable n =>
    rw [Term.instantiate] at hC
    obtain rfl := Option.some.inj hC
    exact ⟨_, rfl, alike_variableOf hR n⟩
  | forAll _ ih =>
    rw [Term.instantiate] at hC
    obtain ⟨C, hbody, rfl⟩ := Option.map_eq_some_iff.1 hC
    obtain ⟨D, hD, halike⟩ := ih hbody
    exact ⟨_, by rw [Term.instantiate, hD, Option.map_some], .forAll halike⟩
  | effect id =>
    obtain rfl := Option.some.inj hC
    exact ⟨_, rfl, .effect id⟩
  | operation name _ ih =>
    rw [Term.instantiate] at hC
    obtain ⟨C, hof, rfl⟩ := Option.map_eq_some_iff.1 hC
    obtain ⟨D, hD, halike⟩ := ih hof
    exact ⟨_, by rw [Term.instantiate, hD, Option.map_some], .operation name halike⟩

end Congruence

end Term

end Blot.TypeValues
