import Mathlib.Data.List.Perm.Subperm
import Blot.TypeValues.Nameless

/-!
# Agreement of type values

What two type values have to have in common: their forms, without the attached members, the parts an identity stands
for and the type an empty array is given, with fields in any order and the members of a union and of an effect row in
any order and number.

* `core` — a form without what agreement ignores;
* `Alike` — agreement of cores, an equivalence; counted, when unions and effect rows also have the same length;
* `Spread` — no union and no effect row has two members that agree; between such cores agreement is counted.
-/

namespace Blot.TypeValues

namespace Term

variable {β β' ν ν' σ : Type}

/-! ### Cores -/

def isText : Term β ν → Bool
  | .scalar (.text _) => true
  | _ => false

def rangeDomain (low high : Term β ν) (domain : Option Domain) : Domain :=
  domain.getD (if low.isText || high.isText then .text else .int)

mutual
/-- A value without attached members, and with an effect for its identity; an empty array has no element type, and the
domain of a range is determined. -/
def core : Term β ν → Term β ν
  | .scalar value => .scalar value
  | .function identity => .function identity
  | .shape fields => .shape (coreFields fields)
  | .array elements => .array (coreAll elements)
  | .scratch values capacity => .scratch (coreAll values) capacity
  | .wrapped kind inner => .wrapped kind (core inner)
  | .emptyArray _ => .array []
  | .range low high domain => .range (core low) (core high) (some (rangeDomain (core low) (core high) domain))
  | .union members => .union (coreAll members)
  | .arrow deferred domain codomain effects effectTail =>
    .arrow deferred (core domain) (core codomain) (coreAll effects) effectTail
  | .typeVariable id => .typeVariable id
  | .forAll bound body => .forAll bound (core body)
  | .effect id _ _ _ => .effect id "" [] false
  | .operation of name => .operation (core of) name
  | .extended inner _ => core inner
termination_by structural t => t
def coreAll : List (Term β ν) → List (Term β ν)
  | [] => []
  | t :: ts => core t :: coreAll ts
termination_by structural ts => ts
def coreFields : List (String × Term β ν) → List (String × Term β ν)
  | [] => []
  | (name, t) :: fields => (name, core t) :: coreFields fields
termination_by structural fields => fields
end

@[simp] theorem coreAll_eq (ts : List (Term β ν)) : coreAll ts = ts.map core := by
  induction ts with
  | nil => rfl
  | cons t ts ih => rw [coreAll, ih, List.map_cons]

@[simp] theorem coreFields_eq (fields : List (String × Term β ν)) :
    coreFields fields = fields.map fun p => (p.1, core p.2) := by
  induction fields with
  | nil => rfl
  | cons p fields ih => rw [coreFields, ih, List.map_cons]

@[simp] theorem isText_walk (bind : σ → β → σ × β') (var : σ → ν → ν') (s : σ) (a : Term β ν) :
    (walk bind var s a).isText = a.isText := by
  cases a with
  | scalar value => cases value <;> rfl
  | _ => rfl

/-- A walk keeps what agreement ignores. -/
theorem core_walk (bind : σ → β → σ × β') (var : σ → ν → ν') (s : σ) (a : Term β ν) :
    core (walk bind var s a) = walk bind var s (core a) := by
  induction a generalizing s with
  | shape fields ih => simpa [walk, core] using fun name x hp => ih _ hp s
  | array elements ih => simpa [walk, core] using fun x hx => ih x hx s
  | scratch values capacity ih => simpa [walk, core] using fun x hx => ih x hx s
  | wrapped kind inner ih => rw [walk, core, core, walk, ih]
  | range low high domain ihl ihh => simp [walk, core, ihl, ihh, rangeDomain]
  | union members ih => simpa [walk, core] using fun x hx => ih x hx s
  | arrow deferred domain codomain effects effectTail ihd ihc ih =>
    simp only [walk, core, walkAll_eq, coreAll_eq, List.map_map, ihd, ihc]
    congr 1
    exact List.map_congr_left fun x hx => ih x hx s
  | forAll bound body ih | operation of name ih => rw [walk, core, core, walk, ih]
  | extended inner members ih => rw [walk, core, core, ih]
  | _ => simp [walk, core]

/-! ### Partners -/

section Partners

variable {α : Type} {R S : α → α → Prop} {xs ys : List α}

theorem subperm_of_partners (hspread : xs.Pairwise fun x y => ¬ S x y) (hS : ∀ x x' y, R x y → R x' y → S x x')
    {f : α → α} (hf : ∀ x ∈ xs, f x ∈ ys ∧ R x (f x)) : (xs.map f).Subperm ys := by
  refine List.subperm_of_subset (List.pairwise_map.2 ?_) ?_
  · refine hspread.imp_of_mem fun {x x'} hx hx' hne heq => hne ?_
    exact hS x x' (f x) (hf x hx).2 (heq ▸ (hf x' hx').2)
  · intro y hy
    obtain ⟨x, hx, rfl⟩ := List.mem_map.1 hy
    exact (hf x hx).1

theorem length_le_of_partners (hspread : xs.Pairwise fun x y => ¬ S x y) (hS : ∀ x x' y, R x y → R x' y → S x x')
    (h : ∀ x ∈ xs, ∃ y ∈ ys, R x y) : xs.length ≤ ys.length := by
  cases xs with
  | nil => exact Nat.zero_le _
  | cons x rest =>
    have : Nonempty α := ⟨x⟩
    choose! f hf using h
    simpa using (subperm_of_partners hspread hS hf).length_le

theorem partners_of_length (hspread : xs.Pairwise fun x y => ¬ S x y) (hS : ∀ x x' y, R x y → R x' y → S x x')
    (h : ∀ x ∈ xs, ∃ y ∈ ys, R x y) (hlen : xs.length = ys.length) : ∀ y ∈ ys, ∃ x ∈ xs, R x y := by
  intro y hy
  have : Nonempty α := ⟨y⟩
  choose! f hf using h
  have hperm := (subperm_of_partners hspread hS hf).perm_of_length_le (by simp [hlen])
  obtain ⟨x, hx, rfl⟩ := List.mem_map.1 (hperm.mem_iff.2 hy)
  exact ⟨x, hx, (hf x hx).2⟩

end Partners

/-! ### Agreement -/

/-- **Agreement of cores.**  Fields agree by name, elements by position; each member of a union and each effect of a row
has one on the other side that agrees with it. -/
inductive Alike (counted : Bool) : Term Unit ν → Term Unit ν → Prop where
  | scalar (value : Scalar) : Alike counted (.scalar value) (.scalar value)
  | function (identity : ℕ) : Alike counted (.function identity) (.function identity)
  | shape {fields fields' : List (String × Term Unit ν)} {f g : String × Term Unit ν → String × Term Unit ν}
      (mem : ∀ p ∈ fields, f p ∈ fields') (names : ∀ p ∈ fields, (f p).1 = p.1)
      (left : ∀ p ∈ fields, Alike counted p.2 (f p).2) (mem' : ∀ q ∈ fields', g q ∈ fields)
      (names' : ∀ q ∈ fields', (g q).1 = q.1) (right : ∀ q ∈ fields', Alike counted (g q).2 q.2) :
      Alike counted (.shape fields) (.shape fields')
  | array {xs ys : List (Term Unit ν)} (length : xs.length = ys.length)
      (elements : ∀ p ∈ xs.zip ys, Alike counted p.1 p.2) : Alike counted (.array xs) (.array ys)
  | scratch {xs ys : List (Term Unit ν)} (capacity : ℕ) (length : xs.length = ys.length)
      (elements : ∀ p ∈ xs.zip ys, Alike counted p.1 p.2) :
      Alike counted (.scratch xs capacity) (.scratch ys capacity)
  | wrapped {x y : Term Unit ν} (kind : Wrapper) (inner : Alike counted x y) :
      Alike counted (.wrapped kind x) (.wrapped kind y)
  | range {low low' high high' : Term Unit ν} (domain : Option Domain) (hlow : Alike counted low low')
      (hhigh : Alike counted high high') : Alike counted (.range low high domain) (.range low' high' domain)
  | union {xs ys : List (Term Unit ν)} {f g : Term Unit ν → Term Unit ν}
      (length : counted = true → xs.length = ys.length) (mem : ∀ x ∈ xs, f x ∈ ys)
      (left : ∀ x ∈ xs, Alike counted x (f x)) (mem' : ∀ y ∈ ys, g y ∈ xs) (right : ∀ y ∈ ys, Alike counted (g y) y) :
      Alike counted (.union xs) (.union ys)
  | arrow {domain domain' codomain codomain' : Term Unit ν} {xs ys : List (Term Unit ν)}
      {f g : Term Unit ν → Term Unit ν} (deferred : Bool) (effectTail : Option ν)
      (hdomain : Alike counted domain domain') (hcodomain : Alike counted codomain codomain')
      (length : counted = true → xs.length = ys.length) (mem : ∀ x ∈ xs, f x ∈ ys)
      (left : ∀ x ∈ xs, Alike counted x (f x)) (mem' : ∀ y ∈ ys, g y ∈ xs) (right : ∀ y ∈ ys, Alike counted (g y) y) :
      Alike counted (.arrow deferred domain codomain xs effectTail) (.arrow deferred domain' codomain' ys effectTail)
  | typeVariable (id : ν) : Alike counted (.typeVariable id) (.typeVariable id)
  | forAll {body body' : Term Unit ν} (hbody : Alike counted body body') :
      Alike counted (.forAll () body) (.forAll () body')
  | effect (id : ℕ) : Alike counted (.effect id "" [] false) (.effect id "" [] false)
  | operation {of of' : Term Unit ν} (name : String) (hof : Alike counted of of') :
      Alike counted (.operation of name) (.operation of' name)

def Fields (counted : Bool) (fields fields' : List (String × Term Unit ν)) : Prop :=
  (∀ p ∈ fields, ∃ q ∈ fields', q.1 = p.1 ∧ Alike counted p.2 q.2) ∧
    ∀ q ∈ fields', ∃ p ∈ fields, p.1 = q.1 ∧ Alike counted p.2 q.2

def Members (counted : Bool) (xs ys : List (Term Unit ν)) : Prop :=
  (counted = true → xs.length = ys.length) ∧ (∀ x ∈ xs, ∃ y ∈ ys, Alike counted x y) ∧
    ∀ y ∈ ys, ∃ x ∈ xs, Alike counted x y

variable {counted : Bool} {a b c : Term Unit ν} {xs ys zs : List (Term Unit ν)}

theorem alike_shape_iff {fields fields' : List (String × Term Unit ν)} :
    Alike counted (.shape fields) (.shape fields') ↔ Fields counted fields fields' := by
  constructor
  · rintro (_ | _ | ⟨mem, names, left, mem', names', right⟩)
    exact ⟨fun p hp => ⟨_, mem p hp, names p hp, left p hp⟩, fun q hq => ⟨_, mem' q hq, names' q hq, right q hq⟩⟩
  · rintro ⟨hleft, hright⟩
    choose! f hf using hleft
    choose! g hg using hright
    exact .shape (fun p hp => (hf p hp).1) (fun p hp => (hf p hp).2.1) (fun p hp => (hf p hp).2.2)
      (fun q hq => (hg q hq).1) (fun q hq => (hg q hq).2.1) fun q hq => (hg q hq).2.2

theorem alike_union_iff : Alike counted (.union xs) (.union ys) ↔ Members counted xs ys := by
  constructor
  · rintro (_ | _ | _ | _ | _ | _ | _ | ⟨length, mem, left, mem', right⟩)
    exact ⟨length, fun x hx => ⟨_, mem x hx, left x hx⟩, fun y hy => ⟨_, mem' y hy, right y hy⟩⟩
  · rintro ⟨length, hleft, hright⟩
    choose! f hf using hleft
    choose! g hg using hright
    exact .union length (fun x hx => (hf x hx).1) (fun x hx => (hf x hx).2) (fun y hy => (hg y hy).1)
      fun y hy => (hg y hy).2

theorem alike_arrow_iff {deferred deferred' : Bool} {domain domain' codomain codomain' : Term Unit ν}
    {effectTail effectTail' : Option ν} :
    Alike counted (.arrow deferred domain codomain xs effectTail) (.arrow deferred' domain' codomain' ys effectTail') ↔
      deferred = deferred' ∧ Alike counted domain domain' ∧ Alike counted codomain codomain' ∧
        Members counted xs ys ∧ effectTail = effectTail' := by
  constructor
  · rintro (_ | _ | _ | _ | _ | _ | _ | _ | ⟨-, -, hdomain, hcodomain, length, mem, left, mem', right⟩)
    exact ⟨rfl, hdomain, hcodomain, ⟨length, fun x hx => ⟨_, mem x hx, left x hx⟩,
      fun y hy => ⟨_, mem' y hy, right y hy⟩⟩, rfl⟩
  · rintro ⟨rfl, hdomain, hcodomain, ⟨length, hleft, hright⟩, rfl⟩
    choose! f hf using hleft
    choose! g hg using hright
    exact .arrow deferred effectTail hdomain hcodomain length (fun x hx => (hf x hx).1) (fun x hx => (hf x hx).2)
      (fun y hy => (hg y hy).1) fun y hy => (hg y hy).2

theorem forall_of_zip {α α' : Type} {Q : α → Prop} {R : α' → Prop} {ts : List α} {us : List α'}
    (hlength : ts.length = us.length)
    (h : ∀ p ∈ ts.zip us, Q p.1 → R p.2) (hQ : ∀ t ∈ ts, Q t) : ∀ u ∈ us, R u := by
  induction ts generalizing us with
  | nil =>
    cases us with
    | nil => nofun
    | cons u us => cases hlength
  | cons t ts ih =>
    cases us with
    | nil => cases hlength
    | cons u us =>
      rw [List.zip_cons_cons] at h
      obtain ⟨hp, hrest⟩ := List.forall_mem_cons.1 h
      obtain ⟨ht, hts⟩ := List.forall_mem_cons.1 hQ
      exact List.forall_mem_cons.2 ⟨hp ht, ih (Nat.succ.inj hlength) hrest hts⟩

theorem forall_mem_zip_self {R : Term β ν → Term β ν → Prop} {ts : List (Term β ν)} (h : ∀ t ∈ ts, R t t) :
    ∀ p ∈ ts.zip ts, R p.1 p.2 := by
  induction ts with
  | nil => nofun
  | cons t ts ih =>
    obtain ⟨ht, hts⟩ := List.forall_mem_cons.1 h
    rw [List.zip_cons_cons]
    exact List.forall_mem_cons.2 ⟨ht, ih hts⟩

/-- Agreement of lists by position. -/
theorem forall_mem_zip_swap {R : Term β ν → Term β ν → Prop} {ts us : List (Term β ν)}
    (h : ∀ p ∈ ts.zip us, R p.2 p.1) : ∀ p ∈ us.zip ts, R p.1 p.2 := by
  induction ts generalizing us with
  | nil => cases us <;> nofun
  | cons t ts ih =>
    cases us with
    | nil => nofun
    | cons u us =>
      rw [List.zip_cons_cons] at h ⊢
      obtain ⟨ht, hts⟩ := List.forall_mem_cons.1 h
      exact List.forall_mem_cons.2 ⟨ht, ih hts⟩

theorem forall_mem_zip_trans {S T : Term β ν → Term β ν → Prop} {ts us vs : List (Term β ν)}
    (hlen : ts.length = us.length) (hT : ∀ p ∈ ts.zip us, ∀ {z}, S p.2 z → T p.1 z)
    (hS : ∀ p ∈ us.zip vs, S p.1 p.2) : ∀ p ∈ ts.zip vs, T p.1 p.2 := by
  induction ts generalizing us vs with
  | nil => nofun
  | cons t ts ih =>
    cases us with
    | nil => cases hlen
    | cons u us =>
      cases vs with
      | nil => nofun
      | cons v vs =>
        rw [List.zip_cons_cons] at hT hS ⊢
        obtain ⟨ht, hts⟩ := List.forall_mem_cons.1 hT
        obtain ⟨hu, hus⟩ := List.forall_mem_cons.1 hS
        exact List.forall_mem_cons.2 ⟨ht hu, ih (Nat.succ.inj hlen) hts hus⟩

theorem alike_refl (counted : Bool) (a : Term Unit ν) : Alike counted (core a) (core a) := by
  induction a with
  | scalar value => exact .scalar value
  | function identity => exact .function identity
  | shape fields ih =>
    rw [core, coreFields_eq]
    have hself : ∀ p ∈ fields.map fun p => (p.1, core p.2), Alike counted p.2 p.2 := List.forall_mem_map.2 ih
    exact alike_shape_iff.2 ⟨fun p hp => ⟨p, hp, rfl, hself p hp⟩, fun p hp => ⟨p, hp, rfl, hself p hp⟩⟩
  | array elements ih =>
    rw [core, coreAll_eq]
    exact .array rfl (forall_mem_zip_self (List.forall_mem_map.2 ih))
  | scratch values capacity ih =>
    rw [core, coreAll_eq]
    exact .scratch capacity rfl (forall_mem_zip_self (List.forall_mem_map.2 ih))
  | wrapped kind inner ih => exact .wrapped kind ih
  | emptyArray element => exact .array rfl nofun
  | range low high domain ihl ihh => exact .range _ ihl ihh
  | union members ih =>
    rw [core, coreAll_eq]
    have hself : ∀ x ∈ members.map core, Alike counted x x := List.forall_mem_map.2 ih
    exact alike_union_iff.2 ⟨fun _ => rfl, fun x hx => ⟨x, hx, hself x hx⟩, fun x hx => ⟨x, hx, hself x hx⟩⟩
  | arrow deferred domain codomain effects effectTail ihd ihc ih =>
    rw [core, coreAll_eq]
    have hself : ∀ x ∈ effects.map core, Alike counted x x := List.forall_mem_map.2 ih
    exact alike_arrow_iff.2 ⟨rfl, ihd, ihc,
      ⟨fun _ => rfl, fun x hx => ⟨x, hx, hself x hx⟩, fun x hx => ⟨x, hx, hself x hx⟩⟩, rfl⟩
  | typeVariable id => exact .typeVariable id
  | forAll bound body ih => exact .forAll ih
  | effect id name operations host => exact .effect id
  | operation of name ih => exact .operation name ih
  | extended inner members ih => exact ih

theorem Alike.symm (h : Alike counted a b) : Alike counted b a := by
  induction h with
  | scalar value => exact .scalar value
  | function identity => exact .function identity
  | shape mem names _ mem' names' _ ih ih' => exact .shape mem' names' ih' mem names ih
  | array length _ ih => exact .array length.symm (forall_mem_zip_swap ih)
  | scratch capacity length _ ih => exact .scratch capacity length.symm (forall_mem_zip_swap ih)
  | wrapped kind _ ih => exact .wrapped kind ih
  | range domain _ _ ihl ihh => exact .range domain ihl ihh
  | union length mem _ mem' _ ih ih' => exact .union (fun hc => (length hc).symm) mem' ih' mem ih
  | arrow deferred effectTail _ _ length mem _ mem' _ ihd ihc ih ih' =>
    exact .arrow deferred effectTail ihd ihc (fun hc => (length hc).symm) mem' ih' mem ih
  | typeVariable id => exact .typeVariable id
  | forAll _ ih => exact .forAll ih
  | effect id => exact .effect id
  | operation name _ ih => exact .operation name ih

theorem Alike.trans (h : Alike counted a b) (h' : Alike counted b c) : Alike counted a c := by
  induction h generalizing c with
  | scalar value => exact h'
  | function identity => exact h'
  | shape mem names _ mem' names' _ ih ih' =>
    cases h' with
    | shape mem₂ names₂ left₂ mem₂' names₂' right₂ =>
      exact .shape (fun p hp => mem₂ _ (mem p hp)) (fun p hp => (names₂ _ (mem p hp)).trans (names p hp))
        (fun p hp => ih p hp (left₂ _ (mem p hp))) (fun q hq => mem' _ (mem₂' q hq))
        (fun q hq => (names' _ (mem₂' q hq)).trans (names₂' q hq)) fun q hq => ih' _ (mem₂' q hq) (right₂ q hq)
  | array length _ ih =>
    cases h' with
    | array length' elements' =>
      exact .array (length.trans length') (forall_mem_zip_trans length ih elements')
  | scratch capacity length _ ih =>
    cases h' with
    | scratch _ length' elements' =>
      exact .scratch capacity (length.trans length') (forall_mem_zip_trans length ih elements')
  | wrapped kind _ ih =>
    cases h' with
    | wrapped _ hinner => exact .wrapped kind (ih hinner)
  | range domain _ _ ihl ihh =>
    cases h' with
    | range _ hlow hhigh => exact .range domain (ihl hlow) (ihh hhigh)
  | union length mem _ mem' _ ih ih' =>
    cases h' with
    | union length' mem₂ left₂ mem₂' right₂ =>
      exact .union (fun hc => (length hc).trans (length' hc)) (fun x hx => mem₂ _ (mem x hx))
        (fun x hx => ih x hx (left₂ _ (mem x hx))) (fun z hz => mem' _ (mem₂' z hz))
        fun z hz => ih' _ (mem₂' z hz) (right₂ z hz)
  | arrow deferred effectTail _ _ length mem _ mem' _ ihd ihc ih ih' =>
    cases h' with
    | arrow _ _ hdomain hcodomain length' mem₂ left₂ mem₂' right₂ =>
      exact .arrow deferred effectTail (ihd hdomain) (ihc hcodomain) (fun hc => (length hc).trans (length' hc))
        (fun x hx => mem₂ _ (mem x hx)) (fun x hx => ih x hx (left₂ _ (mem x hx)))
        (fun z hz => mem' _ (mem₂' z hz)) fun z hz => ih' _ (mem₂' z hz) (right₂ z hz)
  | typeVariable id => exact h'
  | forAll _ ih =>
    cases h' with
    | forAll hbody => exact .forAll (ih hbody)
  | effect id => exact h'
  | operation name _ ih =>
    cases h' with
    | operation _ hof => exact .operation name (ih hof)

theorem Alike.loosen (h : Alike counted a b) : Alike false a b := by
  induction h with
  | scalar value => exact .scalar value
  | function identity => exact .function identity
  | shape mem names _ mem' names' _ ih ih' => exact .shape mem names ih mem' names' ih'
  | array length _ ih => exact .array length ih
  | scratch capacity length _ ih => exact .scratch capacity length ih
  | wrapped kind _ ih => exact .wrapped kind ih
  | range domain _ _ ihl ihh => exact .range domain ihl ihh
  | union _ mem _ mem' _ ih ih' => exact .union nofun mem ih mem' ih'
  | arrow deferred effectTail _ _ _ mem _ mem' _ ihd ihc ih ih' =>
    exact .arrow deferred effectTail ihd ihc nofun mem ih mem' ih'
  | typeVariable id => exact .typeVariable id
  | forAll _ ih => exact .forAll ih
  | effect id => exact .effect id
  | operation name _ ih => exact .operation name ih

theorem forall_mem_zip_map {R : Term β' ν' → Term β' ν' → Prop} {f : Term β ν → Term β' ν'} {ts us : List (Term β ν)}
    (h : ∀ p ∈ ts.zip us, R (f p.1) (f p.2)) : ∀ p ∈ (ts.map f).zip (us.map f), R p.1 p.2 := by
  rw [List.zip_map]
  exact List.forall_mem_map.2 h

theorem members_map {f : Term Unit ν → Term Unit ν'} {g g' : Term Unit ν → Term Unit ν}
    (length : counted = true → xs.length = ys.length) (mem : ∀ x ∈ xs, g x ∈ ys)
    (left : ∀ x ∈ xs, Alike counted (f x) (f (g x))) (mem' : ∀ y ∈ ys, g' y ∈ xs)
    (right : ∀ y ∈ ys, Alike counted (f (g' y)) (f y)) : Members counted (xs.map f) (ys.map f) := by
  refine ⟨fun hc => by rw [List.length_map, List.length_map, length hc], List.forall_mem_map.2 fun x hx => ?_,
    List.forall_mem_map.2 fun y hy => ?_⟩
  · exact ⟨_, List.mem_map_of_mem (mem x hx), left x hx⟩
  · exact ⟨_, List.mem_map_of_mem (mem' y hy), right y hy⟩

theorem Alike.walk (bind : σ → Unit → σ × Unit) (var : σ → ν → ν') (h : Alike counted a b) (s : σ) :
    Alike counted (Term.walk bind var s a) (Term.walk bind var s b) := by
  induction h generalizing s with
  | scalar value => exact .scalar value
  | function identity => exact .function identity
  | shape mem names _ mem' names' _ ih ih' =>
    rw [Term.walk, Term.walk, walkFields_eq, walkFields_eq]
    refine alike_shape_iff.2 ⟨List.forall_mem_map.2 fun p hp => ?_, List.forall_mem_map.2 fun q hq => ?_⟩
    · exact ⟨_, List.mem_map_of_mem (mem p hp), names p hp, ih p hp s⟩
    · exact ⟨_, List.mem_map_of_mem (mem' q hq), names' q hq, ih' q hq s⟩
  | array length _ ih =>
    rw [Term.walk, Term.walk, walkAll_eq, walkAll_eq]
    exact .array (by rw [List.length_map, List.length_map, length]) (forall_mem_zip_map fun p hp => ih p hp s)
  | scratch capacity length _ ih =>
    rw [Term.walk, Term.walk, walkAll_eq, walkAll_eq]
    exact .scratch capacity (by rw [List.length_map, List.length_map, length])
      (forall_mem_zip_map fun p hp => ih p hp s)
  | wrapped kind _ ih => exact .wrapped kind (ih s)
  | range domain _ _ ihl ihh => exact .range domain (ihl s) (ihh s)
  | union length mem _ mem' _ ih ih' =>
    rw [Term.walk, Term.walk, walkAll_eq, walkAll_eq]
    exact alike_union_iff.2 (members_map length mem (fun x hx => ih x hx s) mem' fun y hy => ih' y hy s)
  | arrow deferred effectTail _ _ length mem _ mem' _ ihd ihc ih ih' =>
    rw [Term.walk, Term.walk, walkAll_eq, walkAll_eq]
    exact alike_arrow_iff.2 ⟨rfl, ihd s, ihc s,
      members_map length mem (fun x hx => ih x hx s) mem' fun y hy => ih' y hy s, rfl⟩
  | typeVariable id => exact .typeVariable _
  | forAll _ ih => exact .forAll (ih _)
  | effect id => exact .effect id
  | operation name _ ih => exact .operation name (ih s)

/-! ### Members apart -/

mutual
/-- No union and no effect row has two members that agree. -/
def Spread : Term Unit ν → Prop
  | .scalar _ | .function _ | .typeVariable _ => True
  | .shape fields => SpreadFields fields
  | .array elements => SpreadAll elements
  | .scratch values _ => SpreadAll values
  | .wrapped _ inner => Spread inner
  | .emptyArray element => Spread element
  | .range low high _ => Spread low ∧ Spread high
  | .union members => members.Pairwise (fun x y => ¬ Alike false x y) ∧ SpreadAll members
  | .arrow _ domain codomain effects _ =>
    Spread domain ∧ Spread codomain ∧ effects.Pairwise (fun x y => ¬ Alike false x y) ∧ SpreadAll effects
  | .forAll _ body => Spread body
  | .effect _ _ operations _ => SpreadFields operations
  | .operation of _ => Spread of
  | .extended inner members => Spread inner ∧ SpreadFields members
termination_by structural t => t
def SpreadAll : List (Term Unit ν) → Prop
  | [] => True
  | t :: ts => Spread t ∧ SpreadAll ts
termination_by structural ts => ts
def SpreadFields : List (String × Term Unit ν) → Prop
  | [] => True
  | (_, t) :: fields => Spread t ∧ SpreadFields fields
termination_by structural fields => fields
end

@[simp] theorem spreadAll_iff {ts : List (Term Unit ν)} : SpreadAll ts ↔ ∀ t ∈ ts, Spread t := by
  induction ts with
  | nil => simp [SpreadAll]
  | cons t ts ih => rw [SpreadAll, ih, List.forall_mem_cons]

@[simp] theorem spreadFields_iff {fields : List (String × Term Unit ν)} :
    SpreadFields fields ↔ ∀ p ∈ fields, Spread p.2 := by
  induction fields with
  | nil => simp [SpreadFields]
  | cons p fields ih => rw [SpreadFields, ih, List.forall_mem_cons]

theorem alike_left_right {x x' y : Term Unit ν} (h : Alike false x y) (h' : Alike false x' y) : Alike false x x' :=
  h.trans h'.symm

/-- Agreeing members that are apart on both sides are as many. -/
theorem Members.count (h : Members false xs ys) (hxs : xs.Pairwise fun x y => ¬ Alike false x y)
    (hys : ys.Pairwise fun x y => ¬ Alike false x y) : xs.length = ys.length :=
  Nat.le_antisymm (length_le_of_partners (R := Alike false) hxs (fun _ _ _ => alike_left_right) h.2.1)
    (length_le_of_partners (R := fun y x => Alike false x y) hys (fun _ _ _ h h' => h.symm.trans h')
      fun y hy => h.2.2 y hy)

/-- **Counting**: agreement of values whose members are apart is counted. -/
theorem Alike.count (h : Alike false a b) (ha : Spread a) (hb : Spread b) : Alike true a b := by
  induction h with
  | scalar value => exact .scalar value
  | function identity => exact .function identity
  | shape mem names _ mem' names' _ ih ih' =>
    rw [Spread, spreadFields_iff] at ha hb
    exact .shape mem names (fun p hp => ih p hp (ha p hp) (hb _ (mem p hp))) mem' names'
      fun q hq => ih' q hq (ha _ (mem' q hq)) (hb q hq)
  | array length _ ih =>
    rw [Spread, spreadAll_iff] at ha hb
    exact .array length fun p hp => ih p hp (ha _ (List.of_mem_zip hp).1) (hb _ (List.of_mem_zip hp).2)
  | scratch capacity length _ ih =>
    rw [Spread, spreadAll_iff] at ha hb
    exact .scratch capacity length fun p hp => ih p hp (ha _ (List.of_mem_zip hp).1) (hb _ (List.of_mem_zip hp).2)
  | wrapped kind _ ih => exact .wrapped kind (ih ha hb)
  | range domain _ _ ihl ihh => exact .range domain (ihl ha.1 hb.1) (ihh ha.2 hb.2)
  | union length mem left mem' right ih ih' =>
    rw [Spread, spreadAll_iff] at ha hb
    have hmembers := alike_union_iff.1 (.union length mem left mem' right)
    exact .union (fun _ => hmembers.count ha.1 hb.1) mem (fun x hx => ih x hx (ha.2 x hx) (hb.2 _ (mem x hx))) mem'
      fun y hy => ih' y hy (ha.2 _ (mem' y hy)) (hb.2 y hy)
  | arrow deferred effectTail hdomain hcodomain length mem left mem' right ihd ihc ih ih' =>
    rw [Spread, spreadAll_iff] at ha hb
    have hmembers := (alike_arrow_iff.1 (.arrow deferred effectTail hdomain hcodomain length mem left mem'
      right)).2.2.2.1
    exact .arrow deferred effectTail (ihd ha.1 hb.1) (ihc ha.2.1 hb.2.1)
      (fun _ => hmembers.count ha.2.2.1 hb.2.2.1) mem (fun x hx => ih x hx (ha.2.2.2 x hx) (hb.2.2.2 _ (mem x hx)))
      mem' fun y hy => ih' y hy (ha.2.2.2 _ (mem' y hy)) (hb.2.2.2 y hy)
  | typeVariable id => exact .typeVariable id
  | forAll _ ih => exact .forAll (ih ha hb)
  | effect id => exact .effect id
  | operation name _ ih => exact .operation name (ih ha hb)

/-! ### Binders -/

theorem occurrences_core {a : Term β ν} {n : ν} (h : n ∈ (core a).occurrences) : n ∈ a.occurrences := by
  have hmap {ts : List (Term β ν)} (ih : ∀ t ∈ ts, n ∈ (core t).occurrences → n ∈ t.occurrences)
      (h : ∃ t ∈ ts.map core, n ∈ t.occurrences) : ∃ t ∈ ts, n ∈ t.occurrences := by
    obtain ⟨u, hu, hn⟩ := h
    obtain ⟨t, ht, rfl⟩ := List.mem_map.1 hu
    exact ⟨t, ht, ih t ht hn⟩
  induction a with
  | shape fields ih =>
    simp only [core, coreFields_eq, occurrences, mem_occurrencesFields, List.mem_map, exists_exists_and_eq_and] at h ⊢
    obtain ⟨p, hp, hn⟩ := h
    exact ⟨p, hp, ih p hp hn⟩
  | array elements ih | union members ih | scratch values capacity ih =>
    simp only [core, coreAll_eq, occurrences, mem_occurrencesAll] at h ⊢
    exact hmap ih h
  | wrapped kind inner ih => exact ih h
  | emptyArray element => simp [core, occurrences] at h
  | range low high domain ihl ihh =>
    simp only [core, occurrences, List.mem_append] at h ⊢
    exact h.imp ihl ihh
  | arrow deferred domain codomain effects effectTail ihd ihc ih =>
    simp only [core, coreAll_eq, occurrences, List.mem_append, mem_occurrencesAll] at h ⊢
    exact h.imp_left (Or.imp (Or.imp ihd ihc) (hmap ih))
  | forAll bound body ih => exact ih h
  | effect id name operations host => simp [core, occurrences, occurrencesFields] at h
  | operation of name ih => exact ih h
  | extended inner members ih =>
    simp only [occurrences, List.mem_append]
    exact .inl (ih h)
  | _ => exact h

theorem alike_of_openAt {f depth : ℕ} {F G : Form} (h : Alike counted (openAt f depth F) (openAt f depth G))
    (hF : .free f ∉ F.occurrences) (hG : .free f ∉ G.occurrences) : Alike counted F G := by
  have hclose := h.walk (fun k b => (k + 1, b)) (fun k n => if n = .free f then .bound k else n) depth
  change Alike counted (closeAt f depth (openAt f depth F)) (closeAt f depth (openAt f depth G)) at hclose
  rwa [closeAt_openAt hF, closeAt_openAt hG] at hclose

theorem Spread.openAt {f : ℕ} {F : Form} (h : Spread F) (hf : .free f ∉ F.occurrences) (depth : ℕ) :
    Spread (openAt f depth F) := by
  have hpairwise {ts : List Form} (hts : ts.Pairwise fun x y => ¬ Alike false x y)
      (hf : ∀ t ∈ ts, .free f ∉ t.occurrences) (depth : ℕ) :
      (ts.map (Term.openAt f depth)).Pairwise fun x y => ¬ Alike false x y := by
    refine List.pairwise_map.2 (hts.imp_of_mem fun {x y} hx hy hne halike => hne ?_)
    exact alike_of_openAt halike (hf x hx) (hf y hy)
  induction F using Term.induct generalizing depth with
  | shape fields ih | effect id name operations host ih =>
    simp only [occurrences, mem_occurrencesFields, not_exists, not_and] at hf
    rw [Spread, spreadFields_iff] at h
    rw [Term.openAt, Term.walk, walkFields_eq, Spread, spreadFields_iff]
    exact List.forall_mem_map.2 fun p hp => ih p hp (h p hp) (hf p hp) depth
  | array elements ih | scratch values capacity ih =>
    simp only [occurrences, mem_occurrencesAll, not_exists, not_and] at hf
    rw [Spread, spreadAll_iff] at h
    rw [Term.openAt, Term.walk, walkAll_eq, Spread, spreadAll_iff]
    exact List.forall_mem_map.2 fun x hx => ih x hx (h x hx) (hf x hx) depth
  | wrapped kind inner ih => exact ih h hf depth
  | emptyArray element ih => exact ih h hf depth
  | range low high domain ihl ihh =>
    simp only [occurrences, List.mem_append, not_or] at hf
    exact ⟨ihl h.1 hf.1 depth, ihh h.2 hf.2 depth⟩
  | union members ih =>
    simp only [occurrences, mem_occurrencesAll, not_exists, not_and] at hf
    rw [Spread, spreadAll_iff] at h
    rw [Term.openAt, Term.walk, walkAll_eq, Spread, spreadAll_iff]
    exact ⟨hpairwise h.1 hf depth, List.forall_mem_map.2 fun x hx => ih x hx (h.2 x hx) (hf x hx) depth⟩
  | arrow deferred domain codomain effects effectTail ihd ihc ih =>
    simp only [occurrences, List.mem_append, mem_occurrencesAll, not_or, not_exists, not_and] at hf
    rw [Spread, spreadAll_iff] at h
    rw [Term.openAt, Term.walk, walkAll_eq, Spread, spreadAll_iff]
    exact ⟨ihd h.1 hf.1.1.1 depth, ihc h.2.1 hf.1.1.2 depth, hpairwise h.2.2.1 hf.1.2 depth,
      List.forall_mem_map.2 fun x hx => ih x hx (h.2.2.2 x hx) (hf.1.2 x hx) depth⟩
  | forAll bound body ih => exact ih h hf (depth + 1)
  | operation of name ih => exact ih h hf depth
  | extended inner members ih ihm =>
    simp only [occurrences, List.mem_append, mem_occurrencesFields, not_or, not_exists, not_and] at hf
    rw [Spread, spreadFields_iff] at h
    rw [Term.openAt, Term.walk, walkFields_eq, Spread, spreadFields_iff]
    exact ⟨ih h.1 hf.1 depth, List.forall_mem_map.2 fun p hp => ihm p hp (h.2 p hp) (hf.2 p hp) depth⟩
  | _ => trivial

end Term

end Blot.TypeValues
