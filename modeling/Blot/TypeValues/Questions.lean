import Blot.Support.Conditions
import Blot.TypeValues.Equal

/-!
# What the comparison of type values asks

`equal` answers the question whether two values agree by tests and by questions about smaller values.

* `rules` — the tests and the questions, in the order of the code;
* `equal_answers` — `equal` answers as its rules ask, whatever the depth (`equalWithin_congr`);
* `FairThroughout` — each pair that the comparison comes to is decided rightly where the pairs it asks about are;
* `fairThroughout_of_settled` — so it is between settled values.
-/

namespace Blot.TypeValues

namespace Term

open Support Support.Condition

/-! ### Substitution of a fresh variable -/

section Opening

variable {same same' : Value → Value → Bool} {target : ℕ} {replacement : Value}

/-- The equality of effects matters at the tails that are replaced only. -/
theorem substituteWith_congr (h : ∀ effects, replaceTail same effects replacement = replaceTail same' effects replacement)
    (a : Value) : substituteWith same target replacement a = substituteWith same' target replacement a := by
  have hall {ts : List Value}
      (ih : ∀ t ∈ ts, substituteWith same target replacement t = substituteWith same' target replacement t) :
      substituteAll same target replacement ts = substituteAll same' target replacement ts := by
    induction ts with
    | nil => rfl
    | cons t ts ihl =>
      obtain ⟨ht, hts⟩ := List.forall_mem_cons.1 ih
      rw [substituteAll, substituteAll, ht, ihl hts]
  have hfields {fields : List (String × Value)}
      (ih : ∀ p ∈ fields, substituteWith same target replacement p.2 = substituteWith same' target replacement p.2) :
      substituteFields same target replacement fields = substituteFields same' target replacement fields := by
    induction fields with
    | nil => rfl
    | cons p fields ihl =>
      obtain ⟨hp, hfields⟩ := List.forall_mem_cons.1 ih
      rw [substituteFields, substituteFields, hp, ihl hfields]
  induction a using induct with
  | shape fields ih | effect id name fields host ih => rw [substituteWith, substituteWith, hfields ih]
  | array elements ih | union elements ih => rw [substituteWith, substituteWith, hall ih]
  | wrapped kind inner ih | emptyArray inner ih | operation inner name ih | forAll bound inner ih =>
    rw [substituteWith, substituteWith, ih]
  | range low high domain ihl ihh => rw [substituteWith, substituteWith, ihl, ihh]
  | arrow deferred domain codomain effects effectTail ihd ihc ih =>
    rw [substituteWith, substituteWith, ihd, ihc, hall ih]
    unfold substituteArrow
    simp only [h]
  | extended inner members ih ihm => rw [substituteWith, substituteWith, ih, hfields ihm]
  | _ => rfl

/-- The body of a quantifier with a variable for its binder. -/
def opened (bound fresh : ℕ) (body : Value) : Option Value :=
  substituteWith (fun _ _ => false) bound (.typeVariable fresh) body

theorem substituteWith_eq_opened (same : Value → Value → Bool) (bound fresh : ℕ) (body : Value) :
    substituteWith same bound (.typeVariable fresh) body = opened bound fresh body :=
  @substituteWith_congr same (fun _ _ => false) bound (.typeVariable fresh) (fun _ => rfl) body

theorem sizeAll_eq_of_zip {ts us : List Value} (length : ts.length = us.length)
    (h : ∀ p ∈ ts.zip us, p.2.size = p.1.size) : sizeAll us = sizeAll ts := by
  induction ts generalizing us with
  | nil =>
    obtain rfl := List.eq_nil_of_length_eq_zero length.symm
    rfl
  | cons t ts ih =>
    cases us with
    | nil => cases length
    | cons u us =>
      rw [List.zip_cons_cons] at h
      obtain ⟨hp, hrest⟩ := List.forall_mem_cons.1 h
      rw [sizeAll, sizeAll, ih (Nat.succ.inj length) hrest]
      exact congrArg (· + sizeAll ts) hp

theorem sizeFields_eq_of_zip {fields fields' : List (String × Value)} (names : fields'.map Prod.fst = fields.map Prod.fst)
    (h : ∀ p ∈ fields.zip fields', p.2.2.size = p.1.2.size) : sizeFields fields' = sizeFields fields := by
  induction fields generalizing fields' with
  | nil =>
    obtain rfl := List.map_eq_nil_iff.1 names
    rfl
  | cons p fields ih =>
    cases fields' with
    | nil => cases names
    | cons q fields' =>
      rw [List.zip_cons_cons] at h
      obtain ⟨hp, hrest⟩ := List.forall_mem_cons.1 h
      rw [sizeFields, sizeFields, ih (List.cons.inj names).2 hrest]
      exact congrArg (· + sizeFields fields) hp

/-- A variable is substituted without a change of size. -/
theorem Substitutes.size_eq {fresh : ℕ} {a s : Value} (h : Substitutes target (.typeVariable fresh) same a s) :
    s.size = a.size := by
  induction h with
  | unchanged | replaced => rfl
  | shape names _ ih => rw [size, size, sizeFields_eq_of_zip names ih]
  | array length _ ih | union length _ ih => rw [size, size, sizeAll_eq_of_zip length ih]
  | wrapped _ _ ih | emptyArray _ ih | forAll _ _ ih | operation _ _ ih => rw [size, size, ih]
  | range _ _ _ ihl ihh => rw [size, size, ihl, ihh]
  | arrow _ _ _ _ length _ ihd ihc ih => rw [size, size, ihd, ihc, sizeAll_eq_of_zip length ih]
  | tail _ hrow _ _ length _ ihd ihc ih =>
    obtain rfl := Option.some.inj hrow
    rw [size, size, ihd, ihc, sizeAll_eq_of_zip length ih]
  | effect _ _ _ names _ ih => rw [size, size, sizeFields_eq_of_zip names ih]
  | extended _ names _ ih ihm => rw [size, size, ih, sizeFields_eq_of_zip names ihm]

theorem size_opened {bound fresh : ℕ} {body s : Value} (h : opened bound fresh body = some s) : s.size = body.size :=
  (substitutes_of_substituteWith h).size_eq

end Opening

/-! ### The questions -/

variable (hash : Hash)

/-- `contains_equal` -/
def memberRule (members : List Value) (value : Value) : Condition (Value × Value) :=
  match fingerprint hash id value with
  | some number => any (members.map fun member =>
      both (test (fingerprint hash id member == some number)) (ask (member, value)))
  | none => any (members.map fun member => ask (member, value))

def fieldRule (fields : List (String × Value)) (p : String × Value) : Condition (Value × Value) :=
  match fields.lookup p.1 with
  | some value => ask (p.2, value)
  | none => test false

/-- What `equal` tests and asks about two values, in turn. -/
def rules (p : Value × Value) : Condition (Value × Value) :=
  match p.1, p.2 with
  | .extended inner _, right => ask (inner, right)
  | left, .extended inner _ => ask (left, inner)
  | .scalar left, .scalar right => test (left = right)
  | .shape left, .shape right =>
    both (test (left.length = right.length)) (all (left.map (fieldRule right)))
  | .array left, .array right => both (test (left.length = right.length)) (all ((left.zip right).map ask))
  | .union left, .union right =>
    both (test (left.length = right.length)) (all (left.map (memberRule hash right)))
  | .wrapped kind left, .wrapped kind' right => both (test (kind = kind')) (ask (left, right))
  | .scratch left capacity, .scratch right capacity' =>
    both (test (capacity = capacity' && left.length = right.length)) (all ((left.zip right).map ask))
  | .emptyArray _, .emptyArray _ => test true
  | .emptyArray _, .array right | .array right, .emptyArray _ => test right.isEmpty
  | .range low high domain, .range low' high' domain' =>
    both (test (rangeDomain low high domain = rangeDomain low' high' domain'))
      (both (ask (low, low')) (ask (high, high')))
  | .arrow deferred domain codomain effects effectTail, .arrow deferred' domain' codomain' effects' effectTail' =>
    both (test (deferred = deferred')) (both (ask (domain, domain')) (both (ask (codomain, codomain'))
      (both (test (effectTail = effectTail' && effects.length = effects'.length))
        (all (effects.map fun effect => any (effects'.map fun effect' => ask (effect, effect')))))))
  | .typeVariable id, .typeVariable id' => test (id = id')
  | .forAll bound body, .forAll bound' body' =>
    match opened bound (freshTypeVariable body body') body, opened bound' (freshTypeVariable body body') body' with
    | some body, some body' => ask (body, body')
    | _, _ => test false
  | .effect id _ _ _, .effect id' _ _ _ => test (id = id')
  | .operation of name, .operation of' name' => test (name = name' && effectId of = effectId of')
  | _, _ => test false

variable {hash} {answer : Value × Value → Prop} {p q : Value × Value}

theorem holds_memberRule {same : Value → Value → Bool} {members : List Value} {value : Value} :
    (memberRule hash members value).Holds (fun q => same q.1 q.2 = true) ↔
      containsEqual hash same members value = true := by
  unfold memberRule containsEqual
  cases fingerprint hash id value <;> simp

theorem holds_fieldRule {same : Value → Value → Bool} {fields : List (String × Value)} {p : String × Value} :
    (fieldRule fields p).Holds (fun q => same q.1 q.2 = true) ↔ (fields.lookup p.1).any (same p.2) = true := by
  unfold fieldRule
  cases fields.lookup p.1 <;> simp

/-- **`equal` tests and asks as its rules say.** -/
theorem equalWithin_succ {n : ℕ} {a b : Value} : equalWithin hash (n + 1) a b = true ↔
    (rules hash (a, b)).Holds fun q => equalWithin hash n q.1 q.2 = true := by
  obtain ⟨same, hsame⟩ : ∃ same, equalWithin hash n = same := ⟨_, rfl⟩
  rw [hsame]
  unfold equalWithin rules
  simp only [hsame]
  split
  case h_4 | h_5 | h_8 =>
    simp only [holds_both, holds_test, holds_all, List.forall_mem_map, holds_fieldRule, holds_ask, Bool.and_eq_true,
      List.all_eq_true, decide_eq_true_eq]
  case h_15 bound body bound' body' =>
    simp only [substituteWith_eq_opened]
    cases opened bound (freshTypeVariable body body') body with
    | none => simp
    | some s => cases opened bound' (freshTypeVariable body body') body' <;> simp
  all_goals simp [holds_memberRule, and_assoc]

/-! ### Depth -/

theorem exists_of_asks_pairs {ts us : List Value} (h : (all ((ts.zip us).map ask)).Asks answer q) : q ∈ ts.zip us := by
  obtain ⟨c, hc, h⟩ := h.of_all
  obtain ⟨p, hp, rfl⟩ := List.mem_map.1 hc
  obtain rfl : q = p := h
  exact hp

theorem exists_of_asks_members {ts us : List Value} (h : (all (ts.map (memberRule hash us))).Asks answer q) :
    q.1 ∈ us ∧ q.2 ∈ ts := by
  obtain ⟨c, hc, h⟩ := h.of_all
  obtain ⟨t, ht, rfl⟩ := List.mem_map.1 hc
  unfold memberRule at h
  split at h
  · obtain ⟨c, hc, h⟩ := h.of_any
    obtain ⟨u, hu, rfl⟩ := List.mem_map.1 hc
    rcases h with h | ⟨-, h⟩
    · exact h.elim
    · obtain rfl : q = (u, t) := h
      exact ⟨hu, ht⟩
  · obtain ⟨c, hc, h⟩ := h.of_any
    obtain ⟨u, hu, rfl⟩ := List.mem_map.1 hc
    obtain rfl : q = (u, t) := h
    exact ⟨hu, ht⟩

theorem exists_of_asks_fields {fields fields' : List (String × Value)}
    (h : (all (fields.map (fieldRule fields'))).Asks answer q) :
    ∃ p ∈ fields, ∃ p' ∈ fields', p.1 = p'.1 ∧ q = (p.2, p'.2) := by
  obtain ⟨c, hc, h⟩ := h.of_all
  obtain ⟨p, hp, rfl⟩ := List.mem_map.1 hc
  unfold fieldRule at h
  cases hlookup : fields'.lookup p.1 with
  | none =>
    rw [hlookup] at h
    exact h.elim
  | some value =>
    rw [hlookup] at h
    exact ⟨p, hp, (p.1, value), Support.Table.mem_of_lookup hlookup, rfl, h⟩

theorem exists_of_asks_effects {ts us : List Value}
    (h : (all (ts.map fun t => any (us.map fun u => ask (t, u)))).Asks answer q) : q.1 ∈ ts ∧ q.2 ∈ us := by
  obtain ⟨c, hc, h⟩ := h.of_all
  obtain ⟨t, ht, rfl⟩ := List.mem_map.1 hc
  obtain ⟨c, hc, h⟩ := h.of_any
  obtain ⟨u, hu, rfl⟩ := List.mem_map.1 hc
  obtain rfl : q = (t, u) := h
  exact ⟨ht, hu⟩

/-- What a question asks about: parts of the two values, or their bodies opened at a fresh variable. -/
inductive Beneath : Value × Value → Value × Value → Prop where
  | left {inner b : Value} {members : List (String × Value)} : Beneath (.extended inner members, b) (inner, b)
  | right {a inner : Value} {members : List (String × Value)} : Beneath (a, .extended inner members) (a, inner)
  | parts {a b x y : Value} (hx : x ∈ compared a) (hy : y ∈ compared b) (ha : ∀ bound body, a ≠ .forAll bound body)
    (hb : ∀ bound body, b ≠ .forAll bound body) : Beneath (a, b) (x, y)
  | swapped {ts us : List Value} {x y : Value} (hx : x ∈ us) (hy : y ∈ ts) : Beneath (.union ts, .union us) (x, y)
  | bodies {bound bound' : ℕ} {body body' s s' : Value}
    (hs : opened bound (freshTypeVariable body body') body = some s)
    (hs' : opened bound' (freshTypeVariable body body') body' = some s') :
    Beneath (.forAll bound body, .forAll bound' body') (s, s')

theorem beneath_of_asks {a b : Value} (h : (rules hash (a, b)).Asks answer q) : Beneath (a, b) q := by
  obtain ⟨x, y⟩ := q
  unfold rules at h
  dsimp only at h
  split at h
  case h_1 =>
    cases h
    exact .left
  case h_2 =>
    cases h
    exact .right
  case h_4 =>
    rcases h with h | ⟨-, h⟩
    · exact h.elim
    · obtain ⟨p, hp, p', hp', -, heq⟩ := exists_of_asks_fields h
      cases heq
      exact .parts (List.mem_map_of_mem hp) (List.mem_map_of_mem hp') (fun _ _ h => by cases h) fun _ _ h => by cases h
  case h_5 | h_8 =>
    rcases h with h | ⟨-, h⟩
    · exact h.elim
    · obtain ⟨hx, hy⟩ := List.of_mem_zip (exists_of_asks_pairs h)
      exact .parts hx hy (fun _ _ h => by cases h) fun _ _ h => by cases h
  case h_6 =>
    rcases h with h | ⟨-, h⟩
    · exact h.elim
    · obtain ⟨hx, hy⟩ := exists_of_asks_members h
      exact .swapped hx hy
  case h_7 =>
    rcases h with h | ⟨-, h⟩
    · exact h.elim
    · cases h
      exact .parts List.mem_cons_self List.mem_cons_self (fun _ _ h => by cases h) fun _ _ h => by cases h
  case h_12 =>
    rcases h with h | ⟨-, h | ⟨-, h⟩⟩
    · exact h.elim
    · cases h
      exact .parts List.mem_cons_self List.mem_cons_self (fun _ _ h => by cases h) fun _ _ h => by cases h
    · cases h
      exact .parts (List.mem_cons_of_mem _ List.mem_cons_self) (List.mem_cons_of_mem _ List.mem_cons_self)
        (fun _ _ h => by cases h) fun _ _ h => by cases h
  case h_13 =>
    rcases h with h | ⟨-, h | ⟨-, h | ⟨-, h | ⟨-, h⟩⟩⟩⟩
    · exact h.elim
    · cases h
      exact .parts (by simp [compared]) (by simp [compared]) (fun _ _ h => by cases h) fun _ _ h => by cases h
    · cases h
      exact .parts (by simp [compared]) (by simp [compared]) (fun _ _ h => by cases h) fun _ _ h => by cases h
    · exact h.elim
    · obtain ⟨hx, hy⟩ := exists_of_asks_effects h
      exact .parts (by simp_all [compared]) (by simp_all [compared]) (fun _ _ h => by cases h) fun _ _ h => by cases h
  case h_15 bound body bound' body' =>
    cases hs : opened bound (freshTypeVariable body body') body with
    | none =>
      rw [hs] at h
      exact h.elim
    | some s =>
      cases hs' : opened bound' (freshTypeVariable body body') body' with
      | none =>
        rw [hs, hs'] at h
        exact h.elim
      | some s' =>
        rw [hs, hs'] at h
        cases h
        exact .bodies hs hs'
  all_goals exact h.elim

theorem size_compared_lt {a b : Value} (h : b ∈ compared a) : b.size < a.size := by
  cases a with
  | shape fields =>
    obtain ⟨p, hp, rfl⟩ := List.mem_map.1 h
    exact Nat.lt_succ_of_le (size_le_sizeFields hp)
  | array elements | scratch elements _ | union elements => exact Nat.lt_succ_of_le (size_le_sizeAll h)
  | wrapped _ inner | forAll _ inner => exact Nat.lt_succ_of_le (List.mem_singleton.1 h ▸ Nat.le_refl _)
  | extended inner members =>
    obtain rfl := List.mem_singleton.1 h
    rw [size]
    omega
  | range low high domain =>
    rw [size]
    simp only [compared, List.mem_cons, List.not_mem_nil, or_false] at h
    rcases h with rfl | rfl <;> omega
  | arrow deferred domain codomain effects effectTail =>
    rw [size]
    simp only [compared, List.mem_cons] at h
    rcases h with rfl | rfl | h
    · omega
    · omega
    · have hle := size_le_sizeAll h
      omega
  | _ => cases h

/-- The questions get smaller. -/
theorem size_asks_lt (h : (rules hash p).Asks answer q) : q.1.size + q.2.size < p.1.size + p.2.size := by
  obtain ⟨a, b⟩ := p
  cases beneath_of_asks h with
  | left => exact Nat.add_lt_add_right (size_compared_lt List.mem_cons_self) _
  | right => exact Nat.add_lt_add_left (size_compared_lt List.mem_cons_self) _
  | parts hx hy => exact Nat.add_lt_add (size_compared_lt hx) (size_compared_lt hy)
  | @swapped ts us x y hx hy =>
    have hlt : x.size < (Term.union us).size := size_compared_lt hx
    have hlt' : y.size < (Term.union ts).size := size_compared_lt hy
    dsimp only
    omega
  | bodies hs hs' =>
    dsimp only
    rw [size_opened hs, size_opened hs', size, size]
    omega

/-- More depth than the two values are large makes no difference. -/
theorem equalWithin_congr {n m : ℕ} {a b : Value} (hn : a.size + b.size ≤ n) (hm : a.size + b.size ≤ m) :
    equalWithin hash n a b = true ↔ equalWithin hash m a b = true := by
  induction n generalizing m a b with
  | zero =>
    have hpos := a.size_pos
    omega
  | succ n ih =>
    cases m with
    | zero =>
      have hpos := a.size_pos
      omega
    | succ m =>
      rw [equalWithin_succ, equalWithin_succ]
      refine holds_congr fun q hq => ?_
      have hlt := size_asks_lt hq
      dsimp only at hlt
      exact ih (by omega) (by omega)

/-- **`equal` answers as its rules ask.** -/
theorem equal_answers (p : Value × Value) :
    equal hash p.1 p.2 = true ↔ (rules hash p).Holds fun q => equal hash q.1 q.2 = true := by
  obtain ⟨a, b⟩ := p
  have hpos := a.size_pos
  obtain ⟨n, hn⟩ : ∃ n, a.size + b.size = n + 1 := ⟨a.size + b.size - 1, by omega⟩
  unfold equal
  rw [hn, equalWithin_succ]
  refine holds_congr fun q hq => ?_
  have hlt := size_asks_lt hq
  dsimp only at hlt
  exact equalWithin_congr (by omega) (Nat.le_refl _)

/-! ### Fair comparisons -/

variable (hash)

/-- Every pair that the comparison comes to is decided rightly where the pairs it asks about are. -/
def FairThroughout (a b : Value) : Prop :=
  ∀ q, Comes (rules hash) (fun q => Agree q.1 q.2) (a, b) q → Fair (rules hash) (fun q => Agree q.1 q.2) q

/-- `equal` is right about every pair that the comparison comes to. -/
def RightThroughout (a b : Value) : Prop :=
  ∀ q, Comes (rules hash) (fun q => Agree q.1 q.2) (a, b) q → (equal hash q.1 q.2 = true ↔ Agree q.1 q.2)

variable {hash} {a b : Value}

theorem rightThroughout_iff : RightThroughout hash a b ↔ FairThroughout hash a b :=
  right_iff_fair (m := fun q => q.1.size + q.2.size) equal_answers (fun _ _ => size_asks_lt) (a, b)

theorem FairThroughout.equal_iff (h : FairThroughout hash a b) : equal hash a b = true ↔ Agree a b :=
  rightThroughout_iff.2 h (a, b) .refl

/-! ### Settled values -/

theorem Settled.compared (h : Settled a) (hforall : ∀ bound body, a ≠ .forAll bound body) :
    ∀ x ∈ Term.compared a, Settled x := by
  refine fun x hx => ⟨h.sound.compared x hx, ?_⟩
  have hspread := h.spread
  cases a with
  | forAll bound body => exact absurd rfl (hforall bound body)
  | shape fields =>
    obtain ⟨p, hp, rfl⟩ := List.mem_map.1 hx
    rw [core_form_shape, Spread, spreadFields_iff, List.forall_mem_map] at hspread
    exact hspread p hp
  | array elements =>
    rw [core_form_array, Spread, spreadAll_iff, List.forall_mem_map] at hspread
    exact hspread x hx
  | scratch values capacity =>
    rw [core_form_scratch, Spread, spreadAll_iff, List.forall_mem_map] at hspread
    exact hspread x hx
  | union members =>
    rw [core_form_union, Spread, spreadAll_iff, List.forall_mem_map] at hspread
    exact hspread.2 x hx
  | wrapped kind inner | extended inner members => exact List.mem_singleton.1 hx ▸ hspread
  | range low high domain =>
    rw [form_range, core, Spread] at hspread
    simp only [Term.compared, List.mem_cons, List.not_mem_nil, or_false] at hx
    rcases hx with rfl | rfl
    · exact hspread.1
    · exact hspread.2
  | arrow deferred domain codomain effects effectTail =>
    rw [core_form_arrow, Spread, spreadAll_iff, List.forall_mem_map] at hspread
    simp only [Term.compared, List.mem_cons] at hx
    rcases hx with rfl | rfl | hx
    · exact hspread.1
    · exact hspread.2.1
    · exact hspread.2.2.2 x hx
  | _ => cases hx

theorem Settled.opened {bound fresh : ℕ} {body s : Value} (h : Settled (.forAll bound body))
    (hfresh : fresh ∉ collectTypeVariables body) (hs : Term.opened bound fresh body = some s) : Settled s := by
  have hbody := h.sound.compared body List.mem_cons_self
  obtain ⟨s', hs', hform, hsound, -⟩ := substitute_fresh (fun _ _ => false) bound hbody hfresh
  obtain rfl := Option.some.inj (hs.symm.trans hs')
  have hspread : Spread (core (form [bound] body)) := h.spread
  refine ⟨hsound, ?_⟩
  rw [hform, core_openAt]
  exact hspread.openAt (not_mem_core_form bound hbody hfresh) 0

theorem settled_asks (hp : Settled p.1 ∧ Settled p.2) (h : (rules hash p).Asks answer q) :
    Settled q.1 ∧ Settled q.2 := by
  obtain ⟨a, b⟩ := p
  obtain ⟨ha, hb⟩ := hp
  cases beneath_of_asks h with
  | left => exact ⟨ha.compared nofun _ List.mem_cons_self, hb⟩
  | right => exact ⟨ha, hb.compared nofun _ List.mem_cons_self⟩
  | parts hx hy hna hnb => exact ⟨ha.compared hna _ hx, hb.compared hnb _ hy⟩
  | swapped hx hy => exact ⟨hb.compared nofun _ hx, ha.compared nofun _ hy⟩
  | @bodies bound bound' body body' s s' hs hs' =>
    obtain ⟨hfresh, hfresh'⟩ := freshTypeVariable_spec body body'
    exact ⟨ha.opened hfresh hs, hb.opened hfresh' hs'⟩

/-- **Between settled values the comparison is fair.** -/
theorem fairThroughout_of_settled (ha : Settled a) (hb : Settled b) : FairThroughout hash a b := by
  refine rightThroughout_iff.1 fun q hq => ?_
  have hsettled : Settled q.1 ∧ Settled q.2 := by
    induction hq with
    | refl => exact ⟨ha, hb⟩
    | tail _ hasks ih => exact settled_asks ih hasks
  exact Term.equal_iff hsettled.1 hsettled.2

end Term

end Blot.TypeValues
