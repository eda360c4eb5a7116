import Blot.Typecheck.Ty

/-!
# Equality of source types (`typecheck.rs`, `same_type`)

`sameTypeScoped` compares two types and remembers what it has compared, by the addresses of the two types and the scope
it compared them in.  Every pair of binders that it enters is a new scope.  An address is modelled by the type it is
the address of.  `samePlain` is the comparison without its memory, and `sameType_eq` says that the memory makes no
difference: a scope is entered under one list of binder pairs only, and an answer is right for its scope.
-/

namespace Blot.Typecheck

/-- What `same_type_scoped` remembers, and the number of the next scope. -/
structure SameMemo where
  answers : List ((Ty × Ty × ℕ) × Bool)
  nextScope : ℕ

abbrev Asks := SameMemo → Bool × SameMemo

namespace Asks

def answer (b : Bool) : Asks := fun memo => (b, memo)

def both (m n : Asks) : Asks := fun memo =>
  match m memo with
  | (true, memo) => n memo
  | (false, memo) => (false, memo)

def any (m : Ty → Asks) : List Ty → Asks
  | [] => answer false
  | t :: ts => fun memo =>
    match m t memo with
    | (true, memo) => (true, memo)
    | (false, memo) => any m ts memo

def remember (key : Ty × Ty × ℕ) (m : Asks) : Asks := fun memo =>
  match m memo with
  | (same, memo) => (same, { memo with answers := (key, same) :: memo.answers })

def inScope (m : ℕ → Asks) : Asks := fun memo => m memo.nextScope { memo with nextScope := memo.nextScope + 1 }

def ask (key : Ty × Ty × ℕ) (m : Asks) : Asks := fun memo =>
  match memo.answers.lookup key with
  | some same => (same, memo)
  | none => m memo

end Asks

open Asks

mutual
/-- `same_type_scoped`; `rigids` are the binder pairs around the two types, innermost first. -/
def sameTypeScoped (rigids : List (ℕ × ℕ)) (scope : ℕ) (left right : Ty) : Asks :=
  ask (left, right, scope) <|
    match left, right with
    | .qualified rs a, .qualified qs b => remember (left, right, scope) <|
      if rs.length = qs.length then
        both (sameTypeScoped rigids scope a b) (sameRequirementsScoped rigids scope rs qs)
      else answer false
    | .var a, .var b => remember (left, right, scope) (answer (decide (a = b)))
    | .rigid a, .rigid b =>
      match Ty.boundLeft rigids b with
      | some bound => answer (decide (bound = a))
      | none =>
        if rigids.any (fun p => p.1 = a ∨ p.2 = b) then answer false
        else remember (left, right, scope) (answer (decide (a = b)))
    | .forallType vs a, .forallType ws b =>
      if vs.length = ws.length then
        remember (left, right, scope) (inScope fun child => sameTypeScoped ((vs.zip ws).reverse ++ rigids) child a b)
      else answer false
    | .unit, .unit => remember (left, right, scope) (answer true)
    | .top, .top => remember (left, right, scope) (answer true)
    | .bottom, .bottom => remember (left, right, scope) (answer true)
    | .opaqueType a, .opaqueType b => remember (left, right, scope) (answer (decide (a = b)))
    | .range d l h, .range d' l' h' =>
      remember (left, right, scope) (answer (decide (d = d') && decide (l = l') && decide (h = h')))
    | .effects a, .effects b => remember (left, right, scope) (answer (decide (a = b)))
    | .openEffects l a, .openEffects m b =>
      remember (left, right, scope) (both (answer (decide (l = m))) (sameTypeScoped rigids scope a b))
    | .function d p e r, .function d' p' e' r' => remember (left, right, scope) <|
      both (answer (decide (d = d'))) <| both (sameTypeScoped rigids scope p p') <|
        both (sameTypeScoped rigids scope e e') (sameTypeScoped rigids scope r r')
    | .record fs, .record gs => remember (left, right, scope) <|
      if fs.length = gs.length then sameFieldsScoped rigids scope fs gs else answer false
    | .array a, .array b => remember (left, right, scope) (sameTypeScoped rigids scope a b)
    | .region a, .region b => remember (left, right, scope) (sameTypeScoped rigids scope a b)
    | .scratch a, .scratch b => remember (left, right, scope) (sameTypeScoped rigids scope a b)
    | .resource f a, .resource g b =>
      remember (left, right, scope) (both (answer (decide (f = g))) (sameTypeScoped rigids scope a b))
    | .variant fs o, .variant gs o' => remember (left, right, scope) <|
      both (answer (decide (o = o'))) <|
        if fs.length = gs.length then sameFieldsScoped rigids scope fs gs else answer false
    | .union ms, .union ns => remember (left, right, scope) <|
      if ms.length = ns.length then sameMembersScoped rigids scope ms ns else answer false
    | _, _ => remember (left, right, scope) (answer false)
termination_by structural left
/-- `same_fields`, its length test apart: the right row is a map by name, so a later field replaces an earlier one. -/
def sameFieldsScoped (rigids : List (ℕ × ℕ)) (scope : ℕ) (left right : List (String × Ty)) : Asks :=
  match left with
  | [] => answer true
  | (name, t) :: rest =>
    match right.reverse.lookup name with
    | some candidate => both (sameTypeScoped rigids scope t candidate) (sameFieldsScoped rigids scope rest right)
    | none => answer false
termination_by structural left
/-- Every member of `left` has an equivalent in `right`. -/
def sameMembersScoped (rigids : List (ℕ × ℕ)) (scope : ℕ) (left right : List Ty) : Asks :=
  match left with
  | [] => answer true
  | member :: rest =>
    both (any (fun candidate => sameTypeScoped rigids scope member candidate) right)
      (sameMembersScoped rigids scope rest right)
termination_by structural left
def sameRequirementsScoped (rigids : List (ℕ × ℕ)) (scope : ℕ) (left right : List (MemberRequirement Ty)) : Asks :=
  match left, right with
  | [], _ => answer true
  | _, [] => answer true
  | r :: rs, q :: qs =>
    both (answer (decide (r.name = q.name))) <| both (sameTypeScoped rigids scope r.subject q.subject) <|
      both (sameTypeScoped rigids scope r.member q.member) (sameRequirementsScoped rigids scope rs qs)
termination_by structural left
end

def sameType (left right : Ty) : Bool := (sameTypeScoped [] 0 left right ⟨[], 1⟩).1

/-! ### The comparison without its memory -/

mutual
/-- `same_type_scoped` without what it remembers. -/
def samePlain (rigids : List (ℕ × ℕ)) (left right : Ty) : Bool :=
  match left, right with
  | .qualified rs a, .qualified qs b =>
    decide (rs.length = qs.length) && (samePlain rigids a b && samePlainRequirements rigids rs qs)
  | .var a, .var b => decide (a = b)
  | .rigid a, .rigid b => Ty.sameRigid rigids a b
  | .forallType vs a, .forallType ws b =>
    decide (vs.length = ws.length) && samePlain ((vs.zip ws).reverse ++ rigids) a b
  | .unit, .unit => true
  | .top, .top => true
  | .bottom, .bottom => true
  | .opaqueType a, .opaqueType b => decide (a = b)
  | .range d l h, .range d' l' h' => decide (d = d') && decide (l = l') && decide (h = h')
  | .effects a, .effects b => decide (a = b)
  | .openEffects l a, .openEffects m b => decide (l = m) && samePlain rigids a b
  | .function d p e r, .function d' p' e' r' =>
    decide (d = d') && (samePlain rigids p p' && (samePlain rigids e e' && samePlain rigids r r'))
  | .record fs, .record gs => decide (fs.length = gs.length) && samePlainFields rigids fs gs
  | .array a, .array b => samePlain rigids a b
  | .region a, .region b => samePlain rigids a b
  | .scratch a, .scratch b => samePlain rigids a b
  | .resource f a, .resource g b => decide (f = g) && samePlain rigids a b
  | .variant fs o, .variant gs o' =>
    decide (o = o') && (decide (fs.length = gs.length) && samePlainFields rigids fs gs)
  | .union ms, .union ns => decide (ms.length = ns.length) && samePlainMembers rigids ms ns
  | _, _ => false
termination_by structural left
/-- `sameFieldsScoped` without what it remembers. -/
def samePlainFields (rigids : List (ℕ × ℕ)) (left right : List (String × Ty)) : Bool :=
  match left with
  | [] => true
  | (name, t) :: rest =>
    match right.reverse.lookup name with
    | some candidate => samePlain rigids t candidate && samePlainFields rigids rest right
    | none => false
termination_by structural left
/-- `sameMembersScoped` without what it remembers. -/
def samePlainMembers (rigids : List (ℕ × ℕ)) (left right : List Ty) : Bool :=
  match left with
  | [] => true
  | member :: rest =>
      right.any (fun candidate => samePlain rigids member candidate) && samePlainMembers rigids rest right
termination_by structural left
/-- `sameRequirementsScoped` without what it remembers. -/
def samePlainRequirements (rigids : List (ℕ × ℕ)) (left right : List (MemberRequirement Ty)) : Bool :=
  match left, right with
  | [], _ => true
  | _, [] => true
  | r :: rs, q :: qs =>
    decide (r.name = q.name) && (samePlain rigids r.subject q.subject &&
      (samePlain rigids r.member q.member && samePlainRequirements rigids rs qs))
termination_by structural left
end

/-- What is remembered is right; `scopes` are the binder pairs of each scope entered so far. -/
def SameMemo.Sound (scopes : ℕ → List (ℕ × ℕ)) (memo : SameMemo) : Prop :=
  ∀ left right scope same, ((left, right, scope), same) ∈ memo.answers →
    scope < memo.nextScope ∧ same = samePlain (scopes scope) left right

/-- What a comparison does to the memory: scopes are added, and it stays right. -/
structure SameMemo.Grows (scopes : ℕ → List (ℕ × ℕ)) (memo memo' : SameMemo) (scopes' : ℕ → List (ℕ × ℕ)) : Prop where
  sound : memo'.Sound scopes'
  le : memo.nextScope ≤ memo'.nextScope
  kept : ∀ scope < memo.nextScope, scopes' scope = scopes scope

/-- In the scope `scope` of the pairs `rigids` the comparison answers `same`, whatever is remembered. -/
def Asks.Computes (rigids : List (ℕ × ℕ)) (scope : ℕ) (m : Asks) (same : Bool) : Prop :=
  ∀ scopes memo, memo.Sound scopes → scope < memo.nextScope → scopes scope = rigids →
    (m memo).1 = same ∧ ∃ scopes', SameMemo.Grows scopes memo (m memo).2 scopes'

section Computes

variable {rigids : List (ℕ × ℕ)} {scope : ℕ} {m n : Asks} {b c : Bool}

theorem SameMemo.Grows.refl {scopes : ℕ → List (ℕ × ℕ)} {memo : SameMemo} (h : memo.Sound scopes) :
    SameMemo.Grows scopes memo memo scopes := ⟨h, Nat.le_refl _, fun _ _ => rfl⟩

theorem SameMemo.Grows.trans {scopes scopes' scopes'' : ℕ → List (ℕ × ℕ)} {memo memo' memo'' : SameMemo}
    (h : SameMemo.Grows scopes memo memo' scopes') (h' : SameMemo.Grows scopes' memo' memo'' scopes'') :
    SameMemo.Grows scopes memo memo'' scopes'' where
  sound := h'.sound
  le := Nat.le_trans h.le h'.le
  kept s hs := (h'.kept s (Nat.lt_of_lt_of_le hs h.le)).trans (h.kept s hs)

theorem Asks.computes_answer : Computes rigids scope (answer b) b :=
  fun scopes _ hsound _ _ => ⟨rfl, scopes, .refl hsound⟩

theorem Asks.Computes.both (hm : Computes rigids scope m b) (hn : Computes rigids scope n c) :
    Computes rigids scope (both m n) (b && c) := by
  intro scopes memo hsound hscope hrigids
  obtain ⟨hb, scopes', hgrows⟩ := hm scopes memo hsound hscope hrigids
  unfold Asks.both
  rcases hrun : m memo with ⟨answered, memo'⟩
  rw [hrun] at hb hgrows
  obtain rfl : answered = b := hb
  cases answered with
  | false => exact ⟨rfl, scopes', hgrows⟩
  | true =>
    have hscope' := Nat.lt_of_lt_of_le hscope hgrows.le
    obtain ⟨hc, scopes'', hgrows'⟩ := hn scopes' memo' hgrows.sound hscope' ((hgrows.kept scope hscope).trans hrigids)
    exact ⟨hc, scopes'', hgrows.trans hgrows'⟩

theorem Asks.computes_any {ask : Ty → Asks} {p : Ty → Bool} {ts : List Ty}
    (h : ∀ t ∈ ts, Computes rigids scope (ask t) (p t)) : Computes rigids scope (any ask ts) (ts.any p) := by
  induction ts with
  | nil => exact computes_answer
  | cons t ts ih =>
    intro scopes memo hsound hscope hrigids
    obtain ⟨hb, scopes', hgrows⟩ := h t List.mem_cons_self scopes memo hsound hscope hrigids
    rw [List.any_cons]
    unfold any
    rcases hrun : ask t memo with ⟨answered, memo'⟩
    rw [hrun] at hb hgrows
    obtain rfl : answered = p t := hb
    have hscope' := Nat.lt_of_lt_of_le hscope hgrows.le
    cases hp : p t with
    | true => exact ⟨rfl, scopes', hgrows⟩
    | false =>
      have hrest := ih fun t' ht' => h t' (List.mem_cons_of_mem _ ht')
      obtain ⟨hc, scopes'', hgrows'⟩ := hrest scopes' memo' hgrows.sound hscope'
        ((hgrows.kept scope hscope).trans hrigids)
      exact ⟨hc, scopes'', hgrows.trans hgrows'⟩

theorem Asks.Computes.remember {left right : Ty} (hm : Computes rigids scope m b)
    (hb : b = samePlain rigids left right) :
    Computes rigids scope (remember (left, right, scope) m) b := by
  intro scopes memo hsound hscope hrigids
  obtain ⟨hsame, scopes', hgrows⟩ := hm scopes memo hsound hscope hrigids
  unfold Asks.remember
  rcases hrun : m memo with ⟨answered, memo'⟩
  rw [hrun] at hsame hgrows
  obtain rfl : answered = b := hsame
  refine ⟨rfl, scopes', ?_, hgrows.le, hgrows.kept⟩
  intro left' right' scope' same hmem
  rcases List.mem_cons.1 hmem with heq | hmem
  · obtain ⟨⟨rfl, rfl, rfl⟩, rfl⟩ : (left' = left ∧ right' = right ∧ scope' = scope) ∧ same = answered := by
      simpa using heq
    refine ⟨Nat.lt_of_lt_of_le hscope hgrows.le, ?_⟩
    rw [hgrows.kept scope' hscope, hrigids]
    exact hb
  · exact hgrows.sound left' right' scope' same hmem

theorem Asks.computes_inScope {rigids' : List (ℕ × ℕ)} {m : ℕ → Asks}
    (hm : ∀ child, Computes rigids' child (m child) b) : Computes rigids scope (inScope m) b := by
  intro scopes memo hsound hscope hrigids
  -- The child's scope is new, so nothing remembered is about it.
  have hnew : ∀ s < memo.nextScope, Function.update scopes memo.nextScope rigids' s = scopes s :=
    fun s hs => Function.update_of_ne (Nat.ne_of_lt hs) _ _
  have hsound' : SameMemo.Sound (Function.update scopes memo.nextScope rigids')
      { memo with nextScope := memo.nextScope + 1 } := by
    intro left right scope' same hmem
    obtain ⟨hlt, hsame⟩ := hsound left right scope' same hmem
    refine ⟨Nat.lt_succ_of_lt hlt, ?_⟩
    rw [hnew scope' hlt]
    exact hsame
  have hself : Function.update scopes memo.nextScope rigids' memo.nextScope = rigids' := Function.update_self _ _ _
  obtain ⟨hsame, scopes', hgrows⟩ := hm memo.nextScope _ _ hsound' (Nat.lt_succ_self _) hself
  refine ⟨hsame, scopes', hgrows.sound, Nat.le_trans (Nat.le_succ _) hgrows.le, fun s hs => ?_⟩
  exact (hgrows.kept s (Nat.lt_succ_of_lt hs)).trans (hnew s hs)

theorem Asks.Computes.ask {left right : Ty} (hm : Computes rigids scope m (samePlain rigids left right)) :
    Computes rigids scope (ask (left, right, scope) m) (samePlain rigids left right) := by
  intro scopes memo hsound hscope hrigids
  unfold Asks.ask
  cases hl : memo.answers.lookup (left, right, scope) with
  | none => exact hm scopes memo hsound hscope hrigids
  | some same =>
    obtain ⟨l₁, l₂, hsplit, -⟩ := List.lookup_eq_some_iff.1 hl
    have hmem : ((left, right, scope), same) ∈ memo.answers := by rw [hsplit]; simp
    obtain ⟨-, hsame⟩ := hsound left right scope same hmem
    rw [hrigids] at hsame
    exact ⟨hsame, scopes, .refl hsound⟩

end Computes

def ComputesPlain (t : Ty) : Prop :=
  ∀ rigids scope u, Asks.Computes rigids scope (sameTypeScoped rigids scope t u) (samePlain rigids t u)

theorem computes_fields (rigids : List (ℕ × ℕ)) (scope : ℕ) {fs : List (String × Ty)}
    (h : ∀ c ∈ fs.map Prod.snd, ComputesPlain c) (gs : List (String × Ty)) :
    Asks.Computes rigids scope (sameFieldsScoped rigids scope fs gs) (samePlainFields rigids fs gs) := by
  induction fs with
  | nil => exact Asks.computes_answer
  | cons f fs ih =>
    obtain ⟨name, t⟩ := f
    rw [sameFieldsScoped, samePlainFields]
    cases hl : gs.reverse.lookup name with
    | none => exact Asks.computes_answer
    | some candidate =>
      have hrest := ih fun c hc => h c (List.mem_cons_of_mem _ hc)
      exact (h t List.mem_cons_self rigids scope candidate).both hrest

theorem computes_members (rigids : List (ℕ × ℕ)) (scope : ℕ) {ms : List Ty} (h : ∀ c ∈ ms, ComputesPlain c)
    (ns : List Ty) :
    Asks.Computes rigids scope (sameMembersScoped rigids scope ms ns) (samePlainMembers rigids ms ns) := by
  induction ms with
  | nil => exact Asks.computes_answer
  | cons m ms ih =>
    rw [sameMembersScoped, samePlainMembers]
    have hfirst := Asks.computes_any fun n (_ : n ∈ ns) => h m List.mem_cons_self rigids scope n
    exact hfirst.both (ih fun c hc => h c (List.mem_cons_of_mem _ hc))

theorem computes_requirements (rigids : List (ℕ × ℕ)) (scope : ℕ) {rs : List (MemberRequirement Ty)}
    (h : ∀ c ∈ rs.flatMap (fun r => [r.subject, r.member]), ComputesPlain c) (qs : List (MemberRequirement Ty)) :
    Asks.Computes rigids scope (sameRequirementsScoped rigids scope rs qs) (samePlainRequirements rigids rs qs) := by
  induction rs generalizing qs with
  | nil => exact Asks.computes_answer
  | cons r rs ih =>
    cases qs with
    | nil => exact Asks.computes_answer
    | cons q qs =>
      rw [sameRequirementsScoped, samePlainRequirements]
      have hsubject := h r.subject (by simp) rigids scope q.subject
      have hmember := h r.member (by simp) rigids scope q.member
      have hrest := ih (fun c hc => h c (by rw [List.flatMap_cons]; exact List.mem_append_right _ hc)) qs
      exact Asks.computes_answer.both (hsubject.both (hmember.both hrest))

theorem computes_rigid {rigids : List (ℕ × ℕ)} {scope a b : ℕ} :
    Asks.Computes rigids scope
      (match Ty.boundLeft rigids b with
        | some bound => answer (decide (bound = a))
        | none =>
          if rigids.any (fun p => p.1 = a ∨ p.2 = b) then answer false
          else remember (.rigid a, .rigid b, scope) (answer (decide (a = b))))
      (Ty.sameRigid rigids a b) := by
  unfold Ty.sameRigid
  cases hbound : Ty.boundLeft rigids b with
  | some bound => exact Asks.computes_answer
  | none =>
    dsimp only
    split
    case isTrue => exact Asks.computes_answer
    case isFalse hfree =>
      refine Asks.computes_answer.remember ?_
      rw [samePlain, Ty.sameRigid, hbound]
      exact (if_neg hfree).symm

/-- A comparison of lengths before the comparison of the parts. -/
theorem computes_if {rigids : List (ℕ × ℕ)} {scope : ℕ} {m : Asks} {b : Bool} {p : Prop} [Decidable p]
    (h : Asks.Computes rigids scope m b) :
    Asks.Computes rigids scope (if p then m else answer false) (decide p && b) := by
  by_cases hp : p
  · rw [if_pos hp, decide_eq_true hp]
    exact h
  · rw [if_neg hp, decide_eq_false hp]
    exact Asks.computes_answer

/-- **What is remembered makes no difference**, in any scope. -/
theorem computesPlain (t : Ty) : ComputesPlain t := by
  induction t using Ty.ind with
  | h t ih =>
    intro rigids scope u
    unfold sameTypeScoped
    refine Asks.Computes.ask ?_
    split
    case h_1 rs a qs b =>
      rw [samePlain]
      have hrs := computes_requirements rigids scope (fun c hc => ih c (List.mem_append_left _ hc)) qs
      exact (computes_if ((ih a (by simp [Ty.children]) rigids scope b).both hrs)).remember (by rw [samePlain])
    case h_2 => exact Asks.computes_answer.remember rfl
    case h_3 => exact computes_rigid
    case h_4 vs a ws b =>
      rw [samePlain]
      by_cases hlen : vs.length = ws.length
      · rw [if_pos hlen, decide_eq_true hlen, Bool.true_and]
        have hbody := fun child => ih a (List.mem_singleton_self a) ((vs.zip ws).reverse ++ rigids) child b
        refine (Asks.computes_inScope hbody).remember ?_
        rw [samePlain, decide_eq_true hlen]
        rfl
      · rw [if_neg hlen, decide_eq_false hlen]
        exact Asks.computes_answer
    case h_5 => exact Asks.computes_answer.remember rfl
    case h_6 => exact Asks.computes_answer.remember rfl
    case h_7 => exact Asks.computes_answer.remember rfl
    case h_8 => exact Asks.computes_answer.remember rfl
    case h_9 => exact Asks.computes_answer.remember rfl
    case h_10 => exact Asks.computes_answer.remember rfl
    case h_11 l a m b => exact (Asks.computes_answer.both (ih a (by simp [Ty.children]) rigids scope b)).remember rfl
    case h_12 d p e r d' p' e' r' =>
      have hp := ih p (by simp [Ty.children]) rigids scope p'
      have he := ih e (by simp [Ty.children]) rigids scope e'
      have hr := ih r (by simp [Ty.children]) rigids scope r'
      exact (Asks.computes_answer.both (hp.both (he.both hr))).remember rfl
    case h_13 fs gs =>
      exact (computes_if (computes_fields rigids scope (fun c hc => ih c hc) gs)).remember (by rw [samePlain])
    case h_14 a b => exact (ih a (by simp [Ty.children]) rigids scope b).remember (by rw [samePlain])
    case h_15 a b => exact (ih a (by simp [Ty.children]) rigids scope b).remember (by rw [samePlain])
    case h_16 a b => exact (ih a (by simp [Ty.children]) rigids scope b).remember (by rw [samePlain])
    case h_17 f a g b => exact (Asks.computes_answer.both (ih a (by simp [Ty.children]) rigids scope b)).remember rfl
    case h_18 fs o gs o' =>
      have hfields := computes_if (p := fs.length = gs.length)
        (computes_fields rigids scope (fun c hc => ih c hc) gs)
      exact (Asks.computes_answer.both hfields).remember (by rw [samePlain])
    case h_19 ms ns =>
      have hmembers : ∀ c ∈ ms, ComputesPlain c := fun c hc => ih c hc
      exact (computes_if (computes_members rigids scope hmembers ns)).remember (by rw [samePlain])
    case h_20 =>
      have hplain : samePlain rigids t u = false := by
        unfold samePlain
        split <;> grind
      rw [hplain]
      exact Asks.computes_answer.remember hplain.symm

/-- `same_type` is the comparison without its memory. -/
theorem sameType_eq (left right : Ty) : sameType left right = samePlain [] left right := by
  have hsound : SameMemo.Sound (fun _ => []) ⟨[], 1⟩ := fun _ _ _ _ hmem => absurd hmem List.not_mem_nil
  exact (computesPlain left [] 0 right (fun _ => []) ⟨[], 1⟩ hsound Nat.one_pos rfl).1

end Blot.Typecheck
