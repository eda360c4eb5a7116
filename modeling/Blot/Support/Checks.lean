import Mathlib.Data.List.Forall2

/-!
# Checks that may fail

Rules for `Except`: what a finished sequence, a finished loop and a finished map have done.
-/

namespace Blot.Support

variable {ε α β γ : Type}

/-- Fails with `e` unless `b` holds. -/
def require (b : Bool) (e : ε) : Except ε Unit := if b then .ok () else .error e

/-- The value that is there, or the failure `e`. -/
def demand (a : Option α) (e : ε) : Except ε α :=
  match a with
  | some a => .ok a
  | none => .error e

@[simp] theorem require_eq_ok {b : Bool} {e : ε} {u : Unit} : require b e = .ok u ↔ b = true := by
  cases b <;> simp [require]

@[simp] theorem demand_eq_ok {a : Option α} {e : ε} {b : α} : demand a e = .ok b ↔ a = some b := by
  cases a <;> simp [demand]

/-- **Inversion of a finished sequence.** -/
@[simp] theorem bind_eq_ok {m : Except ε α} {f : α → Except ε β} {b : β} :
    (m >>= f) = .ok b ↔ ∃ a, m = .ok a ∧ f a = .ok b := by
  cases m with
  | error e => exact ⟨fun h => (by cases h), fun ⟨a, h, _⟩ => (by cases h)⟩
  | ok a => exact ⟨fun h => ⟨a, rfl, h⟩, fun ⟨a', h, hf⟩ => by cases h; exact hf⟩

@[simp] theorem pure_eq_ok {a b : α} : (pure a : Except ε α) = .ok b ↔ a = b := by
  simp [pure, Except.pure]

@[simp] theorem pure_eq (a : α) : (pure a : Except ε α) = .ok a := rfl

@[simp] theorem ok_bind (a : α) (f : α → Except ε β) : ((.ok a : Except ε α) >>= f) = f a := rfl

@[simp] theorem error_bind (e : ε) (f : α → Except ε β) : ((.error e : Except ε α) >>= f) = .error e := rfl

theorem bind₂_eq_some {x : Option α} {y : α → Option β} {f : α → β → γ} {c : γ} :
    (x.bind fun a => (y a).bind fun b => some (f a b)) = some c ↔ ∃ a b, x = some a ∧ y a = some b ∧ f a b = c := by
  simp only [Option.bind_eq_some_iff, Option.some.injEq, exists_and_left]

theorem ok_triple_inj {a a' : α} {b b' : β} {c c' : γ} (h : (.ok (a, b, c) : Except ε (α × β × γ)) = .ok (a', b', c')) :
    a = a' ∧ b = b' ∧ c = c' := by
  simpa using h

/-- A step for each element, in order. -/
def each (f : α → Except ε Unit) : List α → Except ε Unit
  | [] => .ok ()
  | a :: l => do
    f a
    each f l

/-- **A loop of checks passes when each of them does.** -/
@[simp] theorem each_eq_ok {f : α → Except ε Unit} {l : List α} {u : Unit} :
    each f l = .ok u ↔ ∀ a ∈ l, f a = .ok () := by
  induction l with
  | nil => simp [each]
  | cons a l ih =>
    rw [each, bind_eq_ok, List.forall_mem_cons, ← ih]
    exact ⟨fun ⟨(), ha, hl⟩ => ⟨ha, hl⟩, fun ⟨ha, hl⟩ => ⟨(), ha, hl⟩⟩

theorem exists_of_each_error {f : α → Except ε Unit} {e : ε} : ∀ {l : List α}, each f l = .error e →
    ∃ a ∈ l, f a = .error e
  | a :: l, h => by
    cases ha : f a with
    | error e' =>
      rw [each, ha, error_bind] at h
      exact ⟨a, List.mem_cons_self, h ▸ ha⟩
    | ok u =>
      rw [each, ha, ok_bind] at h
      obtain ⟨b, hb, hfail⟩ := exists_of_each_error h
      exact ⟨b, List.mem_cons_of_mem a hb, hfail⟩

/-- The results of a step for each element. -/
def collect (f : α → Except ε β) : List α → Except ε (List β)
  | [] => .ok []
  | a :: l => do
    let b ← f a
    let bs ← collect f l
    pure (b :: bs)

/-- **A finished map has a result for each element.** -/
theorem collect_eq_ok {f : α → Except ε β} {l : List α} {bs : List β} :
    collect f l = .ok bs ↔ List.Forall₂ (fun a b => f a = .ok b) l bs := by
  induction l generalizing bs with
  | nil =>
    rw [collect, List.forall₂_nil_left_iff, Except.ok.injEq]
    exact eq_comm
  | cons a l ih =>
    cases bs with
    | nil =>
      constructor
      · intro h
        simp only [collect, bind_eq_ok, pure_eq_ok] at h
        obtain ⟨b, _, bs, _, h⟩ := h
        cases h
      · intro h
        cases h
    | cons b bs =>
      simp only [collect, bind_eq_ok, pure_eq_ok, List.forall₂_cons, List.cons.injEq, ih]
      constructor
      · rintro ⟨b', hb, bs', hbs, rfl, rfl⟩
        exact ⟨hb, hbs⟩
      · rintro ⟨hb, hbs⟩
        exact ⟨b, hb, bs, hbs, rfl, rfl⟩

theorem collect_length {f : α → Except ε β} {l : List α} {bs : List β} (h : collect f l = .ok bs) :
    bs.length = l.length := (collect_eq_ok.1 h).length_eq.symm

theorem forall₂_imp_of_mem {R S : α → β → Prop} {l : List α} {bs : List β} (h : List.Forall₂ R l bs)
    (himp : ∀ a b, a ∈ l → R a b → S a b) : List.Forall₂ S l bs := by
  induction h with
  | nil => exact .nil
  | cons hab _ ih =>
    exact .cons (himp _ _ List.mem_cons_self hab) (ih fun a b ha => himp a b (List.mem_cons_of_mem _ ha))

theorem exists_left_of_forall₂ {R : α → β → Prop} {l : List α} {bs : List β} (h : List.Forall₂ R l bs) {b : β}
    (hb : b ∈ bs) : ∃ a ∈ l, R a b := by
  induction h with
  | nil => cases hb
  | @cons a b' l bs hab _ ih =>
    rcases List.mem_cons.1 hb with rfl | hb
    · exact ⟨a, by simp, hab⟩
    · obtain ⟨a', ha', h'⟩ := ih hb
      exact ⟨a', by simp [ha'], h'⟩

theorem exists_right_of_forall₂ {R : α → β → Prop} {l : List α} {bs : List β} (h : List.Forall₂ R l bs) {a : α}
    (ha : a ∈ l) : ∃ b ∈ bs, R a b := by
  induction h with
  | nil => cases ha
  | @cons a' b l bs hab _ ih =>
    rcases List.mem_cons.1 ha with rfl | ha
    · exact ⟨b, by simp, hab⟩
    · obtain ⟨b', hb', h'⟩ := ih ha
      exact ⟨b', by simp [hb'], h'⟩

theorem mem_of_collect {f : α → Except ε β} {l : List α} {bs : List β} (h : collect f l = .ok bs) {b : β}
    (hb : b ∈ bs) : ∃ a ∈ l, f a = .ok b :=
  exists_left_of_forall₂ (collect_eq_ok.1 h) hb

theorem collect_of_mem {f : α → Except ε β} {l : List α} {bs : List β} (h : collect f l = .ok bs) {a : α}
    (ha : a ∈ l) : ∃ b ∈ bs, f a = .ok b :=
  exists_right_of_forall₂ (collect_eq_ok.1 h) ha

theorem collect_of_forall {f : α → Except ε β} {l : List α} (h : ∀ a ∈ l, ∃ b, f a = .ok b) :
    ∃ bs, collect f l = .ok bs := by
  induction l with
  | nil => exact ⟨[], rfl⟩
  | cons a l ih =>
    obtain ⟨b, hb⟩ := h a (by simp)
    obtain ⟨bs, hbs⟩ := ih fun a' ha' => h a' (by simp [ha'])
    exact ⟨b :: bs, by simp [collect, hb, hbs]⟩

/-- **Inversion of a finished loop**: its first step, then the rest. -/
theorem foldlM_cons_eq_ok {f : β → α → Except ε β} {a : α} {l : List α} {b c : β} :
    (a :: l).foldlM f b = .ok c ↔ ∃ b', f b a = .ok b' ∧ l.foldlM f b' = .ok c := by
  rw [List.foldlM_cons, bind_eq_ok]

theorem foldlM_nil_eq_ok {f : β → α → Except ε β} {b c : β} : ([] : List α).foldlM f b = .ok c ↔ b = c := by
  rw [List.foldlM_nil, pure_eq_ok]

theorem step_of_foldlM {f : β → α → Except ε β} {l : List α} {b c : β} (h : l.foldlM f b = .ok c) {a : α}
    (ha : a ∈ l) : ∃ b' b'', f b' a = .ok b'' := by
  induction l generalizing b with
  | nil => cases ha
  | cons a' l ih =>
    obtain ⟨b', hb, hl⟩ := foldlM_cons_eq_ok.1 h
    rcases List.mem_cons.1 ha with rfl | ha
    · exact ⟨b, b', hb⟩
    · exact ih hl ha

/-! ### Gathering what is there -/

section Gather

theorem getElem?_of_mapM {f : α → Option β} {as : List α} {bs : List β} (h : as.mapM f = some bs) :
    bs.length = as.length ∧ ∀ (i : ℕ) (a : α), as[i]? = some a → ∃ b, bs[i]? = some b ∧ f a = some b := by
  induction as generalizing bs with
  | nil =>
    obtain rfl := Option.some.inj h
    exact ⟨rfl, fun i a ha => by cases ha⟩
  | cons a as ih =>
    rw [List.mapM_cons] at h
    obtain ⟨b, bs', hb, hbs, rfl⟩ := bind₂_eq_some.1 h
    obtain ⟨hlength, hall⟩ := ih hbs
    refine ⟨by rw [List.length_cons, List.length_cons, hlength], fun i x hx => ?_⟩
    cases i with
    | zero =>
      obtain rfl := Option.some.inj hx
      exact ⟨b, rfl, hb⟩
    | succ i => exact hall i x hx

theorem mapM_eq_some_iff {f : α → Option β} {as : List α} {bs : List β} :
    as.mapM f = some bs ↔ List.Forall₂ (fun a b => f a = some b) as bs := by
  induction as generalizing bs with
  | nil =>
    rw [List.forall₂_nil_left_iff]
    exact ⟨fun h => (Option.some.inj h).symm, fun h => h ▸ rfl⟩
  | cons a as ih =>
    rw [List.mapM_cons]
    constructor
    · intro h
      obtain ⟨b, bs', hb, hbs, rfl⟩ := bind₂_eq_some.1 h
      exact .cons hb (ih.1 hbs)
    · intro h
      cases h with
      | cons hb hbs =>
        rw [hb, ih.2 hbs]
        rfl

theorem exists_of_mapM {f : α → Option β} {as : List α} {bs : List β} (h : as.mapM f = some bs) :
    ∀ a ∈ as, ∃ b ∈ bs, f a = some b := by
  intro a ha
  obtain ⟨i, hi⟩ := List.mem_iff_getElem?.1 ha
  obtain ⟨b, hb, hf⟩ := (getElem?_of_mapM h).2 i a hi
  exact ⟨b, List.mem_of_getElem? hb, hf⟩

theorem forall_of_mapM {P : β → Prop} {f : α → Option β} {as : List α} {bs : List β}
    (h : as.mapM f = some bs) (hP : ∀ a ∈ as, ∀ b, f a = some b → P b) : ∀ b ∈ bs, P b := by
  intro b hb
  obtain ⟨hlength, hall⟩ := getElem?_of_mapM h
  obtain ⟨i, hi⟩ := List.mem_iff_getElem?.1 hb
  have hlt : i < as.length := hlength ▸ (List.getElem?_eq_some_iff.1 hi).1
  obtain ⟨b', hb', hf⟩ := hall i _ (List.getElem?_eq_getElem hlt)
  obtain rfl := Option.some.inj (hi.symm.trans hb')
  exact hP _ (List.getElem_mem hlt) b hf

theorem eq_map_some_of_mapM {as : List (Option α)} {bs : List α} (h : as.mapM id = some bs) :
    as = bs.map some := by
  induction as generalizing bs with
  | nil =>
    obtain rfl := Option.some.inj h
    rfl
  | cons a as ih =>
    rw [List.mapM_cons] at h
    obtain ⟨b, bs', hb, hbs, rfl⟩ := bind₂_eq_some.1 h
    rw [List.map_cons, ← ih hbs, ← hb]
    rfl

theorem mapM_eq_some_map {f : α → Option β} {g : α → β} {as : List α} (h : ∀ a ∈ as, f a = some (g a)) :
    as.mapM f = some (as.map g) := by
  induction as with
  | nil => rfl
  | cons a as ih =>
    rw [List.forall_mem_cons] at h
    rw [List.mapM_cons, h.1, ih h.2]
    rfl

end Gather

end Blot.Support
