import Blot.Environment.Scopes

/-!
# Environments keep lexical lookup

In every state that scope operations lead to, each environment that a pending declaration or a value holds finds what
the eager model finds.  The invariant: a frame that may still be extended in place is on no chain but those of the
scope that extends it and of the scopes inside that one.
-/

namespace Blot.Environment

open Support Relation

variable {V T : Type} {h h' : Heap V T} {e p x y : ℕ} {f : Frame V T} {n : String}

namespace Heap

/-- A frame that `declaration_env` extends in place. -/
def Open (h : Heap V T) (environment : ℕ) : Prop :=
  ∃ frame, h.frames environment = some frame ∧ frame.captured = false ∧ frame.recursiveBindings = none

def Recursive (h : Heap V T) (environment : ℕ) : Prop :=
  ∃ frame, h.frames environment = some frame ∧ frame.recursiveBindings.isSome = true

theorem Sealed.not_open (hs : h.Sealed e) : ¬ h.Open e := by
  rintro ⟨f, hf, hc, _⟩
  obtain ⟨g, hg, hgc⟩ := hs
  rw [hf, Option.some.injEq] at hg
  rw [← hg, hc] at hgc
  cases hgc

def SameAlong (h h' : Heap V T) (environment : ℕ) : Prop :=
  ∀ x, h.Reaches environment x → (h'.frames x).map Frame.lexical = (h.frames x).map Frame.lexical

section Lexical

variable (same : (h'.frames x).map Frame.lexical = (h.frames x).map Frame.lexical)

include same

/-- What is asked of the lexical part of a frame only. -/
theorem exists_of_lexical (P : Table String V × List (Table String V) × Option ℕ × Bool → Prop) :
    (∃ f, h'.frames x = some f ∧ P f.lexical) ↔ ∃ f, h.frames x = some f ∧ P f.lexical := by
  have hmap (h : Heap V T) : (∃ f, h.frames x = some f ∧ P f.lexical) ↔
      ∃ l, (h.frames x).map Frame.lexical = some l ∧ P l := by
    simp only [Option.map_eq_some_iff]
    exact ⟨fun ⟨f, hf, hP⟩ => ⟨_, ⟨f, hf, rfl⟩, hP⟩, fun ⟨_, ⟨f, hf, hl⟩, hP⟩ => ⟨f, hf, hl ▸ hP⟩⟩
  rw [hmap, hmap, same]

theorem parent_of_lexical : h'.Parent x y ↔ h.Parent x y := exists_of_lexical same (·.2.2.1 = some y)

theorem present_of_lexical : (∃ f, h'.frames x = some f) ↔ ∃ f, h.frames x = some f := by
  simpa using exists_of_lexical same fun _ => True

theorem recursive_of_lexical : h'.Recursive x ↔ h.Recursive x := exists_of_lexical same (·.2.2.2 = true)

end Lexical

theorem SameAlong.reaches (same : h.SameAlong h' e) : h'.Reaches e x ↔ h.Reaches e x := by
  constructor
  · intro hr
    induction hr with
    | refl => exact .refl
    | tail _ hp ih => exact ih.tail ((parent_of_lexical (same _ ih)).1 hp)
  · intro hr
    induction hr with
    | refl => exact .refl
    | tail hr hp ih => exact ih.tail ((parent_of_lexical (same _ hr)).2 hp)

theorem SameAlong.mono (same : h.SameAlong h' e) (hr : h.Reaches e x) : h.SameAlong h' x :=
  fun y hy => same y (hr.trans hy)

theorem SameAlong.meaning (same : h.SameAlong h' e) (members : Members T) :
    h'.meaning e members n = h.meaning e members n :=
  meaning_congr fun x hx => ⟨same x hx, rfl⟩

end Heap

open Heap

namespace State

variable {s t : State V T} {view : View V T}

/-- The environment is there, and for every name it may look up it finds what its eager map has, whatever the members
of the recursive groups are by then. -/
def Agrees (s : State V T) (view : View V T) : Prop :=
  (∃ frame, s.heap.frames view.environment = some frame) ∧
    ∀ members name, view.may members name →
      (s.heap.meaning view.environment members name).map (·.2) = view.eager members name

/-- The environment agrees, and so do those of the recursive groups on its chain. -/
def Sees (s : State V T) (view : View V T) : Prop :=
  s.Agrees view ∧ ∀ R group, s.heap.Reaches view.environment R → s.heap.Recursive R → s.groups R = some group →
    s.Agrees group

/-- Names in a frame that its scope extends in place are names that the scope may look up. -/
def Owns (s : State V T) (view : View V T) : Prop :=
  ∀ f, s.heap.frames view.environment = some f → f.captured = false → f.recursiveBindings = none →
    ∀ n, (f.plain n).isSome → ∀ members, view.may members n

/-- **The invariant.** -/
structure Lexical (s : State V T) : Prop where
  ordered : s.heap.Ordered
  upward : s.heap.Upward
  sees : ∀ view, s.Views view → s.Sees view
  held : ∀ view ∈ s.held, s.heap.Sealed view.environment
  groups : ∀ R view, s.groups R = some view → view.environment = R
  members : ∀ e, (s.heap.next ≤ e ∨ ∃ f, s.heap.frames e = some f) → s.members e = s.heap.members e
  owns : ∀ i, ∀ scope ∈ s.activations i, s.Owns scope.toView
  /-- A frame that is extended in place is seen only from the scopes inside. -/
  apart : ∀ i above scope outer, s.activations i = above ++ scope :: outer → s.heap.Open scope.environment →
    (∀ other ∈ outer, ¬ s.heap.Reaches other.environment scope.environment) ∧
      ∀ j, j ≠ i → ∀ other ∈ s.activations j, ¬ s.heap.Reaches other.environment scope.environment
  active : ∀ i, ∀ scope ∈ s.activations i, ∀ source R, scope.active = some (source, R) →
    s.heap.Reaches scope.environment R ∧ s.heap.Recursive R
  indexed : ∀ e f locations, s.heap.frames e = some f → f.nameLocations = some locations → f.captured = true ∧
    (∀ R, s.heap.Reaches e R → ¬ s.Filling R) ∧
      ∀ n, locations.lookup n = (s.heap.meaning e s.heap.members n).map (·.1)

theorem Agrees.transport (agrees : s.Agrees view) (same : s.heap.SameAlong t.heap view.environment) :
    t.Agrees view := by
  obtain ⟨hpresent, hmeans⟩ := agrees
  refine ⟨(present_of_lexical (same _ .refl)).2 hpresent, fun members name hmay => ?_⟩
  rw [same.meaning]
  exact hmeans members name hmay

/-- **The frame rule for views**: an environment whose chain reads the same agrees as before. -/
theorem Sees.transport (sees : s.Sees view) (same : s.heap.SameAlong t.heap view.environment)
    (named : ∀ R group, s.groups R = some group → group.environment = R)
    (groups : ∀ R, s.heap.Reaches view.environment R → t.groups R = s.groups R) : t.Sees view := by
  obtain ⟨hagrees, hgroups⟩ := sees
  refine ⟨hagrees.transport same, fun R group hr hrec hg => ?_⟩
  rw [same.reaches] at hr
  rw [groups R hr] at hg
  rw [recursive_of_lexical (same R hr)] at hrec
  refine (hgroups R group hr hrec hg).transport ?_
  rw [named R group hg]
  exact same.mono hr

theorem Sees.group {R : ℕ} {group : View V T} (sees : s.Sees view) (hr : s.heap.Reaches view.environment R)
    (hrec : s.heap.Recursive R) (hg : s.groups R = some group) (named : group.environment = R) : s.Sees group := by
  refine ⟨sees.2 R group hr hrec hg, fun R' group' hr' hrec' hg' => ?_⟩
  rw [named] at hr'
  exact sees.2 R' group' (hr.trans hr') hrec' hg'

theorem Lexical.heap_indexed (lexical : s.Lexical) : s.heap.Indexed :=
  fun e f locations hf hl => (lexical.indexed e f locations hf hl).2.2

/-- **What a view finds is what the eager model has.** -/
theorem Lexical.finds (lexical : s.Lexical) (live : s.Views view) (n : String) :
    s.heap.findBinding view.environment n = .ok ((s.heap.meaning view.environment s.heap.members n).map (·.2),
      s.heap.observedAt (s.heap.meaning view.environment s.heap.members n)) ∧
    (view.may s.members n →
      (s.heap.meaning view.environment s.heap.members n).map (·.2) = view.eager s.members n) := by
  obtain ⟨⟨hpresent, hmeans⟩, _⟩ := lexical.sees view live
  refine ⟨findBinding_eq lexical.ordered lexical.heap_indexed hpresent, fun hmay => ?_⟩
  rw [← hmeans s.members n hmay]
  refine congrArg (Option.map _) (meaning_congr fun x hx => ⟨rfl, ?_⟩)
  exact (lexical.members x (.inr (lexical.ordered.reaches_present hx hpresent))).symm

/-! ### Captures, signatures and the index -/

end State

namespace Heap

/-- What lookups read is as before, and captured frames stay captured. -/
structure Quiet (h h' : Heap V T) : Prop where
  lexical : ∀ x, (h'.frames x).map Frame.lexical = (h.frames x).map Frame.lexical
  members : ∀ x, h'.members x = h.members x
  next : h'.next = h.next
  sealed : ∀ x, h.Sealed x → h'.Sealed x

theorem Quiet.same (quiet : h.Quiet h') (e : ℕ) : h.SameAlong h' e := fun x _ => quiet.lexical x

theorem Quiet.reaches (quiet : h.Quiet h') : h'.Reaches e x ↔ h.Reaches e x := (quiet.same e).reaches

theorem Quiet.read (quiet : h.Quiet h') (hf : h'.frames x = some f) :
    ∃ g, h.frames x = some g ∧ f.lexical = g.lexical ∧ (f.captured = false → g.captured = false) := by
  have hlex := quiet.lexical x
  rw [hf, Option.map_some, eq_comm, Option.map_eq_some_iff] at hlex
  obtain ⟨g, hg, hlex⟩ := hlex
  refine ⟨g, hg, hlex.symm, fun hc => ?_⟩
  by_contra hgc
  obtain ⟨f', hf', hc'⟩ := quiet.sealed x ⟨g, hg, Bool.not_eq_false _ ▸ hgc⟩
  rw [hf, Option.some.injEq] at hf'
  rw [hf', hc'] at hc
  cases hc

theorem recursive_none_of_lexical {f g : Frame V T} (hlex : f.lexical = g.lexical) (hf : f.recursiveBindings = none) :
    g.recursiveBindings = none := by
  have h : f.recursiveBindings.isSome = g.recursiveBindings.isSome := congrArg (·.2.2.2) hlex
  rw [hf] at h
  exact Option.isSome_eq_false_iff.1 h.symm |> Option.isNone_iff_eq_none.1

theorem plain_of_lexical {f g : Frame V T} (hlex : f.lexical = g.lexical) (n : String) : f.plain n = g.plain n := by
  have hnames : f.names = g.names := congrArg (·.1) hlex
  have hopens : f.opens = g.opens := congrArg (·.2.1) hlex
  unfold Frame.plain
  rw [hnames, hopens]

theorem Quiet.isOpen (quiet : h.Quiet h') (ho : h'.Open x) : h.Open x := by
  obtain ⟨f, hf, hc, hr⟩ := ho
  obtain ⟨g, hg, hlex, hcaptured⟩ := quiet.read hf
  exact ⟨g, hg, hcaptured hc, recursive_none_of_lexical hlex hr⟩

theorem Quiet.ordered (quiet : h.Quiet h') (ordered : h.Ordered) : h'.Ordered where
  bounded e f hf := by
    obtain ⟨g, hg, _⟩ := quiet.read hf
    rw [quiet.next]
    exact ordered.bounded e g hg
  parent e f p hf hp := by
    obtain ⟨g, hg, hgp⟩ := (parent_of_lexical (quiet.lexical e)).1 ⟨f, hf, hp⟩
    obtain ⟨hlt, hpresent⟩ := ordered.parent e g p hg hgp
    exact ⟨hlt, (present_of_lexical (quiet.lexical p)).2 hpresent⟩

end Heap

namespace State

variable {s t : State V T} {view : View V T}

theorem Views.of_same (live : t.Views view) (hactivations : t.activations = s.activations) (hheld : t.held = s.held) :
    s.Views view := by
  cases live with
  | scope live => exact .scope (hactivations ▸ live)
  | held live => exact .held (hheld ▸ live)

theorem Lexical.quiet (lexical : s.Lexical) (quiet : s.heap.Quiet h') (upward : h'.Upward)
    (indexed : ∀ e f locations, h'.frames e = some f → f.nameLocations = some locations → f.captured = true ∧
      (∀ R, s.heap.Reaches e R → ¬ s.Filling R) ∧
        ∀ n, locations.lookup n = (s.heap.meaning e s.heap.members n).map (·.1)) :
    ({ s with heap := h' } : State V T).Lexical where
  ordered := quiet.ordered lexical.ordered
  upward := upward
  sees view live := by
    have live : s.Views view := live.of_same rfl rfl
    exact (lexical.sees view live).transport (quiet.same _) lexical.groups fun _ _ => rfl
  held view live := quiet.sealed _ (lexical.held view live)
  groups := lexical.groups
  members e he := by
    rw [quiet.members, ← lexical.members e]
    rcases he with he | he
    · exact .inl (quiet.next ▸ he)
    · exact .inr ((present_of_lexical (quiet.lexical e)).1 he)
  owns i scope live f hf hc hr n hn := by
    obtain ⟨g, hg, hlex, hcaptured⟩ := quiet.read hf
    rw [plain_of_lexical hlex] at hn
    exact lexical.owns i scope live g hg (hcaptured hc) (recursive_none_of_lexical hlex hr) n hn
  apart i above scope outer hi ho := by
    simp only [quiet.reaches]
    exact lexical.apart i above scope outer hi (quiet.isOpen ho)
  active i scope live source R ha := by
    obtain ⟨hr, hrec⟩ := lexical.active i scope live source R ha
    exact ⟨quiet.reaches.2 hr, (recursive_of_lexical (quiet.lexical R)).2 hrec⟩
  indexed e f locations hf hl := by
    obtain ⟨hc, hfill, hloc⟩ := indexed e f locations hf hl
    refine ⟨hc, fun R hr => hfill R (quiet.reaches.1 hr), fun n => ?_⟩
    rw [hloc n]
    refine congrArg (Option.map _) (Eq.symm (meaning_congr fun x _ => ⟨quiet.lexical x, quiet.members x⟩))

/-- An indexed frame was indexed before, and its frame was the same but for what lookups do not read. -/
theorem Lexical.quiet_of_locations (lexical : s.Lexical) (quiet : s.heap.Quiet h') (upward : h'.Upward)
    (kept : ∀ x f, h'.frames x = some f → ∃ g, s.heap.frames x = some g ∧ f.nameLocations = g.nameLocations ∧
      (g.captured = true → f.captured = true)) :
    ({ s with heap := h' } : State V T).Lexical := by
  refine lexical.quiet quiet upward fun e f locations hf hl => ?_
  obtain ⟨g, hg, hloc, hcap⟩ := kept e f hf
  obtain ⟨hc, hrest⟩ := lexical.indexed e g locations hg (hloc ▸ hl)
  exact ⟨hcap hc, hrest⟩

end State

namespace Heap

theorem Captures.quiet (captures : h.Captures e h') : h.Quiet h' where
  lexical x := by
    rcases captures.frames x with same | ⟨_, same⟩
    · rw [same]
    · rw [same, Option.map_map]
      rfl
  members x := by
    unfold members
    rcases captures.frames x with same | ⟨_, same⟩
    · rw [same]
    · rw [same]
      cases h.frames x <;> rfl
  next := captures.next
  sealed _ hs := captures.sealed hs

theorem captureEnv_upward (ordered : h.Ordered) (upward : h.Upward) (he : ∃ f, h.frames e = some f) :
    (h.captureEnv e).Upward := by
  intro x y hx hp
  have captures := captureEnv_captures h e
  rw [parent_of_lexical (captures.quiet.lexical x)] at hp
  obtain ⟨f, hf, hc⟩ := hx
  obtain ⟨g, hg, rfl | ⟨hr, rfl⟩⟩ := captures.read hf
  · exact captures.sealed (upward x y ⟨f, hg, hc⟩ hp)
  · exact captureEnv_sealed ordered upward he (hr.tail hp)

theorem modify_quiet {write : Frame V T → Frame V T} (lexical : ∀ f, (write f).lexical = f.lexical)
    (bindings : ∀ f, (write f).recursiveBindings = f.recursiveBindings)
    (captured : ∀ f, (write f).captured = f.captured) : h.Quiet (h.modify e write) := by
  refine ⟨fun x => ?_, fun x => ?_, rfl, fun x hx => ?_⟩
  · by_cases hx : x = e
    · rw [hx, modify_self, Option.map_map]
      exact congrArg (fun g => (h.frames e).map g) (funext lexical)
    · rw [modify_of_ne write hx]
  · unfold members
    by_cases hx : x = e
    · rw [hx, modify_self]
      cases h.frames e with
      | none => rfl
      | some f => simp [bindings]
    · rw [modify_of_ne write hx]
  · obtain ⟨f, hf, hc⟩ := hx
    by_cases hx : x = e
    · subst hx
      exact ⟨write f, by rw [modify_self, hf]; rfl, (captured f).trans hc⟩
    · exact ⟨f, (modify_of_ne write hx).trans hf, hc⟩

theorem modify_upward {write : Frame V T → Frame V T} (parent : ∀ f, (write f).parent = f.parent)
    (captured : ∀ f, (write f).captured = f.captured) (upward : h.Upward) : (h.modify e write).Upward := by
  have hsealed : ∀ x, (h.modify e write).Sealed x ↔ h.Sealed x := by
    intro x
    by_cases hx : x = e
    · subst hx
      constructor
      · rintro ⟨f, hf, hc⟩
        rw [modify_self, Option.map_eq_some_iff] at hf
        obtain ⟨g, hg, rfl⟩ := hf
        exact ⟨g, hg, (captured g).symm.trans hc⟩
      · rintro ⟨f, hf, hc⟩
        exact ⟨write f, by rw [modify_self, hf]; rfl, (captured f).trans hc⟩
    · unfold Sealed
      rw [modify_of_ne write hx]
  intro x y hx hp
  rw [parent_modify parent] at hp
  exact (hsealed y).2 (upward x y ((hsealed x).1 hx) hp)

theorem read_modify {write : Frame V T → Frame V T} (hf : (h.modify e write).frames x = some f) :
    ∃ g, h.frames x = some g ∧ (x ≠ e ∧ f = g ∨ x = e ∧ f = write g) := by
  by_cases hx : x = e
  · subst hx
    rw [modify_self, Option.map_eq_some_iff] at hf
    obtain ⟨g, hg, rfl⟩ := hf
    exact ⟨g, hg, .inr ⟨rfl, rfl⟩⟩
  · rw [modify_of_ne write hx] at hf
    exact ⟨f, hf, .inl ⟨hx, rfl⟩⟩

end Heap

namespace State

variable {s t : State V T} {view : View V T}

theorem Lexical.capture (lexical : s.Lexical) (he : ∃ f, s.heap.frames e = some f) :
    ({ s with heap := s.heap.captureEnv e } : State V T).Lexical := by
  have captures := captureEnv_captures s.heap e
  refine lexical.quiet_of_locations captures.quiet (captureEnv_upward lexical.ordered lexical.upward he) ?_
  intro x f hf
  obtain ⟨g, hg, rfl | ⟨_, rfl⟩⟩ := captures.read hf
  · exact ⟨f, hg, rfl, id⟩
  · exact ⟨g, hg, rfl, fun _ => rfl⟩

theorem Lexical.annotate (lexical : s.Lexical) {write : Frame V T → Frame V T}
    (kept : ∀ f, (write f).lexical = f.lexical ∧ (write f).recursiveBindings = f.recursiveBindings ∧
      (write f).captured = f.captured ∧ (write f).nameLocations = f.nameLocations) :
    ({ s with heap := s.heap.modify e write } : State V T).Lexical := by
  have parent : ∀ f, (write f).parent = f.parent := fun f => congrArg (·.2.2.1) (kept f).1
  refine lexical.quiet_of_locations
    (modify_quiet (fun f => (kept f).1) (fun f => (kept f).2.1) fun f => (kept f).2.2.1)
    (modify_upward parent (fun f => (kept f).2.2.1) lexical.upward) ?_
  intro x f hf
  obtain ⟨g, hg, ⟨_, rfl⟩ | ⟨_, rfl⟩⟩ := read_modify hf
  · exact ⟨f, hg, rfl, id⟩
  · exact ⟨g, hg, (kept g).2.2.2, fun hc => (kept g).2.2.1.trans hc⟩

/-- **A completed environment is indexed right.** -/
theorem Lexical.index (lexical : s.Lexical) (he : ∃ f, s.heap.frames e = some f)
    (complete : ∀ R, s.heap.Reaches e R → ¬ s.Filling R) :
    ({ s with heap := s.heap.indexEnvironmentNames e } : State V T).Lexical := by
  have lexical' := lexical.capture he
  have captures := captureEnv_captures s.heap e
  set captured := s.heap.captureEnv e with hcaptured
  have hsealed : captured.Sealed e := captureEnv_sealed lexical.ordered lexical.upward he .refl
  refine Lexical.quiet (s := { s with heap := captured }) lexical' (modify_quiet (fun _ => rfl) (fun _ => rfl)
    fun _ => rfl) (modify_upward (fun _ => rfl) (fun _ => rfl) lexical'.upward) ?_
  intro x f locations hf hl
  obtain ⟨g, hg, ⟨_, rfl⟩ | ⟨rfl, rfl⟩⟩ := read_modify hf
  · exact lexical'.indexed x f locations hg hl
  · cases hold : g.nameLocations with
    | some old =>
      simp only [hold, Option.getD_some, Option.some.injEq] at hl
      subst hl
      exact lexical'.indexed x g old hg hold
    | none =>
      simp only [hold, Option.getD_none, Option.some.injEq] at hl
      subst hl
      obtain ⟨g', hg', hc⟩ := hsealed
      rw [hg, Option.some.injEq] at hg'
      subst hg'
      refine ⟨hc, fun R hr => complete R (captures.quiet.reaches.1 hr), fun n => ?_⟩
      rw [lookup_locationsFrom lexical'.ordered (Nat.lt_succ_self x) ⟨g, hg⟩ [], List.lookup_nil, Option.none_or]

/-! ### Values and scopes -/

theorem Lexical.withHeld (lexical : s.Lexical) {held : List (View V T)}
    (live : ∀ view ∈ held, view ∈ s.held ∨ s.Sees view ∧ s.heap.Sealed view.environment) :
    ({ s with held := held } : State V T).Lexical where
  ordered := lexical.ordered
  upward := lexical.upward
  sees view hview := by
    cases hview with
    | scope hscope => exact lexical.sees _ (.scope hscope)
    | held hheld =>
      rcases live view hheld with old | ⟨hsees, _⟩
      · exact lexical.sees view (.held old)
      · exact hsees
  held view hview := by
    rcases live view hview with old | ⟨_, hsealed⟩
    · exact lexical.held view old
    · exact hsealed
  groups := lexical.groups
  members := lexical.members
  owns := lexical.owns
  apart := lexical.apart
  active := lexical.active
  indexed := lexical.indexed

theorem activate_self (s : State V T) (i : ℕ) (scopes : List (Scope V T)) (heap : Heap V T) :
    (s.activate i scopes heap).activations i = scopes := by
  simp [activate]

theorem activate_of_ne (s : State V T) {i j : ℕ} (hne : j ≠ i) (scopes : List (Scope V T)) (heap : Heap V T) :
    (s.activate i scopes heap).activations j = s.activations j := by
  simp [activate, hne]

theorem Lexical.pop (lexical : s.Lexical) {i : ℕ} (above : List (Scope V T)) {outer : List (Scope V T)}
    (hi : s.activations i = above ++ outer) : (s.activate i outer s.heap).Lexical := by
  have old : ∀ {j scope}, scope ∈ (s.activate i outer s.heap).activations j → scope ∈ s.activations j := by
    intro j scope hscope
    by_cases hj : j = i
    · subst hj
      rw [activate_self] at hscope
      rw [hi]
      exact List.mem_append_right above hscope
    · rwa [activate_of_ne s hj] at hscope
  have filling : ∀ {R}, (s.activate i outer s.heap).Filling R → s.Filling R := by
    rintro R ⟨j, scope, source, hscope, ha⟩
    exact ⟨j, scope, source, old hscope, ha⟩
  constructor
  · exact lexical.ordered
  · exact lexical.upward
  · intro view hview
    cases hview with
    | scope hscope => exact lexical.sees _ (.scope (old hscope))
    | held hheld => exact lexical.sees view (.held hheld)
  · exact lexical.held
  · exact lexical.groups
  · exact lexical.members
  · exact fun j scope hscope => lexical.owns j scope (old hscope)
  · intro j above' scope rest hj ho
    have inside : ∃ above, s.activations j = above ++ scope :: rest := by
      by_cases hji : j = i
      · subst hji
        rw [activate_self] at hj
        exact ⟨above ++ above', by rw [hi, hj, List.append_assoc]⟩
      · rw [activate_of_ne s hji] at hj
        exact ⟨above', hj⟩
    obtain ⟨above, hj⟩ := inside
    obtain ⟨hrest, hother⟩ := lexical.apart j above scope rest hj ho
    exact ⟨hrest, fun k hk other hlive => hother k hk other (old hlive)⟩
  · exact fun j scope hscope => lexical.active j scope (old hscope)
  · intro e f locations hf hl
    obtain ⟨hc, hfill, hloc⟩ := lexical.indexed e f locations hf hl
    exact ⟨hc, fun R hr hR => hfill R hr (filling hR), hloc⟩

/-- **A scope is entered**: it sees what its map says, no open frame of another activation is on its chain, and a frame
that it extends in place is on no other chain. -/
theorem Lexical.push (lexical : s.Lexical) {i : ℕ} {outer : List (Scope V T)} {scope : Scope V T}
    (hi : s.activations i = outer) (sees : s.Sees scope.toView) (owns : s.Owns scope.toView)
    (mine : s.heap.Open scope.environment → ∀ view, s.Views view → ¬ s.heap.Reaches view.environment scope.environment)
    (others : ∀ j, j ≠ i → ∀ other ∈ s.activations j, s.heap.Open other.environment →
      ¬ s.heap.Reaches scope.environment other.environment)
    (active : ∀ source R, scope.active = some (source, R) → s.heap.Reaches scope.environment R ∧ s.heap.Recursive R)
    (complete : ∀ source R, scope.active = some (source, R) → ∀ e f locations, s.heap.frames e = some f →
      f.nameLocations = some locations → ¬ s.heap.Reaches e R) :
    (s.activate i (scope :: outer) s.heap).Lexical := by
  have cases_of : ∀ {j sc}, sc ∈ (s.activate i (scope :: outer) s.heap).activations j →
      j = i ∧ sc = scope ∨ sc ∈ s.activations j := by
    intro j sc hsc
    by_cases hj : j = i
    · subst hj
      rw [activate_self] at hsc
      rcases List.mem_cons.1 hsc with rfl | hsc
      · exact .inl ⟨rfl, rfl⟩
      · exact .inr (hi ▸ hsc)
    · rw [activate_of_ne s hj] at hsc
      exact .inr hsc
  constructor
  · exact lexical.ordered
  · exact lexical.upward
  · intro view hview
    cases hview with
    | scope hsc =>
      rcases cases_of hsc with ⟨_, rfl⟩ | hsc
      · exact sees
      · exact lexical.sees _ (.scope hsc)
    | held hheld => exact lexical.sees view (.held hheld)
  · exact lexical.held
  · exact lexical.groups
  · exact lexical.members
  · intro j sc hsc
    rcases cases_of hsc with ⟨_, rfl⟩ | hsc
    · exact owns
    · exact lexical.owns j sc hsc
  · intro j above sc rest hj ho
    change s.heap.Open sc.environment at ho
    by_cases hji : j = i
    · subst hji
      rw [activate_self] at hj
      cases above with
      | nil =>
        -- the new scope itself
        obtain ⟨rfl, rfl⟩ := List.cons.inj hj
        refine ⟨fun other hother => mine ho _ (.scope (hi ▸ hother)), fun k hk other hother => ?_⟩
        rw [activate_of_ne s hk] at hother
        exact mine ho _ (.scope hother)
      | cons top above =>
        obtain ⟨rfl, hrest⟩ := List.cons.inj hj
        obtain ⟨hbelow, hother⟩ := lexical.apart j above sc rest (hi.trans hrest) ho
        refine ⟨hbelow, fun k hk other hlive => ?_⟩
        rw [activate_of_ne s hk] at hlive
        exact hother k hk other hlive
    · rw [activate_of_ne s hji] at hj
      obtain ⟨hbelow, hother⟩ := lexical.apart j above sc rest hj ho
      refine ⟨hbelow, fun k hk other hlive => ?_⟩
      rcases cases_of hlive with ⟨rfl, rfl⟩ | hlive
      · exact others j hji sc (by rw [hj]; simp) ho
      · exact hother k hk other hlive
  · intro j sc hsc source R ha
    rcases cases_of hsc with ⟨_, rfl⟩ | hsc
    · exact active source R ha
    · exact lexical.active j sc hsc source R ha
  · intro e f locations hf hl
    obtain ⟨hc, hfill, hloc⟩ := lexical.indexed e f locations hf hl
    refine ⟨hc, fun R hr hR => ?_, hloc⟩
    obtain ⟨j, sc, source, hsc, ha⟩ := hR
    rcases cases_of hsc with ⟨_, rfl⟩ | hsc
    · exact complete source R ha e f locations hf hl hr
    · exact hfill R hr ⟨j, sc, source, hsc, ha⟩

end State

/-! ### Frames are allocated, extended, filled and freed -/

namespace Heap

theorem alloc_self (h : Heap V T) (f : Frame V T) : (h.alloc f).2.frames h.next = some f := by
  simp [alloc]

theorem alloc_of_ne (f : Frame V T) (hne : x ≠ h.next) : (h.alloc f).2.frames x = h.frames x := by
  simp [alloc, hne]

theorem Ordered.ne_next (ordered : h.Ordered) (hx : ∃ f, h.frames x = some f) : x ≠ h.next := by
  obtain ⟨f, hf⟩ := hx
  exact Nat.ne_of_lt (ordered.bounded x f hf)

theorem alloc_same (ordered : h.Ordered) (f : Frame V T) (he : ∃ g, h.frames e = some g) :
    h.SameAlong (h.alloc f).2 e := by
  intro x hr
  rw [alloc_of_ne f (ordered.ne_next (ordered.reaches_present hr he))]

theorem alloc_ordered (ordered : h.Ordered) (hp : ∀ p, f.parent = some p → ∃ g, h.frames p = some g) :
    (h.alloc f).2.Ordered := by
  constructor
  · intro e g hg
    by_cases he : e = h.next
    · rw [he]
      exact Nat.lt_succ_self _
    · rw [alloc_of_ne f he] at hg
      exact Nat.lt_succ_of_lt (ordered.bounded e g hg)
  · intro e g p hg hgp
    have present : ∀ {q}, (∃ g, h.frames q = some g) → ∃ g, (h.alloc f).2.frames q = some g := by
      intro q hq
      rwa [alloc_of_ne f (ordered.ne_next hq)]
    by_cases he : e = h.next
    · rw [he, alloc_self, Option.some.injEq] at hg
      rw [← hg] at hgp
      obtain ⟨q, hq⟩ := hp p hgp
      exact ⟨he ▸ ordered.bounded p q hq, present ⟨q, hq⟩⟩
    · rw [alloc_of_ne f he] at hg
      obtain ⟨hlt, hq⟩ := ordered.parent e g p hg hgp
      exact ⟨hlt, present hq⟩

theorem alloc_reaches (ordered : h.Ordered) (hp : ∀ p, f.parent = some p → ∃ g, h.frames p = some g)
    (hr : (h.alloc f).2.Reaches h.next x) : x = h.next ∨ ∃ p, f.parent = some p ∧ h.Reaches p x := by
  rcases ReflTransGen.cases_head hr with rfl | ⟨p, ⟨g, hg, hgp⟩, hpx⟩
  · exact .inl rfl
  · rw [alloc_self, Option.some.injEq] at hg
    rw [← hg] at hgp
    exact .inr ⟨p, hgp, (alloc_same ordered f (hp p hgp)).reaches.1 hpx⟩

theorem alloc_members (f : Frame V T) :
    (h.alloc f).2.members x = if x = h.next then f.recursiveBindings.getD [] else h.members x := by
  unfold members
  by_cases hx : x = h.next
  · rw [if_pos hx, hx, alloc_self]
    rfl
  · rw [if_neg hx, alloc_of_ne f hx]

end Heap

namespace State

variable {s t : State V T} {view : View V T}

/-- **A new frame** that nothing refers to yet. -/
theorem Lexical.alloc (lexical : s.Lexical) (hp : ∀ p, f.parent = some p → ∃ g, s.heap.frames p = some g)
    (fresh : f.captured = false ∧ f.nameLocations = none) (members : Members T) (groups : ℕ → Option (View V T))
    (hmembers : ∀ e, members e = if e = s.heap.next then f.recursiveBindings.getD [] else s.members e)
    (hgroups : ∀ e, e ≠ s.heap.next → groups e = s.groups e)
    (named : ∀ group, groups s.heap.next = some group → group.environment = s.heap.next) :
    ({ s with heap := (s.heap.alloc f).2, members := members, groups := groups } : State V T).Lexical := by
  have present : ∀ {view}, s.Views view → ∃ g, s.heap.frames view.environment = some g :=
    fun live => (lexical.sees _ live).1.1
  have same : ∀ {view}, s.Views view → s.heap.SameAlong (s.heap.alloc f).2 view.environment :=
    fun live => alloc_same lexical.ordered f (present live)
  have opened : ∀ {e}, e ≠ s.heap.next → (s.heap.alloc f).2.Open e → s.heap.Open e := by
    rintro e he ⟨g, hg, ho⟩
    exact ⟨g, (alloc_of_ne f he).symm.trans hg, ho⟩
  constructor
  · exact alloc_ordered lexical.ordered hp
  · rintro x y ⟨g, hg, hc⟩ hxy
    by_cases hx : x = s.heap.next
    · rw [hx, alloc_self, Option.some.injEq] at hg
      rw [← hg, fresh.1] at hc
      cases hc
    · have hold : (s.heap.alloc f).2.frames x = s.heap.frames x := alloc_of_ne f hx
      obtain ⟨k, hk, hkc⟩ := lexical.upward x y ⟨g, hold.symm.trans hg, hc⟩
        ((parent_of_lexical (by rw [hold])).1 hxy)
      exact ⟨k, (alloc_of_ne f (lexical.ordered.ne_next ⟨k, hk⟩)).trans hk, hkc⟩
  · intro view live
    have live : s.Views view := live.of_same rfl rfl
    refine (lexical.sees view live).transport (same live) lexical.groups fun R hr => ?_
    exact hgroups R (lexical.ordered.ne_next (lexical.ordered.reaches_present hr (present live)))
  · intro view live
    obtain ⟨g, hg, hc⟩ := lexical.held view live
    exact ⟨g, (alloc_of_ne f (lexical.ordered.ne_next ⟨g, hg⟩)).trans hg, hc⟩
  · intro R group hg
    by_cases hR : R = s.heap.next
    · subst hR
      exact named group hg
    · exact lexical.groups R group (by rw [← hgroups R hR]; exact hg)
  · intro e he
    refine (hmembers e).trans ?_
    rw [alloc_members]
    by_cases hn : e = s.heap.next
    · rw [if_pos hn, if_pos hn]
    · rw [if_neg hn, if_neg hn]
      refine lexical.members e ?_
      rcases he with he | he
      · exact .inl (Nat.le_of_succ_le he)
      · exact .inr (by rwa [alloc_of_ne f hn] at he)
  · intro i scope live g hg hc hr n hn
    rw [alloc_of_ne f (lexical.ordered.ne_next (present (.scope live)))] at hg
    exact lexical.owns i scope live g hg hc hr n hn
  · intro i above scope outer hi ho
    have hscope : scope ∈ s.activations i := by
      rw [show s.activations i = above ++ scope :: outer from hi]
      simp
    obtain ⟨hbelow, hother⟩ := lexical.apart i above scope outer hi
      (opened (lexical.ordered.ne_next (present (.scope hscope))) ho)
    refine ⟨fun other hlive => ?_, fun j hj other hlive => ?_⟩
    · have hin : other ∈ s.activations i := by
        rw [show s.activations i = above ++ scope :: outer from hi]
        simp [hlive]
      rw [(same (.scope hin)).reaches]
      exact hbelow other hlive
    · rw [(same (.scope hlive)).reaches]
      exact hother j hj other hlive
  · intro i scope live source R ha
    obtain ⟨hr, hrec⟩ := lexical.active i scope live source R ha
    have hsame := same (.scope live)
    exact ⟨hsame.reaches.2 hr, (recursive_of_lexical (hsame R hr)).2 hrec⟩
  · intro e g locations hg hl
    by_cases he : e = s.heap.next
    · rw [he, alloc_self, Option.some.injEq] at hg
      rw [← hg, fresh.2] at hl
      cases hl
    · rw [alloc_of_ne f he] at hg
      obtain ⟨hc, hfill, hloc⟩ := lexical.indexed e g locations hg hl
      have hsame := alloc_same lexical.ordered f ⟨g, hg⟩
      refine ⟨hc, fun R hr => hfill R (hsame.reaches.1 hr), fun n => ?_⟩
      rw [hloc n]
      refine congrArg (Option.map _) (Eq.symm (meaning_congr fun x hx => ⟨hsame x hx, ?_⟩))
      rw [alloc_members, if_neg (lexical.ordered.ne_next (lexical.ordered.reaches_present hx ⟨g, hg⟩))]

/-- **A frame is extended in place** while no environment that is looked at has it on its chain. -/
theorem Lexical.extend (lexical : s.Lexical) (write : Frame V T → Frame V T) (ho : s.heap.Open e)
    (unseen : ∀ view, s.Views view → ¬ s.heap.Reaches view.environment e)
    (kept : ∀ f, (write f).parent = f.parent ∧ (write f).recursiveBindings = f.recursiveBindings ∧
      (write f).captured = f.captured ∧ (write f).nameLocations = f.nameLocations) :
    ({ s with heap := s.heap.modify e write } : State V T).Lexical := by
  have hreach : (s.heap.modify e write).Reaches = s.heap.Reaches := reaches_modify fun f => (kept f).1
  have hparent : (s.heap.modify e write).Parent = s.heap.Parent := parent_modify fun f => (kept f).1
  have same : ∀ {a}, ¬ s.heap.Reaches a e → s.heap.SameAlong (s.heap.modify e write) a := by
    intro a ha x hx
    have hne : x ≠ e := by
      rintro rfl
      exact ha hx
    rw [modify_of_ne write hne]
  have present : ∀ {x}, (∃ g, s.heap.frames x = some g) → ∃ g, (s.heap.modify e write).frames x = some g := by
    rintro x ⟨g, hg⟩
    by_cases hx : x = e
    · subst hx
      exact ⟨write g, by rw [modify_self, hg]; rfl⟩
    · exact ⟨g, (modify_of_ne write hx).trans hg⟩
  have hmembers : ∀ x, (s.heap.modify e write).members x = s.heap.members x := by
    intro x
    unfold Heap.members
    by_cases hx : x = e
    · rw [hx, modify_self]
      cases s.heap.frames e with
      | none => rfl
      | some f => simp [(kept f).2.1]
    · rw [modify_of_ne write hx]
  have lives : ∀ {view}, ({ s with heap := s.heap.modify e write } : State V T).Views view → s.Views view :=
    fun live => live.of_same rfl rfl
  constructor
  · constructor
    · intro x f hf
      obtain ⟨g, hg, _⟩ := read_modify hf
      exact lexical.ordered.bounded x g hg
    · intro x f p hf hp
      have hxp : (s.heap.modify e write).Parent x p := ⟨f, hf, hp⟩
      rw [hparent] at hxp
      obtain ⟨g, hg, hgp⟩ := hxp
      obtain ⟨hlt, hq⟩ := lexical.ordered.parent x g p hg hgp
      exact ⟨hlt, present hq⟩
  · exact modify_upward (fun f => (kept f).1) (fun f => (kept f).2.2.1) lexical.upward
  · intro view live
    exact (lexical.sees view (lives live)).transport (same (unseen view (lives live))) lexical.groups fun _ _ => rfl
  · intro view live
    obtain ⟨g, hg, hc⟩ := lexical.held view live
    by_cases hx : view.environment = e
    · exact absurd (hx ▸ .refl) (unseen view (.held live))
    · exact ⟨g, (modify_of_ne write hx).trans hg, hc⟩
  · exact lexical.groups
  · intro x hx
    rw [hmembers, ← lexical.members x]
    refine hx.imp_right fun hx => ?_
    obtain ⟨f, hf⟩ := hx
    obtain ⟨g, hg, _⟩ := read_modify hf
    exact ⟨g, hg⟩
  · intro i scope live f hf
    have hne : scope.environment ≠ e := fun heq => unseen _ (.scope live) (heq ▸ .refl)
    rw [modify_of_ne write hne] at hf
    exact lexical.owns i scope live f hf
  · intro i above scope outer hi hopen
    have live : scope ∈ s.activations i := by
      rw [show s.activations i = above ++ scope :: outer from hi]
      simp
    have hne : scope.environment ≠ e := fun heq => unseen _ (.scope live) (heq ▸ .refl)
    obtain ⟨g, hg, hrest⟩ := hopen
    rw [modify_of_ne write hne] at hg
    rw [hreach]
    exact lexical.apart i above scope outer hi ⟨g, hg, hrest⟩
  · intro i scope live source R ha
    obtain ⟨hr, hrec⟩ := lexical.active i scope live source R ha
    rw [hreach]
    exact ⟨hr, (recursive_of_lexical (same (unseen _ (.scope live)) R hr)).2 hrec⟩
  · intro x f locations hf hl
    have hne : x ≠ e := by
      rintro rfl
      obtain ⟨g, hg, ⟨hx, _⟩ | ⟨_, rfl⟩⟩ := read_modify hf
      · exact hx rfl
      · rw [(kept g).2.2.2] at hl
        exact Sealed.not_open ⟨g, hg, (lexical.indexed x g locations hg hl).1⟩ ho
    rw [modify_of_ne write hne] at hf
    obtain ⟨hc, hfill, hloc⟩ := lexical.indexed x f locations hf hl
    -- the chain of an indexed frame is captured, so the frame that is extended is not on it
    have hx : ¬ s.heap.Reaches x e := fun hr => (lexical.upward.reaches ⟨f, hf, hc⟩ hr).not_open ho
    rw [hreach]
    refine ⟨hc, hfill, fun n => ?_⟩
    rw [hloc n]
    exact congrArg (Option.map _) (Eq.symm (meaning_congr fun y hy => ⟨same hx y hy, hmembers y⟩))

/-- **A member joins its group**, which no indexed environment has on its chain. -/
theorem Lexical.fill (lexical : s.Lexical) {R : ℕ} (closures : Table String T) {write : Frame V T → Frame V T}
    (hR : s.heap.Recursive R) (filling : s.Filling R)
    (writes : ∀ f, (write f).lexical = (f.names, f.opens, f.parent, true) ∧
      (write f).recursiveBindings = some closures ∧ (write f).captured = f.captured ∧
      (write f).nameLocations = f.nameLocations) :
    ({ s with heap := s.heap.modify R write
              members := Function.update s.members R closures } : State V T).Lexical := by
  obtain ⟨r, hr, hrec⟩ := hR
  have parent : ∀ f, (write f).parent = f.parent := fun f => congrArg (·.2.2.1) (writes f).1
  have hreach : (s.heap.modify R write).Reaches = s.heap.Reaches := reaches_modify parent
  have hparent : (s.heap.modify R write).Parent = s.heap.Parent := parent_modify parent
  have same : ∀ x, ((s.heap.modify R write).frames x).map Frame.lexical = (s.heap.frames x).map Frame.lexical := by
    intro x
    by_cases hx : x = R
    · rw [hx, modify_self, hr]
      simp only [Option.map_some, (writes r).1]
      rw [Frame.lexical, hrec]
    · rw [modify_of_ne write hx]
  have along : ∀ a, s.heap.SameAlong (s.heap.modify R write) a := fun _ x _ => same x
  have members_of_ne : ∀ {x}, x ≠ R → (s.heap.modify R write).members x = s.heap.members x := by
    intro x hx
    unfold Heap.members
    rw [modify_of_ne write hx]
  constructor
  · constructor
    · intro x f hf
      obtain ⟨g, hg, _⟩ := read_modify hf
      exact lexical.ordered.bounded x g hg
    · intro x f p hf hp
      have hxp : (s.heap.modify R write).Parent x p := ⟨f, hf, hp⟩
      rw [hparent] at hxp
      obtain ⟨g, hg, hgp⟩ := hxp
      obtain ⟨hlt, hq⟩ := lexical.ordered.parent x g p hg hgp
      exact ⟨hlt, (present_of_lexical (same p)).2 hq⟩
  · exact modify_upward parent (fun f => (writes f).2.2.1) lexical.upward
  · intro view live
    have live : s.Views view := live.of_same rfl rfl
    exact (lexical.sees view live).transport (along _) lexical.groups fun _ _ => rfl
  · intro view live
    obtain ⟨g, hg, hc⟩ := lexical.held view live
    by_cases hx : view.environment = R
    · rw [hx] at hg ⊢
      exact ⟨write g, by rw [modify_self, hg]; rfl, (writes g).2.2.1.trans hc⟩
    · exact ⟨g, (modify_of_ne write hx).trans hg, hc⟩
  · exact lexical.groups
  · intro x hx
    by_cases hxR : x = R
    · subst hxR
      simp [Heap.members, hr, (writes r).2.1]
    · rw [members_of_ne hxR, ← lexical.members x]
      · exact Function.update_of_ne hxR ..
      · exact hx.imp_right (present_of_lexical (same x)).1
  · intro i scope live f hf hc hn n hplain
    obtain ⟨g, hg, ⟨_, rfl⟩ | ⟨_, rfl⟩⟩ := read_modify hf
    · exact lexical.owns i scope live f hg hc hn n hplain
    · rw [(writes g).2.1] at hn
      cases hn
  · intro i above scope outer hi ho
    obtain ⟨f, hf, hc, hn⟩ := ho
    obtain ⟨g, hg, ⟨_, rfl⟩ | ⟨_, rfl⟩⟩ := read_modify hf
    · rw [hreach]
      exact lexical.apart i above scope outer hi ⟨f, hg, hc, hn⟩
    · rw [(writes g).2.1] at hn
      cases hn
  · intro i scope live source R' ha
    obtain ⟨hr', hrec'⟩ := lexical.active i scope live source R' ha
    rw [hreach]
    exact ⟨hr', (recursive_of_lexical (same R')).2 hrec'⟩
  · intro x f locations hf hl
    have old : ∃ g, s.heap.frames x = some g ∧ g.nameLocations = some locations ∧ f.captured = g.captured := by
      obtain ⟨g, hg, ⟨_, rfl⟩ | ⟨_, rfl⟩⟩ := read_modify hf
      · exact ⟨f, hg, hl, rfl⟩
      · exact ⟨g, hg, (writes g).2.2.2.symm.trans hl, (writes g).2.2.1⟩
    obtain ⟨g, hg, hgl, hcap⟩ := old
    obtain ⟨hc, hfill, hloc⟩ := lexical.indexed x g locations hg hgl
    rw [hreach]
    refine ⟨hcap.trans hc, hfill, fun n => ?_⟩
    rw [hloc n]
    refine congrArg (Option.map _) (Eq.symm (meaning_congr fun y hy => ⟨same y, members_of_ne ?_⟩))
    rintro rfl
    exact hfill y hy filling

/-- **A frame without references is freed.** -/
theorem Lexical.collect (lexical : s.Lexical) (unheld : ∀ view, s.Views view → view.environment ≠ e)
    (childless : ∀ child, ¬ s.heap.Parent child e) :
    ({ s with heap := s.heap.free e } : State V T).Lexical := by
  have kept : ∀ {x}, x ≠ e → (s.heap.free e).frames x = s.heap.frames x := fun hx => Function.update_of_ne hx ..
  have gone : (s.heap.free e).frames e = none := Function.update_self ..
  have read : ∀ {x f}, (s.heap.free e).frames x = some f → x ≠ e ∧ s.heap.frames x = some f := by
    intro x f hf
    have hx : x ≠ e := by
      rintro rfl
      rw [gone] at hf
      cases hf
    exact ⟨hx, (kept hx).symm.trans hf⟩
  have unreached : ∀ {a x}, a ≠ e → s.heap.Reaches a x → x ≠ e := by
    intro a x ha hr
    rcases ReflTransGen.cases_tail hr with rfl | ⟨y, _, hy⟩
    · exact ha
    · rintro rfl
      exact childless y hy
  have same : ∀ {a}, a ≠ e → s.heap.SameAlong (s.heap.free e) a := by
    intro a ha x hx
    rw [kept (unreached ha hx)]
  have lives : ∀ {view}, ({ s with heap := s.heap.free e } : State V T).Views view → s.Views view :=
    fun live => live.of_same rfl rfl
  constructor
  · constructor
    · intro x f hf
      exact lexical.ordered.bounded x f (read hf).2
    · intro x f p hf hp
      obtain ⟨hlt, g, hg⟩ := lexical.ordered.parent x f p (read hf).2 hp
      refine ⟨hlt, g, (kept ?_).trans hg⟩
      rintro rfl
      exact childless x ⟨f, (read hf).2, hp⟩
  · rintro x y ⟨f, hf, hc⟩ ⟨g, hg, hp⟩
    obtain ⟨k, hk, hkc⟩ := lexical.upward x y ⟨f, (read hf).2, hc⟩ ⟨g, (read hg).2, hp⟩
    refine ⟨k, (kept ?_).trans hk, hkc⟩
    rintro rfl
    exact childless x ⟨g, (read hg).2, hp⟩
  · intro view live
    exact (lexical.sees view (lives live)).transport (same (unheld view (lives live))) lexical.groups fun _ _ => rfl
  · intro view live
    obtain ⟨g, hg, hc⟩ := lexical.held view live
    exact ⟨g, (kept (unheld view (.held live))).trans hg, hc⟩
  · exact lexical.groups
  · intro x hx
    rw [lexical.members x (hx.imp_right fun ⟨f, hf⟩ => ⟨f, (read hf).2⟩)]
    unfold Heap.members
    by_cases hxe : x = e
    · subst hxe
      -- a place that is still to be allocated holds no frame
      have absent : s.heap.frames x = none := by
        rcases hx with hx | ⟨f, hf⟩
        · by_contra hsome
          obtain ⟨f, hf⟩ := Option.ne_none_iff_exists'.1 hsome
          exact absurd (lexical.ordered.bounded x f hf) (Nat.not_lt.2 hx)
        · exact absurd rfl (read hf).1
      rw [gone, absent]
    · rw [kept hxe]
  · intro i scope live f hf
    exact lexical.owns i scope live f (read hf).2
  · intro i above scope outer hi ho
    have live : ∀ {other}, other ∈ scope :: outer → other ∈ s.activations i := by
      intro other hother
      rw [show s.activations i = above ++ scope :: outer from hi]
      exact List.mem_append_right above hother
    obtain ⟨f, hf, hrest⟩ := ho
    obtain ⟨hbelow, hother⟩ := lexical.apart i above scope outer hi ⟨f, (read hf).2, hrest⟩
    refine ⟨fun other hlive => ?_, fun j hj other hlive => ?_⟩
    · rw [(same (unheld _ (.scope (live (List.mem_cons_of_mem _ hlive))))).reaches]
      exact hbelow other hlive
    · rw [(same (unheld _ (.scope hlive))).reaches]
      exact hother j hj other hlive
  · intro i scope live source R ha
    obtain ⟨hr, hrec⟩ := lexical.active i scope live source R ha
    have hsame := same (unheld _ (.scope live))
    exact ⟨hsame.reaches.2 hr, (recursive_of_lexical (hsame R hr)).2 hrec⟩
  · intro x f locations hf hl
    obtain ⟨hx, hf⟩ := read hf
    obtain ⟨hc, hfill, hloc⟩ := lexical.indexed x f locations hf hl
    refine ⟨hc, fun R hr => hfill R ((same hx).reaches.1 hr), fun n => ?_⟩
    rw [hloc n]
    refine congrArg (Option.map _) (Eq.symm (meaning_congr fun y hy => ⟨same hx y hy, ?_⟩))
    unfold Heap.members
    rw [kept (unreached hx hy)]

end State

end Blot.Environment
