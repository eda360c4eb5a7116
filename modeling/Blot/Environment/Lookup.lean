import Mathlib.Logic.Relation
import Blot.Environment.Frames

/-!
# What an environment means

The lexical meaning of a frame, from its chain alone and for any contents of the recursive groups; a lookup, indexed
or not, finds what the meaning says.
-/

namespace Blot.Environment

open Support Relation

variable {V T : Type} {h h' : Heap V T} {e p x : ℕ} {f : Frame V T} {n : String}

/-- The members of every recursive group, by the group's frame. -/
abbrev Members (T : Type) := ℕ → Table String T

namespace Frame

def withMembers (frame : Frame V T) (members : Table String T) : Frame V T :=
  { frame with recursiveBindings := frame.recursiveBindings.map fun _ => members }

def lexical (frame : Frame V T) : Table String V × List (Table String V) × Option ℕ × Bool :=
  (frame.names, frame.opens, frame.parent, frame.recursiveBindings.isSome)

theorem own_withMembers {f f' : Frame V T} (same : f'.lexical = f.lexical) (members : Table String T) (e : ℕ)
    (n : String) : (f'.withMembers members).own e n = (f.withMembers members).own e n := by
  simp only [lexical, Prod.mk.injEq] at same
  obtain ⟨hnames, hopens, _, hrec⟩ := same
  have hgroup : f'.recursiveBindings.map (fun _ => members) = f.recursiveBindings.map fun _ => members := by
    cases h : f.recursiveBindings <;> cases h' : f'.recursiveBindings <;> simp_all
  simp only [own, withMembers, hnames, hopens, hgroup]

end Frame

namespace Heap

def members (h : Heap V T) : Members T := fun e => ((h.frames e).bind (·.recursiveBindings)).getD []

theorem withMembers_members (hf : h.frames e = some f) : f.withMembers (h.members e) = f := by
  have : f.recursiveBindings.map (fun _ => h.members e) = f.recursiveBindings := by
    unfold members
    rw [hf, Option.bind_some]
    cases f.recursiveBindings <;> rfl
  unfold Frame.withMembers
  rw [this]

/-- **The meaning of an environment**: the nearest binding of a name, with the frame that has it. -/
def meaning (h : Heap V T) (environment : ℕ) (members : Members T) (name : String) : Option (ℕ × Binding V T) :=
  match h.frames environment with
  | none => none
  | some frame =>
    match (frame.withMembers (members environment)).own environment name with
    | some binding => some (environment, binding)
    | none =>
      match frame.parent with
      | none => none
      | some parent => if parent < environment then h.meaning parent members name else none
termination_by environment

structure Ordered (h : Heap V T) : Prop where
  bounded : ∀ e f, h.frames e = some f → e < h.next
  parent : ∀ e f p, h.frames e = some f → f.parent = some p → p < e ∧ ∃ g, h.frames p = some g

/-- `parent` is the parent of `environment`. -/
def Parent (h : Heap V T) (environment parent : ℕ) : Prop :=
  ∃ frame, h.frames environment = some frame ∧ frame.parent = some parent

abbrev Reaches (h : Heap V T) : ℕ → ℕ → Prop := ReflTransGen h.Parent

theorem Ordered.reaches_le (ordered : h.Ordered) (hr : h.Reaches e x) : x ≤ e := by
  induction hr with
  | refl => exact Nat.le_refl _
  | tail _ hp ih =>
    obtain ⟨f, hf, hp⟩ := hp
    have := (ordered.parent _ f _ hf hp).1
    omega

theorem Ordered.reaches_present (ordered : h.Ordered) (hr : h.Reaches e x) (he : ∃ f, h.frames e = some f) :
    ∃ f, h.frames x = some f := by
  induction hr with
  | refl => exact he
  | tail _ hp _ =>
    obtain ⟨f, hf, hp⟩ := hp
    exact (ordered.parent _ f _ hf hp).2

theorem meaning_root {members : Members T} (hf : h.frames e = some f) (hp : f.parent = none) :
    h.meaning e members n = ((f.withMembers (members e)).own e n).map (e, ·) := by
  rw [meaning, hf]
  cases ho : (f.withMembers (members e)).own e n <;> simp [ho, hp]

theorem meaning_child {members : Members T} (ordered : h.Ordered) (hf : h.frames e = some f)
    (hp : f.parent = some p) :
    h.meaning e members n = (((f.withMembers (members e)).own e n).map (e, ·)).or (h.meaning p members n) := by
  have hlt := (ordered.parent e f p hf hp).1
  conv_lhs => rw [meaning, hf]
  cases ho : (f.withMembers (members e)).own e n <;> simp [ho, hp, hlt]

/-- **The frame rule**: the meaning depends on what a lookup reads of the chain, and on the groups of the chain. -/
theorem meaning_congr {members members' : Members T}
    (same : ∀ x, h.Reaches e x → (h'.frames x).map Frame.lexical = (h.frames x).map Frame.lexical ∧
      members' x = members x) : h'.meaning e members' n = h.meaning e members n := by
  induction e using Nat.strongRecOn with
  | ind e ih =>
    obtain ⟨hlex, hmem⟩ := same e .refl
    rw [meaning, meaning.eq_def h]
    cases hf : h.frames e with
    | none =>
      rw [hf, Option.map_none, Option.map_eq_none_iff] at hlex
      rw [hlex]
    | some f =>
      rw [hf, Option.map_some, Option.map_eq_some_iff] at hlex
      obtain ⟨f', hf', hlex⟩ := hlex
      have hparent : f'.parent = f.parent := congrArg (·.2.2.1) hlex
      simp only [hf', hmem, Frame.own_withMembers hlex, hparent]
      cases (f.withMembers (members e)).own e n with
      | some b => rfl
      | none =>
        cases hp : f.parent with
        | none => rfl
        | some p =>
          dsimp only
          by_cases hlt : p < e
          · rw [if_pos hlt, if_pos hlt]
            exact ih p hlt fun x hx => same x (.head ⟨f, hf, hp⟩ hx)
          · rw [if_neg hlt, if_neg hlt]

theorem meaning_owner {members : Members T} {o : ℕ} {b : Binding V T} (hm : h.meaning e members n = some (o, b)) :
    h.Reaches e o ∧ ∃ f, h.frames o = some f ∧ (f.withMembers (members o)).own o n = some b := by
  induction e using Nat.strongRecOn with
  | ind e ih =>
    rw [meaning] at hm
    cases hf : h.frames e with
    | none => simp [hf] at hm
    | some f =>
      rw [hf] at hm
      cases ho : (f.withMembers (members e)).own e n with
      | some b' =>
        simp only [ho, Option.some.injEq, Prod.mk.injEq] at hm
        obtain ⟨rfl, rfl⟩ := hm
        exact ⟨.refl, f, hf, ho⟩
      | none =>
        cases hp : f.parent with
        | none => simp [ho, hp] at hm
        | some p =>
          by_cases hlt : p < e
          · simp only [ho, hp, if_pos hlt] at hm
            obtain ⟨hr, hown⟩ := ih p hlt hm
            exact ⟨.head ⟨f, hf, hp⟩ hr, hown⟩
          · simp [ho, hp, hlt] at hm

/-! ### Lookup -/

/-- Every name index says which frame of its chain binds a name first. -/
def Indexed (h : Heap V T) : Prop :=
  ∀ e f locations, h.frames e = some f → f.nameLocations = some locations →
    ∀ n, locations.lookup n = (h.meaning e h.members n).map (·.1)

def observedAt (h : Heap V T) : Option (ℕ × Binding V T) → Heap V T
  | none => h
  | some (_, binding) => h.observed binding

theorem findFrom_eq (ordered : h.Ordered) (indexed : h.Indexed) {fuel : ℕ} (hfuel : e < fuel)
    (he : ∃ f, h.frames e = some f) :
    findFrom n fuel h (some e) =
      .ok ((h.meaning e h.members n).map (·.2), h.observedAt (h.meaning e h.members n)) := by
  induction fuel generalizing e with
  | zero => omega
  | succ fuel ih =>
    obtain ⟨f, hf⟩ := he
    rw [findFrom, hf]
    dsimp only
    cases hi : f.nameLocations with
    | some locations =>
      dsimp only
      rw [indexed e f locations hf hi n]
      cases hm : h.meaning e h.members n with
      | none => rfl
      | some found =>
        obtain ⟨o, b⟩ := found
        obtain ⟨_, g, hg, hb⟩ := meaning_owner hm
        rw [withMembers_members hg] at hb
        simp [hg, hb, observedAt]
    | none =>
      dsimp only
      have hown := withMembers_members hf
      cases hp : f.parent with
      | none =>
        rw [meaning_root hf hp, hown]
        cases f.own e n with
        | some b => rfl
        | none => cases fuel <;> rfl
      | some p =>
        obtain ⟨hlt, hpresent⟩ := ordered.parent e f p hf hp
        rw [meaning_child ordered hf hp, hown]
        cases f.own e n with
        | some b => rfl
        | none =>
          simp only [Option.map_none, Option.none_or]
          exact ih (by omega) hpresent

/-- **A lookup finds what the environment means**, and neither the `expect` nor the `assert` fires. -/
theorem findBinding_eq (ordered : h.Ordered) (indexed : h.Indexed) (he : ∃ f, h.frames e = some f) :
    h.findBinding e n = .ok ((h.meaning e h.members n).map (·.2), h.observedAt (h.meaning e h.members n)) :=
  findFrom_eq ordered indexed (Nat.lt_succ_self e) he

end Heap

end Blot.Environment
