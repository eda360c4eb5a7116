import Mathlib.Data.Prod.Lex
import Mathlib.Order.Interval.Finset.Nat
import Blot.Support.Minima
import Blot.Relational.Entailment

/-!
# Forgetting an identity (`relational_proof.rs`)

A node that goes out of scope is eliminated: each of its upper bounds is combined with each of its lower bounds.
-/

namespace Blot.Relational

open Support

/-- The place of a node in the order: `Zero`, then the identities. -/
def Node.rank : Node → ℕ
  | .zero => 0
  | .ident identity => identity + 1

theorem Node.rank_injective : Function.Injective Node.rank := by
  intro a b h
  cases a <;> cases b <;> simp_all [rank]

instance : LinearOrder Node := LinearOrder.lift' Node.rank Node.rank_injective

/-- What `forget_identity` gathers: the least bounds of the dead node above each other node, of each other node above
the dead one, and between the others. -/
structure Elimination where
  intoDead : Minima Node
  fromDead : Minima Node
  projected : Minima (Node ×ₗ Node)

def Elimination.gather (dead : Node) (g : Elimination) (c : Constraint) : Elimination :=
  if c.left = dead ∧ c.right ≠ dead then { g with intoDead := g.intoDead.lower c.right c.bound }
  else if c.right = dead ∧ c.left ≠ dead then { g with fromDead := g.fromDead.lower c.left c.bound }
  else if c.left = dead ∨ c.right = dead then g
  else { g with projected := g.projected.lower (toLex (c.left, c.right)) c.bound }

def combine (fromDead : Minima Node) (projected : Minima (Node ×ₗ Node)) (into : Node × ℤ) : Minima (Node ×ₗ Node) :=
  fromDead.entries.foldl (fun projected from_ =>
    if from_.1 = into.1 then projected else projected.lower (toLex (from_.1, into.1)) (into.2 + from_.2)) projected

def forgetIdentity (constraints : Constraints) (identity : Identity) : Constraints :=
  let dead := Node.ident identity
  if constraints.any fun c => decide (c.left = dead) || decide (c.right = dead) then
    let g := constraints.foldl (Elimination.gather dead) ⟨.empty, .empty, .empty⟩
    (g.intoDead.entries.foldl (combine g.fromDead) g.projected).entries.map fun p =>
      ⟨(ofLex p.1).1, (ofLex p.1).2, p.2⟩
  else constraints

/-- The identity does not occur. -/
def Avoids (identity : Identity) (constraints : Constraints) : Prop :=
  ∀ c ∈ constraints, c.left ≠ .ident identity ∧ c.right ≠ .ident identity

section Forget

variable {constraints : Constraints} {identity : Identity} {dead : Node} {d : Node → ℤ} {ν : Valuation}
  {g : Elimination}

def Elimination.Meets (g : Elimination) (dead : Node) (d : Node → ℤ) : Prop :=
  g.intoDead.Bounds (fun right => d dead - d right) ∧ g.fromDead.Bounds (fun left => d left - d dead) ∧
    g.projected.Bounds fun p => d (ofLex p).1 - d (ofLex p).2

structure Elimination.Clear (g : Elimination) (dead : Node) : Prop where
  intoDead : dead ∉ g.intoDead.entries.map Prod.fst
  fromDead : dead ∉ g.fromDead.entries.map Prod.fst
  projected : ∀ p ∈ g.projected.entries.map Prod.fst, (ofLex p).1 ≠ dead ∧ (ofLex p).2 ≠ dead

/-- Gathering keeps what a constraint says, but for a loop at the dead node. -/
theorem meets_gather (c : Constraint) : (g.gather dead c).Meets dead d ↔
    ((c.left ≠ dead ∨ c.right ≠ dead) → Difference.Holds d c) ∧ g.Meets dead d := by
  unfold Elimination.gather Elimination.Meets Difference.Holds
  split
  · next h =>
    rw [Minima.bounds_lower, h.1, and_assoc]
    simp [h.2]
  · split
    · next h =>
      rw [Minima.bounds_lower, h.1]
      simp only [h.2, ne_eq, not_false_eq_true, true_or, forall_const]
      tauto
    · split
      · next h₁ h₂ h =>
        have hboth : c.left = dead ∧ c.right = dead := by tauto
        simp [hboth]
      · next h =>
        rw [not_or] at h
        rw [Minima.bounds_lower]
        simp only [h, ne_eq, not_false_eq_true, true_or, forall_const, ofLex_toLex]
        tauto

theorem clear_gather (h : g.Clear dead) (c : Constraint) : (g.gather dead c).Clear dead := by
  unfold Elimination.gather
  split
  · next hc =>
    refine ⟨fun hmem => ?_, h.fromDead, h.projected⟩
    rcases Minima.mem_keys_lower.1 hmem with heq | hmem
    · exact hc.2 heq.symm
    · exact h.intoDead hmem
  · split
    · next hc =>
      refine ⟨h.intoDead, fun hmem => ?_, h.projected⟩
      rcases Minima.mem_keys_lower.1 hmem with heq | hmem
      · exact hc.2 heq.symm
      · exact h.fromDead hmem
    · split
      · exact h
      · next hc =>
        refine ⟨h.intoDead, h.fromDead, fun p hp => ?_⟩
        rcases Minima.mem_keys_lower.1 hp with rfl | hp
        · exact not_or.1 hc
        · exact h.projected p hp

theorem meets_foldl_gather : (constraints.foldl (Elimination.gather dead) g).Meets dead d ↔
    (∀ c ∈ constraints, (c.left ≠ dead ∨ c.right ≠ dead) → Difference.Holds d c) ∧ g.Meets dead d := by
  induction constraints generalizing g with
  | nil => simp
  | cons c constraints ih =>
    rw [List.foldl_cons, ih, meets_gather, List.forall_mem_cons]
    tauto

theorem clear_foldl_gather (h : g.Clear dead) : (constraints.foldl (Elimination.gather dead) g).Clear dead := by
  induction constraints generalizing g with
  | nil => exact h
  | cons c constraints ih => exact ih (clear_gather h c)

theorem bounds_combine {fromDead : Minima Node} {projected : Minima (Node ×ₗ Node)} {into : Node × ℤ} :
    (combine fromDead projected into).Bounds (fun p => d (ofLex p).1 - d (ofLex p).2) ↔
      (∀ p ∈ fromDead.entries, p.1 ≠ into.1 → d p.1 - d into.1 ≤ into.2 + p.2) ∧
        projected.Bounds fun p => d (ofLex p).1 - d (ofLex p).2 := by
  unfold combine
  induction fromDead.entries generalizing projected with
  | nil => simp
  | cons p entries ih =>
    rw [List.foldl_cons, ih, List.forall_mem_cons]
    by_cases h : p.1 = into.1
    · simp [h]
    · rw [if_neg h, Minima.bounds_lower]
      simp only [h, ne_eq, not_false_eq_true, forall_const, ofLex_toLex]
      tauto

theorem bounds_foldl_combine {fromDead : Minima Node} {projected : Minima (Node ×ₗ Node)} {intos : List (Node × ℤ)} :
    (intos.foldl (combine fromDead) projected).Bounds (fun p => d (ofLex p).1 - d (ofLex p).2) ↔
      (∀ q ∈ intos, ∀ p ∈ fromDead.entries, p.1 ≠ q.1 → d p.1 - d q.1 ≤ q.2 + p.2) ∧
        projected.Bounds fun p => d (ofLex p).1 - d (ofLex p).2 := by
  induction intos generalizing projected with
  | nil => simp
  | cons q intos ih =>
    rw [List.foldl_cons, ih, bounds_combine, List.forall_mem_cons]
    tauto

theorem keys_foldl_combine {fromDead : Minima Node} {projected : Minima (Node ×ₗ Node)} {intos : List (Node × ℤ)} :
    ∀ k ∈ (intos.foldl (combine fromDead) projected).entries.map Prod.fst, k ∈ projected.entries.map Prod.fst ∨
      (ofLex k).1 ∈ fromDead.entries.map Prod.fst ∧ (ofLex k).2 ∈ intos.map Prod.fst := by
  have hone : ∀ (into : Node × ℤ) (entries : List (Node × ℤ)) (projected : Minima (Node ×ₗ Node)),
      ∀ k ∈ (entries.foldl (fun projected from_ => if from_.1 = into.1 then projected
        else projected.lower (toLex (from_.1, into.1)) (into.2 + from_.2)) projected).entries.map Prod.fst,
      k ∈ projected.entries.map Prod.fst ∨ (ofLex k).1 ∈ entries.map Prod.fst ∧ (ofLex k).2 = into.1 := by
    intro into entries
    induction entries with
    | nil => exact fun _ k hk => .inl hk
    | cons p entries ih =>
      intro projected k hk
      rw [List.foldl_cons] at hk
      rcases ih _ k hk with hk | ⟨h₁, h₂⟩
      · split at hk
        · exact .inl hk
        · rcases Minima.mem_keys_lower.1 hk with rfl | hk
          · exact .inr ⟨List.mem_cons_self, rfl⟩
          · exact .inl hk
      · exact .inr ⟨List.mem_cons_of_mem _ h₁, h₂⟩
  induction intos generalizing projected with
  | nil => exact fun k hk => .inl hk
  | cons q intos ih =>
    intro k hk
    rw [List.foldl_cons] at hk
    rcases ih k hk with hk | ⟨h₁, h₂⟩
    · rcases hone q fromDead.entries projected k hk with hk | ⟨h₁, h₂⟩
      · exact .inl hk
      · exact .inr ⟨h₁, h₂ ▸ List.mem_cons_self⟩
    · exact .inr ⟨h₁, List.mem_cons_of_mem _ h₂⟩

/-- What is gathered from all constraints. -/
def gathered (dead : Node) (constraints : Constraints) : Elimination :=
  constraints.foldl (Elimination.gather dead) ⟨.empty, .empty, .empty⟩

theorem meets_gathered (dead : Node) : (gathered dead constraints).Meets dead d ↔
    ∀ c ∈ constraints, (c.left ≠ dead ∨ c.right ≠ dead) → Difference.Holds d c := by
  unfold gathered
  rw [meets_foldl_gather]
  refine and_iff_left ⟨?_, ?_, ?_⟩ <;> exact Minima.bounds_empty

theorem clear_gathered (dead : Node) (constraints : Constraints) : (gathered dead constraints).Clear dead :=
  clear_foldl_gather ⟨List.not_mem_nil, List.not_mem_nil, fun _ hp => absurd hp List.not_mem_nil⟩

/-- The identity occurs where one constraint mentions it. -/
theorem any_mentions : (constraints.any fun c =>
      decide (c.left = .ident identity) || decide (c.right = .ident identity)) =
    true ↔ ¬ Avoids identity constraints := by
  unfold Avoids
  rw [List.any_eq_true]
  push Not
  refine exists_congr fun c => and_congr_right fun _ => ?_
  rw [Bool.or_eq_true, decide_eq_true_iff, decide_eq_true_iff]
  tauto

theorem forgetIdentity_of_avoids (h : Avoids identity constraints) :
    forgetIdentity constraints identity = constraints :=
  if_neg (any_mentions.not.2 (not_not.2 h))

theorem forgetIdentity_of_mentions (h : ¬ Avoids identity constraints) : forgetIdentity constraints identity =
    ((gathered (.ident identity) constraints).intoDead.entries.foldl
      (combine (gathered (.ident identity) constraints).fromDead)
      (gathered (.ident identity) constraints).projected).entries.map fun p => ⟨(ofLex p.1).1, (ofLex p.1).2, p.2⟩ :=
  if_pos (any_mentions.2 h)

theorem satisfies_forgetIdentity (h : ¬ Avoids identity constraints) :
    Satisfies ν (forgetIdentity constraints identity) ↔
    (∀ q ∈ (gathered (.ident identity) constraints).intoDead.entries,
      ∀ p ∈ (gathered (.ident identity) constraints).fromDead.entries, p.1 ≠ q.1 →
        p.1.eval ν - q.1.eval ν ≤ q.2 + p.2) ∧
    (gathered (.ident identity) constraints).projected.Bounds fun p => (ofLex p).1.eval ν - (ofLex p).2.eval ν := by
  rw [forgetIdentity_of_mentions h, ← bounds_foldl_combine (d := Node.eval ν)]
  exact List.forall_mem_map

/-- **Nothing is tightened.** -/
theorem satisfies_forgetIdentity_of_satisfies (h : Satisfies ν constraints) :
    Satisfies ν (forgetIdentity constraints identity) := by
  by_cases havoid : Avoids identity constraints
  · rwa [forgetIdentity_of_avoids havoid]
  · obtain ⟨hinto, hfrom, hprojected⟩ := (meets_gathered (.ident identity)).2 fun c hc _ => h c hc
    refine (satisfies_forgetIdentity havoid).2 ⟨fun q hq p hp _ => ?_, hprojected⟩
    have h₁ := hinto q hq
    have h₂ := hfrom p hp
    dsimp only at h₁ h₂
    omega

/-- **The identity is gone.** -/
theorem avoids_forgetIdentity : Avoids identity (forgetIdentity constraints identity) := by
  by_cases havoid : Avoids identity constraints
  · rwa [forgetIdentity_of_avoids havoid]
  · intro c hc
    rw [forgetIdentity_of_mentions havoid] at hc
    obtain ⟨p, hp, rfl⟩ := List.mem_map.1 hc
    have hclear := clear_gathered (.ident identity) constraints
    rcases keys_foldl_combine p.1 (List.mem_map_of_mem hp) with hk | ⟨h₁, h₂⟩
    · exact hclear.projected _ hk
    · exact ⟨fun heq => hclear.fromDead (heq ▸ h₁), fun heq => hclear.intoDead (heq ▸ h₂)⟩

theorem exists_between_lists (lows highs : List ℤ) (h : ∀ l ∈ lows, ∀ u ∈ highs, l ≤ u) :
    ∃ v, (∀ l ∈ lows, l ≤ v) ∧ ∀ u ∈ highs, v ≤ u := by
  induction lows with
  | nil =>
    obtain ⟨k, hk⟩ := Difference.exists_above (fun u : ℤ => -u) highs
    refine ⟨-k, fun l hl => absurd hl List.not_mem_nil, fun u hu => ?_⟩
    have := hk u hu
    omega
  | cons l lows ih =>
    rw [List.forall_mem_cons] at h
    obtain ⟨v, hv, hu⟩ := ih h.2
    refine ⟨max l v, List.forall_mem_cons.2 ⟨le_max_left _ _, fun l' hl' => (hv l' hl').trans (le_max_right _ _)⟩, ?_⟩
    exact fun u hmem => max_le (h.1 u hmem) (hu u hmem)

theorem eval_update {value : ℤ} {node : Node} (h : node ≠ .ident identity) :
    node.eval (Function.update ν identity value) = node.eval ν := by
  cases node with
  | zero => rfl
  | ident other => exact Function.update_of_ne (fun heq => h (congrArg Node.ident heq)) _ _

/-- **Nothing is lost**: what satisfies the projected constraints extends to the identity. -/
theorem exists_extension {μ : Valuation} (hμ : Satisfies μ constraints)
    (h : Satisfies ν (forgetIdentity constraints identity)) :
    ∃ value, Satisfies (Function.update ν identity value) constraints := by
  by_cases havoid : Avoids identity constraints
  · rw [forgetIdentity_of_avoids havoid] at h
    exact ⟨ν identity, by rwa [Function.update_eq_self]⟩
  · obtain ⟨hpairs, hprojected⟩ := (satisfies_forgetIdentity havoid).1 h
    have hclear := clear_gathered (.ident identity) constraints
    obtain ⟨hμinto, hμfrom, -⟩ := (meets_gathered (.ident identity)).2 fun c hc _ => hμ c hc
    -- each lower bound is below each upper bound: by a projected constraint, or as in `μ` where both are of one node
    obtain ⟨value, hlow, hhigh⟩ := exists_between_lists
      ((gathered (.ident identity) constraints).fromDead.entries.map fun p => p.1.eval ν - p.2)
      ((gathered (.ident identity) constraints).intoDead.entries.map fun q => q.1.eval ν + q.2) (by
        intro l hl u hu
        obtain ⟨p, hp, rfl⟩ := List.mem_map.1 hl
        obtain ⟨q, hq, rfl⟩ := List.mem_map.1 hu
        by_cases heq : p.1 = q.1
        · have h₁ := hμinto q hq
          have h₂ := hμfrom p hp
          dsimp only at h₁ h₂
          rw [heq] at h₂ ⊢
          omega
        · have := hpairs q hq p hp heq
          omega)
    have hdead : (Node.ident identity).eval (Function.update ν identity value) = value := Function.update_self _ _ _
    have hmeets : (gathered (.ident identity) constraints).Meets (.ident identity)
        (Node.eval (Function.update ν identity value)) := by
      refine ⟨fun q hq => ?_, fun p hp => ?_, fun p hp => ?_⟩
      · have hmem := List.mem_map_of_mem (f := Prod.fst) hq
        have hne : q.1 ≠ .ident identity := fun heq => hclear.intoDead (heq ▸ hmem)
        have := hhigh _ (List.mem_map_of_mem hq)
        dsimp only
        rw [hdead, eval_update hne]
        omega
      · have hmem := List.mem_map_of_mem (f := Prod.fst) hp
        have hne : p.1 ≠ .ident identity := fun heq => hclear.fromDead (heq ▸ hmem)
        have := hlow _ (List.mem_map_of_mem hp)
        dsimp only
        rw [hdead, eval_update hne]
        omega
      · obtain ⟨h₁, h₂⟩ := hclear.projected p.1 (List.mem_map_of_mem hp)
        dsimp only
        rw [eval_update h₁, eval_update h₂]
        exact hprojected p hp
    refine ⟨value, fun c hc => ?_⟩
    by_cases hloop : c.left = .ident identity ∧ c.right = .ident identity
    · have := hμ c hc
      unfold Difference.Holds at this ⊢
      rw [hloop.1, hloop.2] at this ⊢
      omega
    · exact (meets_gathered _).1 hmeets c hc (not_and_or.1 hloop)

theorem entails_forgetIdentity {μ : Valuation} (hμ : Satisfies μ constraints) {required : Constraints}
    (hrequired : Avoids identity required) :
    Entails (forgetIdentity constraints identity) required ↔ Entails constraints required := by
  constructor
  · exact fun h ν hν => h ν (satisfies_forgetIdentity_of_satisfies hν)
  · intro h ν hν c hc
    obtain ⟨value, hvalue⟩ := exists_extension hμ hν
    have hholds := h _ hvalue c hc
    unfold Difference.Holds at hholds ⊢
    rwa [eval_update (hrequired c hc).1, eval_update (hrequired c hc).2] at hholds

theorem entails_foldl_forgetIdentity {μ : Valuation} (hμ : Satisfies μ constraints) {required : Constraints}
    {identities : List Identity} (hrequired : ∀ identity ∈ identities, Avoids identity required) :
    Entails (identities.foldl forgetIdentity constraints) required ↔ Entails constraints required := by
  induction identities generalizing constraints with
  | nil => exact Iff.rfl
  | cons identity identities ih =>
    rw [List.forall_mem_cons] at hrequired
    rw [List.foldl_cons, ih (satisfies_forgetIdentity_of_satisfies hμ) hrequired.2,
      entails_forgetIdentity hμ hrequired.1]

end Forget

/-- **Forgetting is exact projection.** -/
theorem forgetIdentity_projects (constraints : Constraints) (identity : Identity) :
    (∀ ν, Satisfies ν constraints → Satisfies ν (forgetIdentity constraints identity)) ∧
      Avoids identity (forgetIdentity constraints identity) ∧
      ((∃ μ, Satisfies μ constraints) → ∀ ν, Satisfies ν (forgetIdentity constraints identity) →
        ∃ value, Satisfies (Function.update ν identity value) constraints) ∧
      ∀ identities : List Identity, (∃ μ, Satisfies μ constraints) → ∀ required : Constraint,
        (∀ other ∈ identities, Avoids other [required]) →
          (Entails constraints [required] ↔ Entails (identities.foldl forgetIdentity constraints) [required]) :=
  ⟨fun _ => satisfies_forgetIdentity_of_satisfies, avoids_forgetIdentity, fun ⟨_, hμ⟩ _ => exists_extension hμ,
    fun _ ⟨_, hμ⟩ _ hrequired => (entails_foldl_forgetIdentity hμ hrequired).symm⟩

end Blot.Relational
