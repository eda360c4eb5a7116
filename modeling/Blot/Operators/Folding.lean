import Blot.Operators.Chain
import Blot.Support.Climbing

/-!
# What folding makes of a chain

Both folds are precedence climbing over the table.  The expression that the tooling builds is the tree that climbing
makes, written as applications; what the compiler leaves in its arena reads back as the same expression once the names of
the intermediate results are replaced by what they are bound to.
-/

namespace Blot.Operators

open Support.Climbing Source
open Blot.Frontend (Diagnostic)

/-! ### The tree of a fold -/

namespace FixityTable

variable (table : FixityTable)

def grouping (ε : Type) : Grouping (ChainStep ε) where
  known step := (table.infixes step.operator).isSome
  level step := (table.infixes step.operator).elim 0 (·.precedence)
  rightward step := (table.infixes step.operator).any (·.associativity = .right)
  solitary step := (table.infixes step.operator).any (·.associativity = .none)

def render : OperatorTree (ChainStep Expr) Expr → Expr
  | .leaf e => e
  | .node left step right =>
    match table.infixes step.operator with
    | some fixity => apply fixity step (render left) (render right)
    | none => render left

def report : Refusal (ChainStep Expr) → Diagnostic
  | .unknown step => ⟨"BLOT_UNKNOWN_OPERATOR",
      s!"No source fixity is declared for the infix operator `{step.operator}`.", step.span⟩
  | .clash step following => ⟨"BLOT_NON_ASSOCIATIVE_CHAIN",
      s!"`{step.operator}` is non-associative, so it cannot be chained with `{following.operator}` at the same precedence. Parenthesize one side.",
      following.span⟩

def message : Refusal (ChainStep Expr) → String
  | .unknown step => s!"BLOT_UNKNOWN_OPERATOR: no fixity is declared for `{step.operator}`"
  | .clash step following =>
    s!"BLOT_NON_ASSOCIATIVE_CHAIN: `{step.operator}` cannot be chained with `{following.operator}` at the same precedence"

variable {table}

theorem known_of_lookup {ε : Type} {step : ChainStep ε} {fixity : Fixity} (h : table.infixes step.operator = some fixity) :
    (table.grouping ε).known step = true ∧ (table.grouping ε).level step = fixity.precedence ∧
      ((table.grouping ε).rightward step = decide (fixity.associativity = .right)) ∧
      ((table.grouping ε).solitary step = decide (fixity.associativity = .none)) := by
  simp [grouping, h]

theorem unknown_of_lookup {ε : Type} {step : ChainStep ε} (h : table.infixes step.operator = none) :
    (table.grouping ε).known step = false := by
  simp [grouping, h]

theorem bindsTighter_iff {ε : Type} {step following : ChainStep ε} {fixity next : Fixity}
    (h : table.infixes step.operator = some fixity) (h' : table.infixes following.operator = some next) :
    bindsTighter fixity next = true ↔ Tighter (table.grouping ε) step following := by
  obtain ⟨-, hlevel, -, -⟩ := known_of_lookup (ε := ε) h
  obtain ⟨-, hlevel', hright', -⟩ := known_of_lookup (ε := ε) h'
  rw [Tighter, hlevel, hlevel', hright']
  simp [bindsTighter]

def sourced (table : FixityTable) : Result (ChainStep Expr) Expr → Climbed Diagnostic (Expr × List (ChainStep Expr))
  | none => none
  | some (.error e) => some (.error (report e))
  | some (.ok (tree, rest)) => some (.ok (table.render tree, rest))

theorem source_nonAssociative {fixity : Fixity} {step next : ChainStep Expr} {rest : List (ChainStep Expr)}
    (h : table.infixes step.operator = some fixity) (hnext : (table.grouping Expr).known next = true) :
    Source.nonAssociative table fixity step (next :: rest) =
      if Clash (table.grouping Expr) step (next :: rest) then .error (report (.clash step next)) else .ok () := by
  obtain ⟨following, h'⟩ : ∃ following, table.infixes next.operator = some following :=
    Option.isSome_iff_exists.mp hnext
  obtain ⟨-, hlevel, -, halone⟩ := known_of_lookup (ε := Expr) h
  obtain ⟨-, hlevel', -, -⟩ := known_of_lookup (ε := Expr) h'
  simp only [Source.nonAssociative, Source.lookup, h', Clash, hlevel, hlevel', halone, decide_eq_true_eq]
  by_cases hnone : fixity.associativity = .none
  · simp only [hnone, if_true, true_and]
    rfl
  · simp only [hnone, if_false, false_and]

/-- **The fold of the tooling is precedence climbing.** -/
theorem source_climb : ∀ fuel : ℕ,
    (∀ (tree : OperatorTree (ChainStep Expr) Expr) (steps : List (ChainStep Expr)) (minimum : ℕ),
      Source.climb table fuel (table.render tree) steps minimum =
        sourced table (Support.Climbing.climb (table.grouping Expr) (·.right) fuel tree steps minimum)) ∧
    (∀ (step : ChainStep Expr) (fixity : Fixity) (tree : OperatorTree (ChainStep Expr) Expr)
      (steps : List (ChainStep Expr)), table.infixes step.operator = some fixity →
      Source.climbRight table fuel fixity (table.render tree) steps =
        sourced table (absorb (table.grouping Expr) (·.right) fuel step tree steps)) := by
  intro fuel
  induction fuel with
  | zero => exact ⟨fun _ _ _ => rfl, fun _ _ _ _ _ => rfl⟩
  | succ fuel ih =>
    obtain ⟨ihClimb, ihRight⟩ := ih
    have hruns := runs_of_ok (g := table.grouping Expr) (fun step : ChainStep Expr => step.right) fuel
    constructor
    · intro tree steps minimum
      cases steps with
      | nil => rfl
      | cons step steps =>
        rw [Source.climb, Support.Climbing.climb, Source.lookup]
        cases h : table.infixes step.operator with
        | none =>
          rw [if_pos (unknown_of_lookup h)]
          rfl
        | some fixity =>
          obtain ⟨hknown, hlevel, -, -⟩ := known_of_lookup (ε := Expr) h
          simp only [hknown, hlevel, Bool.true_eq_false, if_false]
          split
          · rfl
          · have hright := ihRight step fixity (.leaf step.right) steps h
            rw [FixityTable.render] at hright
            rw [hright]
            cases hmade : absorb (table.grouping Expr) (fun step => step.right) fuel step (.leaf step.right) steps with
            | none => rfl
            | some result =>
              cases result with
              | error e => rfl
              | ok made =>
                obtain ⟨right, rest⟩ := made
                have hrender : apply fixity step (table.render tree) (table.render right) =
                    table.render (.node tree step right) := by
                  simp only [FixityTable.render, h]
                cases rest with
                | nil =>
                  simp only [sourced, Source.nonAssociative, hrender]
                  exact ihClimb _ _ _
                | cons next rest =>
                  simp only [sourced, source_nonAssociative h (hruns.2 hmade).next_known, hrender]
                  by_cases hclash : Clash (table.grouping Expr) step (next :: rest)
                  · simp only [hclash, if_true]
                  · simp only [hclash, if_false]
                    exact ihClimb _ _ _
    · intro step fixity tree steps h
      cases steps with
      | nil => rfl
      | cons following steps =>
        rw [Source.climbRight, absorb, Source.lookup]
        cases h' : table.infixes following.operator with
        | none =>
          rw [if_pos (unknown_of_lookup h')]
          rfl
        | some next =>
          obtain ⟨hknown, hlevel, -, -⟩ := known_of_lookup (ε := Expr) h'
          simp only [hknown, hlevel, Bool.true_eq_false, if_false, bindsTighter_iff h h']
          split
          · rw [ihClimb]
            cases Support.Climbing.climb (table.grouping Expr) (fun step => step.right) fuel tree (following :: steps)
                next.precedence with
            | none => rfl
            | some result =>
              cases result with
              | error e => rfl
              | ok made => exact ihRight step fixity made.1 made.2 h
          · rfl

end FixityTable

end Blot.Operators
