import Blot.Operators.Reading

/-!
# Folding and the declared fixities

Which chains a fold accepts and how tight its operands are, against what the fixities declare.  The check for a
non-associative operator is made once the operators that bind tighter are taken, and it looks only at the step that
follows then: a non-associative operator after another one of its level, or before one that associates to the right, is
not seen.  An operator that associates to the right takes everything of its level that follows.
-/

namespace Blot.Operators

open Support.Climbing Source AstArena FixityTable

structure Chain where
  arena : AstArena
  first : ExpressionId
  steps : List (ChainStep ExpressionId)
  first_lt : first < arena.expressions.length
  steps_given : Given arena steps

namespace Chain

def sourceFirst (chain : Chain) : Expr := .operand chain.first (chain.arena.expressionSpan chain.first)

def sourceSteps (chain : Chain) : List (ChainStep Expr) := chain.steps.map (sourceStep chain.arena)

def reading (chain : Chain) (arena : AstArena) (id : ExpressionId) : Option Expr :=
  arena.read chain.arena.expressions.length (id + 1) (fun _ => none) id

end Chain

def Folds (table : FixityTable) (chain : Chain) (id : ExpressionId) (arena : AstArena) : Prop :=
  table.foldChain chain.first chain.steps chain.arena = some (.ok (id, arena))

/-- **Folding respects the declared fixities.** -/
structure FoldsAsDeclared (table : FixityTable) (chain : Chain) : Prop where
  /-- A chain is accepted when its operators are declared and none of them that does not associate stands beside another
  of its level. -/
  accepts : (∃ id arena, Folds table chain id arena) ↔
    (∀ step ∈ chain.sourceSteps, (table.grouping Expr).known step = true) ∧
      ¬ ∃ a b, Beside (table.grouping Expr) chain.sourceSteps a b ∧
        ((table.grouping Expr).solitary a = true ∨ (table.grouping Expr).solitary b = true)
  /-- What is folded is a tree with the operands and operators in order, and its operands are as tight as the operators
  ask. -/
  respects : ∀ id arena, Folds table chain id arena → ∃ tree, chain.reading arena id = some (table.render tree) ∧
    tree.inorder = .inl chain.sourceFirst :: sequence (·.right) chain.sourceSteps ∧
    LeftLeaning (table.grouping Expr) tree ∧ RightLeaning (table.grouping Expr) tree
  /-- The tooling accepts the same chains. -/
  agrees : (∃ id arena, Folds table chain id arena) ↔
    ∃ e, Source.foldChain table chain.sourceFirst chain.sourceSteps = some (.ok e)
  /-- The tooling makes the same tree. -/
  same : ∀ id arena e, Folds table chain id arena →
    Source.foldChain table chain.sourceFirst chain.sourceSteps = some (.ok e) → chain.reading arena id = some e

/-- When folding respects the declared fixities: the chain has an operator that is not declared, or one that does not
associate beside one of its level that does not associate to the right, or neither an operator that does not associate
beside one of its level nor one that associates to the right between two of its level of which the second does not. -/
def Respected (table : FixityTable) (steps : List (ChainStep Expr)) : Prop :=
  (∃ step ∈ steps, (table.grouping Expr).known step = false) ∨
  (∃ a b, Beside (table.grouping Expr) steps a b ∧ (table.grouping Expr).solitary a = true ∧
    (table.grouping Expr).rightward b = false) ∨
  (∀ a b, Beside (table.grouping Expr) steps a b → (table.grouping Expr).solitary a = false ∧
    (table.grouping Expr).solitary b = false) ∧
  ∀ a b c, Thrice (table.grouping Expr) steps a b c → (table.grouping Expr).rightward b = true →
    (table.grouping Expr).rightward c = true

/-! ### The tree of an expression -/

section Render

variable {table : FixityTable}

def Source.Expr.operands : Expr → ℕ
  | .operand _ _ => 1
  | .var _ _ | .intrinsic _ _ => 0
  | .field target _ _ => target.operands
  | .apply fn arg _ => fn.operands + arg.operands

theorem operands_targetPath (span : Span) (path : List String) : (targetPath span path).operands = 0 := by
  cases path with
  | nil => rfl
  | cons root rest =>
    have hfold : ∀ (rest : List String) (e : Expr), e.operands = 0 →
        (rest.foldl (fun result name => Expr.field result name span) e).operands = 0 := by
      intro rest
      induction rest with
      | nil => exact fun _ h => h
      | cons name rest ih => exact fun e h => ih _ h
    refine hfold rest _ ?_
    split <;> rfl

def Plain (table : FixityTable) (items : List (Expr ⊕ ChainStep Expr)) : Prop :=
  (∀ e, .inl e ∈ items → e.operands = 1) ∧ ∀ step, .inr step ∈ items → (table.infixes step.operator).isSome = true

theorem Plain.sides {left right : List (Expr ⊕ ChainStep Expr)} {step : ChainStep Expr}
    (h : Plain table (left ++ .inr step :: right)) :
    Plain table left ∧ Plain table right ∧ ∃ fixity, table.infixes step.operator = some fixity :=
  ⟨⟨fun e he => h.1 e (by simp [he]), fun s hs => h.2 s (by simp [hs])⟩,
    ⟨fun e he => h.1 e (by simp [he]), fun s hs => h.2 s (by simp [hs])⟩,
    Option.isSome_iff_exists.mp (h.2 step (by simp))⟩

theorem operands_render : ∀ {tree : OperatorTree (ChainStep Expr) Expr}, Plain table tree.inorder →
    tree.inorder.length + 1 = 2 * (table.render tree).operands
  | .leaf e, h => by
    rw [render, h.1 e (by simp [OperatorTree.inorder])]
    rfl
  | .node left step right, h => by
    obtain ⟨hl, hr, fixity, hstep⟩ := h.sides
    have hleft := operands_render hl
    have hright := operands_render hr
    have hsum : (table.render (.node left step right)).operands =
        (table.render left).operands + (table.render right).operands := by
      simp only [render, hstep, apply, Expr.operands, targetExpr, operands_targetPath, Nat.zero_add]
    rw [hsum, OperatorTree.inorder, List.length_append, List.length_cons]
    omega

theorem inorder_length_pos (tree : OperatorTree (ChainStep Expr) Expr) : 0 < tree.inorder.length := by
  cases tree with
  | leaf e => exact Nat.one_pos
  | node left step right =>
    rw [OperatorTree.inorder, List.length_append, List.length_cons]
    omega

/-- The tree is told from its expression and its operands and operators in order. -/
theorem render_injective : ∀ {tree tree' : OperatorTree (ChainStep Expr) Expr}, Plain table tree.inorder →
    table.render tree = table.render tree' → tree.inorder = tree'.inorder → tree = tree'
  | .leaf e, .leaf e', _, _, hin => by
    rw [OperatorTree.inorder, OperatorTree.inorder] at hin
    cases hin
    rfl
  | .leaf e, .node left step right, _, _, hin => by
    have hlength := congrArg List.length hin
    have := inorder_length_pos left
    simp only [OperatorTree.inorder, List.length_append, List.length_cons, List.length_nil] at hlength
    omega
  | .node left step right, .leaf e, _, _, hin => by
    have hlength := congrArg List.length hin
    have := inorder_length_pos left
    simp only [OperatorTree.inorder, List.length_append, List.length_cons, List.length_nil] at hlength
    omega
  | .node left step right, .node left' step' right', h, hrender, hin => by
    have h' := h
    rw [hin] at h'
    obtain ⟨hl, hr, fixity, hstep⟩ := h.sides
    obtain ⟨hl', hr', fixity', hstep'⟩ := h'.sides
    simp only [render, hstep, hstep', apply, Expr.apply.injEq] at hrender
    obtain ⟨⟨-, hleft, -⟩, hright, -⟩ := hrender
    have hlength : left.inorder.length = left'.inorder.length := by
      have h₁ := operands_render hl
      have h₂ := operands_render hl'
      rw [hleft] at h₁
      omega
    obtain ⟨hinl, hinr⟩ := List.append_inj hin hlength
    rw [List.cons.injEq] at hinr
    obtain ⟨hs, hinr⟩ := hinr
    rw [render_injective hl hleft hinl, render_injective hr hright hinr, Sum.inr.inj hs]

end Render

/-! ### What the folds make of a chain -/

section Folds

variable {table : FixityTable} {chain : Chain}

/-- What climbing makes of the chain. -/
def Climbs (table : FixityTable) (chain : Chain) (tree : OperatorTree (ChainStep Expr) Expr) : Prop :=
  fold (table.grouping Expr) (·.right) chain.sourceFirst chain.sourceSteps = some (.ok (tree, []))

theorem plain_of_climbs {tree : OperatorTree (ChainStep Expr) Expr} (h : Climbs table chain tree) :
    Plain table tree.inorder := by
  obtain ⟨-, -, -, hin, hknown⟩ := fold_ok h
  have hsequence : ∀ steps : List (ChainStep ExpressionId),
      (∀ e, .inl e ∈ sequence (fun step => step.right) (steps.map (sourceStep chain.arena)) → e.operands = 1) ∧
      ∀ step, .inr step ∈ sequence (fun step => step.right) (steps.map (sourceStep chain.arena)) →
        step ∈ steps.map (sourceStep chain.arena) := by
    intro steps
    induction steps with
    | nil => exact ⟨fun _ h => (nomatch h), fun _ h => (nomatch h)⟩
    | cons step steps ih =>
      refine ⟨fun e he => ?_, fun s hs => ?_⟩
      · rcases List.mem_cons.mp he with he | he
        · cases he
        · rcases List.mem_cons.mp he with he | he
          · cases he
            rfl
          · exact ih.1 e he
      · rcases List.mem_cons.mp hs with hs | hs
        · cases hs
          exact List.mem_cons_self
        · rcases List.mem_cons.mp hs with hs | hs
          · cases hs
          · exact List.mem_cons_of_mem _ (ih.2 s hs)
  rw [hin]
  refine ⟨fun e he => ?_, fun step hs => ?_⟩
  · rcases List.mem_cons.mp he with he | he
    · cases he
      rfl
    · exact (hsequence chain.steps).1 e he
  · rcases List.mem_cons.mp hs with hs | hs
    · cases hs
    · exact hknown step ((hsequence chain.steps).2 step hs)

/-- What the compiler folds reads as what climbing makes. -/
theorem climbs_of_folds {id : ExpressionId} {arena : AstArena} (h : Folds table chain id arena) :
    ∃ tree, Climbs table chain tree ∧ chain.reading arena id = some (table.render tree) := by
  have hmade := foldChain_compiles table chain.first_lt chain.steps_given
  rw [show table.foldChain _ _ _ = some (.ok (id, arena)) from h] at hmade
  cases hresult : fold (table.grouping Expr) (fun step => step.right) chain.sourceFirst chain.sourceSteps with
  | none => exact absurd hresult ((returns _).1 _ _ _ (Nat.le_refl _))
  | some result =>
    rw [show fold _ _ (Expr.operand _ _) (chain.steps.map _) = some result from hresult] at hmade
    cases result with
    | error e =>
      obtain ⟨text, he⟩ := hmade
      cases he
    | ok made =>
      obtain ⟨tree, rest⟩ := made
      obtain ⟨rfl, -⟩ := fold_ok hresult
      obtain ⟨id', arena', he, hreads⟩ := hmade
      cases he
      exact ⟨tree, hresult, hreads.read _ (Nat.lt_succ_self _)⟩

theorem folds_of_climbs {tree : OperatorTree (ChainStep Expr) Expr} (h : Climbs table chain tree) :
    ∃ id arena, Folds table chain id arena := by
  have hmade := foldChain_compiles table chain.first_lt chain.steps_given
  rw [show fold _ _ (Expr.operand _ _) (chain.steps.map _) = some (.ok (tree, [])) from h] at hmade
  obtain ⟨id, arena, hfold, -⟩ := hmade
  exact ⟨id, arena, hfold⟩

theorem source_iff {e : Expr} : Source.foldChain table chain.sourceFirst chain.sourceSteps = some (.ok e) ↔
    ∃ tree, Climbs table chain tree ∧ table.render tree = e := by
  have hclimb : Source.climb table (2 * chain.sourceSteps.length + 1) chain.sourceFirst chain.sourceSteps 0 =
      table.sourced (fold (table.grouping Expr) (fun step => step.right) chain.sourceFirst chain.sourceSteps) :=
    (source_climb _).1 (.leaf chain.sourceFirst) _ _
  rw [Source.foldChain, hclimb]
  constructor
  · intro h
    cases hresult : fold (table.grouping Expr) (fun step => step.right) chain.sourceFirst chain.sourceSteps with
    | none =>
      rw [hresult] at h
      cases h
    | some result =>
      rw [hresult] at h
      cases result with
      | error e => cases h
      | ok made =>
        obtain ⟨tree, rest⟩ := made
        obtain ⟨rfl, -⟩ := fold_ok hresult
        exact ⟨tree, hresult, by cases h; rfl⟩
  · rintro ⟨tree, h, rfl⟩
    rw [show fold _ _ _ _ = some (.ok (tree, [])) from h]
    rfl

theorem accepted_iff : (∃ id arena, Folds table chain id arena) ↔
    (∀ step ∈ chain.sourceSteps, (table.grouping Expr).known step = true) ∧
      ∀ a b, Beside (table.grouping Expr) chain.sourceSteps a b → (table.grouping Expr).solitary a = true →
        (table.grouping Expr).rightward b = true := by
  rw [← fold_accepts_iff chain.sourceFirst]
  constructor
  · rintro ⟨id, arena, h⟩
    obtain ⟨tree, hclimbs, -⟩ := climbs_of_folds h
    exact ⟨tree, hclimbs⟩
  · rintro ⟨tree, h⟩
    exact folds_of_climbs h

end Folds

/-- **Folding respects the declared fixities of a chain exactly when no operator stands where its associativity is not
looked at.** -/
theorem folding_respects_fixities_iff (table : FixityTable) (chain : Chain) :
    FoldsAsDeclared table chain ↔ Respected table chain.sourceSteps := by
  constructor
  · intro h
    by_cases hknown : ∀ step ∈ chain.sourceSteps, (table.grouping Expr).known step = true
    · right
      by_cases hclash : ∃ a b, Beside (table.grouping Expr) chain.sourceSteps a b ∧
          (table.grouping Expr).solitary a = true ∧ (table.grouping Expr).rightward b = false
      · exact .inl hclash
      · right
        obtain ⟨id, arena, hfolds⟩ := accepted_iff.mpr ⟨hknown, fun a b hab ha => by
          by_contra hb
          exact hclash ⟨a, b, hab, ha, by simpa using hb⟩⟩
        have hnone := (h.accepts.mp ⟨id, arena, hfolds⟩).2
        refine ⟨fun a b hab => ⟨?_, ?_⟩, ?_⟩
        · by_contra ha
          exact hnone ⟨a, b, hab, .inl (by simpa using ha)⟩
        · by_contra hb
          exact hnone ⟨a, b, hab, .inr (by simpa using hb)⟩
        · obtain ⟨tree, hread, hin, -, hlean⟩ := h.respects id arena hfolds
          obtain ⟨tree', hclimbs, hread'⟩ := climbs_of_folds hfolds
          obtain ⟨-, hmade, hops, hin', -⟩ := fold_ok hclimbs
          obtain rfl : tree' = tree := render_injective (plain_of_climbs hclimbs)
            (Option.some.inj (hread'.symm.trans hread)) (hin'.trans hin.symm)
          rw [← hops]
          exact hmade.rightLeaning_iff.mp hlean
    · left
      by_contra hno
      exact hknown fun step hs => by
        by_contra hk
        exact hno ⟨step, hs, by simpa using hk⟩
  · intro h
    refine ⟨?_, fun id arena hfolds => ?_, ?_, fun id arena e hfolds hsource => ?_⟩
    · rw [accepted_iff]
      refine and_congr_right fun hknown => ⟨fun hbeside => ?_, fun hno a b hab ha => ?_⟩
      · rcases h with ⟨step, hs, hunknown⟩ | ⟨a, b, hab, ha, hb⟩ | ⟨halone, -⟩
        · rw [hknown step hs] at hunknown
          cases hunknown
        · rw [hbeside a b hab ha] at hb
          cases hb
        · rintro ⟨a, b, hab, ha | hb⟩
          · rw [(halone a b hab).1] at ha
            cases ha
          · rw [(halone a b hab).2] at hb
            cases hb
      · exact absurd ⟨a, b, hab, .inl ha⟩ hno
    · obtain ⟨tree, hclimbs, hread⟩ := climbs_of_folds hfolds
      obtain ⟨-, hmade, hops, hin, hknown⟩ := fold_ok hclimbs
      refine ⟨tree, hread, hin, hmade.leftLeaning, hmade.rightLeaning_iff.mpr ?_⟩
      obtain ⟨-, hbeside⟩ := accepted_iff.mp ⟨id, arena, hfolds⟩
      rw [hops]
      rcases h with ⟨step, hs, hunknown⟩ | ⟨a, b, hab, ha, hb⟩ | ⟨-, hthrice⟩
      · rw [hknown step hs] at hunknown
        cases hunknown
      · rw [hbeside a b hab ha] at hb
        cases hb
      · exact hthrice
    · constructor
      · rintro ⟨id, arena, hfolds⟩
        obtain ⟨tree, hclimbs, -⟩ := climbs_of_folds hfolds
        exact ⟨table.render tree, source_iff.mpr ⟨tree, hclimbs, rfl⟩⟩
      · rintro ⟨e, he⟩
        obtain ⟨tree, hclimbs, -⟩ := source_iff.mp he
        exact folds_of_climbs hclimbs
    · obtain ⟨tree, hclimbs, hread⟩ := climbs_of_folds hfolds
      obtain ⟨tree', hclimbs', rfl⟩ := source_iff.mp hsource
      rw [hread, show tree = tree' from by
        rw [Climbs] at hclimbs hclimbs'
        rw [hclimbs] at hclimbs'
        cases hclimbs'
        rfl]

/-! ### A non-associative operator after another of its level -/

/-- An infix operator at level 30 for the function `f`. -/
def levelled (operator : String) (associativity : Associativity) : Fixity :=
  ⟨operator, associativity, 30, ["f"], ⟨0, 0⟩, "f", [], rfl, by decide⟩

/-- `infixl 30 (<~) = f` beside `infix 30 (==) = f`. -/
def mixedTable : FixityTable where
  infixes operator :=
    if operator = "<~" then some (levelled "<~" .left)
    else if operator = "==" then some (levelled "==" .none)
    else none

/-- `a <~ b == c` -/
def mixedChain : Chain where
  arena := ⟨[⟨.var "a", ⟨0, 1⟩⟩, ⟨.var "b", ⟨5, 6⟩⟩, ⟨.var "c", ⟨10, 11⟩⟩], [], []⟩
  first := 0
  steps := [⟨"<~", 1, ⟨2, 6⟩⟩, ⟨"==", 2, ⟨7, 11⟩⟩]
  first_lt := by decide
  steps_given := by unfold Given; decide

theorem mixedChain_folds : ∃ id arena, Folds mixedTable mixedChain id arena := ⟨_, _, rfl⟩

/-- The chain is accepted, though `==` does not associate and stands beside an operator of its level. -/
theorem mixedChain_not_respected : ¬ FoldsAsDeclared mixedTable mixedChain := by
  intro h
  obtain ⟨-, hno⟩ := h.accepts.mp mixedChain_folds
  refine hno ⟨sourceStep mixedChain.arena ⟨"<~", 1, ⟨2, 6⟩⟩, sourceStep mixedChain.arena ⟨"==", 2, ⟨7, 11⟩⟩,
    ⟨[], _, [], rfl, [], rfl, rfl, by simp⟩, .inr rfl⟩

end Blot.Operators
