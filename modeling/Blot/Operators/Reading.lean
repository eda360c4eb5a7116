import Blot.Operators.Folding

/-!
# Reading a fold back from the arena

`AstArena.read` is the expression of an identifier: what was in the arena before the fold is an operand, and a name that
a declaration of a block binds stands for its value.  What the compiler folds reads back as the expression of the tree
that climbing makes.
-/

namespace Blot.Operators

open Support.Climbing Source

/-- What the names of intermediate results stand for. -/
abbrev Scope := String → Option Expr

namespace AstArena

structure Extends (arena arena' : AstArena) : Prop where
  expressions : arena.expressions <+: arena'.expressions
  patterns : arena.patterns <+: arena'.patterns
  declarations : arena.declarations <+: arena'.declarations

theorem Extends.refl (arena : AstArena) : Extends arena arena :=
  ⟨List.prefix_rfl, List.prefix_rfl, List.prefix_rfl⟩

theorem Extends.trans {a b c : AstArena} (h : Extends a b) (h' : Extends b c) : Extends a c :=
  ⟨h.expressions.trans h'.expressions, h.patterns.trans h'.patterns, h.declarations.trans h'.declarations⟩

theorem extends_expression (arena : AstArena) (e : Expression) : Extends arena (arena.expression e).2 :=
  ⟨List.prefix_append _ _, List.prefix_rfl, List.prefix_rfl⟩

theorem extends_pattern (arena : AstArena) (p : Pattern) : Extends arena (arena.pattern p).2 :=
  ⟨List.prefix_rfl, List.prefix_append _ _, List.prefix_rfl⟩

theorem extends_declaration (arena : AstArena) (d : Declaration) : Extends arena (arena.declaration d).2 :=
  ⟨List.prefix_rfl, List.prefix_rfl, List.prefix_append _ _⟩

theorem Extends.length_le {arena arena' : AstArena} (h : Extends arena arena') :
    arena.expressions.length ≤ arena'.expressions.length := h.expressions.length_le

theorem kept {α : Type} {xs ys : List α} (h : xs <+: ys) {i : ℕ} {x : α} (hx : xs[i]? = some x) : ys[i]? = some x := by
  obtain ⟨hi, rfl⟩ := List.getElem?_eq_some_iff.mp hx
  exact List.prefix_iff_getElem?.mp h i hi

theorem Extends.span {arena arena' : AstArena} (h : Extends arena arena') {id : ExpressionId}
    (hlt : id < arena.expressions.length) : arena'.expressionSpan id = arena.expressionSpan id := by
  have hid := List.getElem?_eq_getElem hlt
  unfold expressionSpan
  rw [hid, kept h.expressions hid]

/-! ### Reading -/

section Read

variable (arena : AstArena) (operands : ℕ)

/-- The scope after the declarations of a block, each read by `value`. -/
def bindAll (value : Scope → ExpressionId → Option Expr) : Scope → List DeclarationId → Option Scope
  | scope, [] => some scope
  | scope, d :: ds =>
    match arena.declarations[d]? with
    | some (.binding .let p v) =>
      match arena.patterns[p]? with
      | some (.name name) =>
        (value scope v).bind fun e => bindAll value (fun other => if other = name then some e else scope other) ds
      | _ => none
    | _ => none

/-- The expression of an identifier.  Identifiers below `operands` were there before the fold. -/
def read : ℕ → Scope → ExpressionId → Option Expr
  | 0, _, _ => none
  | fuel + 1, scope, id =>
    match arena.expressions[id]? with
    | none => none
    | some e =>
      if id < operands then some (.operand id e.span)
      else
        match e.form with
        | .var name => some ((scope name).getD (.var name e.span))
        | .intrinsic name => some (.intrinsic name e.span)
        | .field target name => (read fuel scope target).map fun target => .field target name e.span
        | .apply function argument =>
          (read fuel scope function).bind fun fn => (read fuel scope argument).map fun arg => .apply fn arg e.span
        | .block declarations result =>
          (bindAll arena (read fuel) scope declarations).bind fun scope => read fuel scope result
        | _ => none

end Read

variable {arena arena' : AstArena} {operands : ℕ}

theorem bindAll_mono (h : Extends arena arena') {value value' : Scope → ExpressionId → Option Expr}
    (hvalue : ∀ {scope id e}, value scope id = some e → value' scope id = some e) :
    ∀ {ds : List DeclarationId} {scope scope' : Scope}, bindAll arena value scope ds = some scope' →
      bindAll arena' value' scope ds = some scope'
  | [], _, _, he => he
  | d :: ds, scope, scope', he => by
    rw [bindAll] at he ⊢
    split at he
    · rename_i p v hd
      rw [kept h.declarations hd]
      split at he
      · rename_i name hp
        obtain ⟨e, hv, he⟩ := Option.bind_eq_some_iff.mp he
        simp only [kept h.patterns hp, hvalue hv, Option.bind_some]
        exact bindAll_mono h hvalue he
      · cases he
    · cases he

/-- What reads in an arena reads the same in a larger one. -/
theorem read_mono (h : Extends arena arena') : ∀ {fuel : ℕ} {scope : Scope} {id : ExpressionId} {e : Expr},
    read arena operands fuel scope id = some e → read arena' operands fuel scope id = some e
  | 0, _, _, _, he => nomatch he
  | fuel + 1, scope, id, e, he => by
    rw [read] at he ⊢
    split at he
    · cases he
    · rename_i node hnode
      simp only [kept h.expressions hnode]
      by_cases hlt : id < operands
      · simpa only [if_pos hlt] using he
      · simp only [if_neg hlt] at he ⊢
        split at he
        · exact he
        · exact he
        · obtain ⟨target, ht, rfl⟩ := Option.map_eq_some_iff.mp he
          rw [read_mono h ht]
          rfl
        · obtain ⟨fn, hf, he⟩ := Option.bind_eq_some_iff.mp he
          obtain ⟨arg, ha, rfl⟩ := Option.map_eq_some_iff.mp he
          rw [read_mono h hf, Option.bind_some, read_mono h ha]
          rfl
        · obtain ⟨inner, hb, he⟩ := Option.bind_eq_some_iff.mp he
          rw [bindAll_mono h (read_mono h) hb]
          exact read_mono h he
        · cases he

/-- An identifier reads as an expression, with any fuel above it. -/
structure ReadsAs (arena : AstArena) (operands : ℕ) (scope : Scope) (id : ExpressionId) (e : Expr) : Prop where
  lt : id < arena.expressions.length
  span : arena.expressionSpan id = e.span
  read : ∀ fuel, id < fuel → arena.read operands fuel scope id = some e

theorem ReadsAs.mono {scope : Scope} {id : ExpressionId} {e : Expr} (h : ReadsAs arena operands scope id e)
    (hext : Extends arena arena') : ReadsAs arena' operands scope id e :=
  ⟨Nat.lt_of_lt_of_le h.lt hext.length_le, (hext.span h.lt).trans h.span,
    fun fuel hfuel => read_mono hext (h.read fuel hfuel)⟩

theorem expression_getElem? (arena : AstArena) (e : Expression) :
    (arena.expression e).2.expressions[arena.expressions.length]? = some e := by
  simp [expression]

theorem expression_lt (arena : AstArena) (e : Expression) :
    arena.expressions.length < (arena.expression e).2.expressions.length := by
  simp [expression]

theorem expression_span (arena : AstArena) (e : Expression) :
    (arena.expression e).2.expressionSpan arena.expressions.length = e.span := by
  rw [expressionSpan, expression_getElem?]
  rfl

section Nodes

variable {scope : Scope} (hle : operands ≤ arena.expressions.length)

include hle

theorem reads_intrinsic (name : String) (span : Span) :
    ReadsAs (arena.expression ⟨.intrinsic name, span⟩).2 operands scope arena.expressions.length
      (.intrinsic name span) := by
  refine ⟨expression_lt _ _, expression_span _ _, fun fuel hfuel => ?_⟩
  cases fuel with
  | zero => cases hfuel
  | succ fuel => simp only [AstArena.read, expression_getElem?, if_neg (Nat.not_lt_of_le hle)]

theorem reads_var {name : String} {span : Span} {e : Expr} (hscope : (scope name).getD (.var name span) = e)
    (hspan : span = e.span) :
    ReadsAs (arena.expression ⟨.var name, span⟩).2 operands scope arena.expressions.length e := by
  refine ⟨expression_lt _ _, (expression_span _ _).trans hspan, fun fuel hfuel => ?_⟩
  cases fuel with
  | zero => cases hfuel
  | succ fuel => simp only [AstArena.read, expression_getElem?, if_neg (Nat.not_lt_of_le hle), hscope]

theorem reads_field {target : ExpressionId} {e : Expr} (h : ReadsAs arena operands scope target e) (name : String)
    (span : Span) : ReadsAs (arena.expression ⟨.field target name, span⟩).2 operands scope arena.expressions.length
      (.field e name span) := by
  refine ⟨expression_lt _ _, expression_span _ _, fun fuel hfuel => ?_⟩
  cases fuel with
  | zero => cases hfuel
  | succ fuel =>
    have hread := read_mono (extends_expression arena ⟨.field target name, span⟩)
      (h.read fuel (Nat.lt_of_lt_of_le h.lt (Nat.le_of_lt_succ hfuel)))
    simp only [AstArena.read, expression_getElem?, if_neg (Nat.not_lt_of_le hle), hread, Option.map_some]

theorem reads_apply {function argument : ExpressionId} {fn arg : Expr} (hf : ReadsAs arena operands scope function fn)
    (ha : ReadsAs arena operands scope argument arg) (span : Span) :
    ReadsAs (arena.expression ⟨.apply function argument, span⟩).2 operands scope arena.expressions.length
      (.apply fn arg span) := by
  refine ⟨expression_lt _ _, expression_span _ _, fun fuel hfuel => ?_⟩
  cases fuel with
  | zero => cases hfuel
  | succ fuel =>
    have hle' : arena.expressions.length ≤ fuel := Nat.le_of_lt_succ hfuel
    have hext := extends_expression arena ⟨.apply function argument, span⟩
    have hf' := read_mono hext (hf.read fuel (Nat.lt_of_lt_of_le hf.lt hle'))
    have ha' := read_mono hext (ha.read fuel (Nat.lt_of_lt_of_le ha.lt hle'))
    simp only [AstArena.read, expression_getElem?, if_neg (Nat.not_lt_of_le hle), hf', ha', Option.bind_some,
      Option.map_some]

end Nodes

end AstArena

open AstArena

/-! ### Targets and applications -/

section Applications

variable {arena : AstArena} {operands : ℕ} {scope : Scope}

/-- Only names that folding makes up are bound. -/
def Made (scope : Scope) : Prop := ∀ name, scope name ≠ none → Intermediate name

theorem reads_path (span : Span) : ∀ (path : List String) {arena : AstArena} {id : ExpressionId} {e : Expr},
    operands ≤ arena.expressions.length → ReadsAs arena operands scope id e →
    ∃ id' arena', path.foldl (fun (result, arena) name => arena.expression ⟨.field result name, span⟩) (id, arena) =
        (id', arena') ∧ Extends arena arena' ∧
      ReadsAs arena' operands scope id' (path.foldl (fun result name => .field result name span) e)
  | [], arena, id, e, _, h => ⟨id, arena, rfl, Extends.refl arena, h⟩
  | name :: path, arena, id, e, hle, h => by
    have hext := extends_expression arena ⟨.field id name, span⟩
    obtain ⟨id', arena', hfold, hext', hreads⟩ :=
      reads_path span path (Nat.le_trans hle hext.length_le) (reads_field hle h name span)
    exact ⟨id', arena', hfold, hext.trans hext', hreads⟩

/-- The target of an operator reads as the target that the tooling writes. -/
theorem targetExpression_reads (fixity : Fixity) (span : Span) (hle : operands ≤ arena.expressions.length)
    (hscope : Made scope) :
    ∃ id arena', targetExpression fixity span arena = .ok (id, arena') ∧ Extends arena arena' ∧
      ReadsAs arena' operands scope id (targetExpr fixity span) := by
  obtain ⟨root, path, htarget, hroot⟩ := fixity.named
  have hfree : scope root = none := by
    by_contra h
    exact hroot (hscope root h)
  unfold targetExpression targetExpr
  rw [htarget]
  by_cases hat : root.toList.head? = some '@'
  · simp only [targetPath, if_pos hat]
    have hext := extends_expression arena ⟨.intrinsic root, span⟩
    obtain ⟨id, arena', hfold, hext', hreads⟩ :=
      reads_path span path (Nat.le_trans hle hext.length_le) (reads_intrinsic hle root span)
    exact ⟨id, arena', congrArg _ hfold, hext.trans hext', hreads⟩
  · simp only [targetPath, if_neg hat]
    have hext := extends_expression arena ⟨.var root, span⟩
    have hvar := reads_var (e := .var root span) hle (show (scope root).getD (.var root span) = _ by rw [hfree]; rfl) rfl
    obtain ⟨id, arena', hfold, hext', hreads⟩ := reads_path span path (Nat.le_trans hle hext.length_le) hvar
    exact ⟨id, arena', congrArg _ hfold, hext.trans hext', hreads⟩

/-- The step as the tooling has it. -/
def sourceStep (arena : AstArena) (step : ChainStep ExpressionId) : ChainStep Expr :=
  ⟨step.operator, .operand step.right (arena.expressionSpan step.right), step.span⟩

theorem applied_reads (start : AstArena) (fixity : Fixity) (step : ChainStep ExpressionId) {result right : ExpressionId}
    {er eR : Expr} (hle : operands ≤ arena.expressions.length) (hscope : Made scope)
    (hr : ReadsAs arena operands scope result er) (hR : ReadsAs arena operands scope right eR) :
    ∃ value arena', applied fixity step result right arena = .ok (value, ⟨er.span.start, eR.span.stop⟩, arena') ∧
      Extends arena arena' ∧ ReadsAs arena' operands scope value (apply fixity (sourceStep start step) er eR) := by
  obtain ⟨callee, arena₁, htarget, hext₁, hcallee⟩ := targetExpression_reads fixity step.span hle hscope
  have hle₁ := Nat.le_trans hle hext₁.length_le
  have hinner := reads_apply hle₁ hcallee (hr.mono hext₁) ⟨er.span.start, eR.span.stop⟩
  have hext₂ := extends_expression arena₁ ⟨.apply callee result, ⟨er.span.start, eR.span.stop⟩⟩
  have houter := reads_apply (Nat.le_trans hle₁ hext₂.length_le) hinner ((hR.mono hext₁).mono hext₂)
    ⟨er.span.start, eR.span.stop⟩
  refine ⟨_, _, ?_, (hext₁.trans hext₂).trans (extends_expression _ _), houter⟩
  unfold applied
  simp only [hr.span, hR.span, htarget]
  rfl

end Applications

/-! ### The direct fold -/

namespace FixityTable

variable {table : FixityTable} {operands : ℕ} {scope : Scope} {start : AstArena}

/-- The compiler gives what climbing gives: the same refusal, or the same steps left and an identifier that reads as
the tree. -/
def Compiled (table : FixityTable) (start : AstArena) (scope : Scope) (arena : AstArena) :
    Result (ChainStep Expr) Expr → Climbed String (ExpressionId × List (ChainStep ExpressionId) × AstArena) → Prop
  | none, made => made = none
  | some (.error e), made => made = some (.error (message e))
  | some (.ok (tree, rest)), made => ∃ id left arena', made = some (.ok (id, left, arena')) ∧
    left.map (sourceStep start) = rest ∧ Extends arena arena' ∧
    ReadsAs arena' start.expressions.length scope id (table.render tree)

/-- The operands of the steps were in the arena before the fold. -/
def Given (start : AstArena) (steps : List (ChainStep ExpressionId)) : Prop :=
  ∀ step ∈ steps, step.right < start.expressions.length

theorem reads_operand (scope : Scope) {arena : AstArena} (hext : Extends start arena) {id : ExpressionId}
    (hlt : id < start.expressions.length) :
    ReadsAs arena start.expressions.length scope id (.operand id (start.expressionSpan id)) := by
  refine ⟨Nat.lt_of_lt_of_le hlt hext.length_le, hext.span hlt, fun fuel hfuel => ?_⟩
  cases fuel with
  | zero => cases hfuel
  | succ fuel =>
    have hid := List.getElem?_eq_getElem hlt
    simp only [AstArena.read, kept hext.expressions hid, if_pos hlt, AstArena.expressionSpan, hid, Option.elim_some]

theorem nonAssociative_eq {fixity : Fixity} {step next : ChainStep ExpressionId} {rest : List (ChainStep ExpressionId)}
    (h : table.infixes step.operator = some fixity)
    (hnext : (table.grouping Expr).known (sourceStep start next) = true) :
    table.nonAssociative fixity step (next :: rest) =
      if Clash (table.grouping Expr) (sourceStep start step) ((next :: rest).map (sourceStep start)) then
        .error (message (.clash (sourceStep start step) (sourceStep start next)))
      else .ok () := by
  obtain ⟨following, h'⟩ : ∃ following, table.infixes next.operator = some following :=
    Option.isSome_iff_exists.mp hnext
  obtain ⟨-, hlevel, -, halone⟩ :=
    known_of_lookup (show table.infixes (sourceStep start step).operator = some fixity from h)
  obtain ⟨-, hlevel', -, -⟩ :=
    known_of_lookup (show table.infixes (sourceStep start next).operator = some following from h')
  simp only [nonAssociative, lookup, h', List.map_cons, Clash, hlevel, hlevel', halone, decide_eq_true_eq]
  by_cases hnone : fixity.associativity = .none
  · simp only [hnone, if_true, true_and]
    rfl
  · simp only [hnone, if_false, false_and]

theorem Compiled.after {arena arena' : AstArena} {result : Result (ChainStep Expr) Expr}
    {made : Climbed String (ExpressionId × List (ChainStep ExpressionId) × AstArena)} (hext : Extends arena arena')
    (h : Compiled table start scope arena' result made) : Compiled table start scope arena result made :=
  match result, h with
  | none, h => h
  | some (.error _), h => h
  | some (.ok (_, _)), ⟨id, left, arena'', hmade, hleft, hext', hreads⟩ =>
    ⟨id, left, arena'', hmade, hleft, hext.trans hext', hreads⟩

theorem given_left {steps left : List (ChainStep ExpressionId)} {used : List (ChainStep Expr)} (h : Given start steps)
    (hused : steps.map (sourceStep start) = used ++ left.map (sourceStep start)) : Given start left := by
  intro step hs
  have hmem : sourceStep start step ∈ steps.map (sourceStep start) := by
    rw [hused]
    exact List.mem_append_right _ (List.mem_map_of_mem hs)
  obtain ⟨step', hs', he⟩ := List.mem_map.mp hmem
  obtain ⟨hright, -⟩ := Expr.operand.inj (congrArg ChainStep.right he)
  rw [← hright]
  exact h step' hs'

/-- **The direct fold of the compiler is precedence climbing.** -/
theorem climb_compiled (table : FixityTable) (hscope : Made scope) : ∀ fuel : ℕ,
    (∀ (id : ExpressionId) (tree : OperatorTree (ChainStep Expr) Expr) (steps : List (ChainStep ExpressionId))
      (minimum : ℕ) (arena : AstArena), Extends start arena → Given start steps →
      ReadsAs arena start.expressions.length scope id (table.render tree) →
      Compiled table start scope arena
        (Support.Climbing.climb (table.grouping Expr) (·.right) fuel tree (steps.map (sourceStep start)) minimum)
        (table.climb fuel id steps minimum arena)) ∧
    (∀ (step : ChainStep ExpressionId) (fixity : Fixity) (id : ExpressionId)
      (tree : OperatorTree (ChainStep Expr) Expr) (steps : List (ChainStep ExpressionId)) (arena : AstArena),
      table.infixes step.operator = some fixity → Extends start arena → Given start steps →
      ReadsAs arena start.expressions.length scope id (table.render tree) →
      Compiled table start scope arena
        (absorb (table.grouping Expr) (·.right) fuel (sourceStep start step) tree (steps.map (sourceStep start)))
        (table.climbRight fuel fixity id steps arena)) := by
  intro fuel
  induction fuel with
  | zero => exact ⟨fun _ _ _ _ _ _ _ _ => rfl, fun _ _ _ _ _ _ _ _ _ _ => rfl⟩
  | succ fuel ih =>
    obtain ⟨ihClimb, ihRight⟩ := ih
    have hruns := runs_of_ok (g := table.grouping Expr) (fun step : ChainStep Expr => step.right) fuel
    constructor
    · intro id tree steps minimum arena hext hgiven hreads
      cases steps with
      | nil => exact ⟨id, [], arena, rfl, rfl, Extends.refl arena, hreads⟩
      | cons step steps =>
        rw [FixityTable.climb, List.map_cons, Support.Climbing.climb, lookup]
        cases h : table.infixes step.operator with
        | none =>
          rw [if_pos (unknown_of_lookup (show table.infixes (sourceStep start step).operator = none from h))]
          rfl
        | some fixity =>
          obtain ⟨hknown, hlevel, -, -⟩ :=
            known_of_lookup (show table.infixes (sourceStep start step).operator = some fixity from h)
          simp only [hknown, hlevel, Bool.true_eq_false, if_false]
          split
          · exact ⟨id, step :: steps, arena, rfl, rfl, Extends.refl arena, hreads⟩
          · have hoperand := reads_operand scope hext (hgiven step (by simp))
            have hgiven' : Given start steps := fun s hs => hgiven s (List.mem_cons_of_mem _ hs)
            have hright := ihRight step fixity step.right (.leaf (sourceStep start step).right) steps arena h hext
              hgiven' hoperand
            cases hmade : absorb (table.grouping Expr) (fun step => step.right) fuel (sourceStep start step)
                (.leaf (sourceStep start step).right) (steps.map (sourceStep start)) with
            | none =>
              rw [hmade] at hright
              rw [show table.climbRight fuel fixity step.right steps arena = none from hright]
              rfl
            | some result =>
              rw [hmade] at hright
              cases result with
              | error e =>
                rw [show table.climbRight fuel fixity step.right steps arena = some (.error (message e)) from hright]
                rfl
              | ok made =>
                obtain ⟨right, rest⟩ := made
                obtain ⟨idRight, left, arena₁, hcr, rfl, hext₁, hR⟩ := hright
                have hinner := hruns.2 hmade
                obtain ⟨used, hused, -⟩ := hinner.takes
                have hgiven₁ := given_left hgiven' hused
                have hext₁' := hext.trans hext₁
                obtain ⟨value, arena₂, happlied, hext₂, hvalue⟩ :=
                  applied_reads start fixity step hext₁'.length_le hscope (hreads.mono hext₁) hR
                have hrender : apply fixity (sourceStep start step) (table.render tree) (table.render right) =
                    table.render (.node tree (sourceStep start step) right) := by
                  simp only [FixityTable.render, show table.infixes (sourceStep start step).operator = some fixity from h]
                rw [hrender] at hvalue
                have hrest := (ihClimb value (.node tree (sourceStep start step) right) left minimum arena₂
                  (hext₁'.trans hext₂) hgiven₁ hvalue).after (hext₁.trans hext₂)
                cases left with
                | nil =>
                  simp only [hcr, nonAssociative, happlied]
                  exact hrest
                | cons next left =>
                  simp only [hcr, nonAssociative_eq h hinner.next_known, List.map_cons]
                  by_cases hclash : Clash (table.grouping Expr) (sourceStep start step)
                      (sourceStep start next :: left.map (sourceStep start))
                  · simp only [hclash, if_true]
                    rfl
                  · simp only [hclash, if_false, happlied]
                    exact hrest
    · intro step fixity id tree steps arena h hext hgiven hreads
      cases steps with
      | nil => exact ⟨id, [], arena, rfl, rfl, Extends.refl arena, hreads⟩
      | cons following steps =>
        rw [climbRight, List.map_cons, absorb, lookup]
        cases h' : table.infixes following.operator with
        | none =>
          rw [if_pos (unknown_of_lookup (show table.infixes (sourceStep start following).operator = none from h'))]
          rfl
        | some next =>
          have hstep : table.infixes (sourceStep start step).operator = some fixity := h
          have hfollowing : table.infixes (sourceStep start following).operator = some next := h'
          obtain ⟨hknown, hlevel, -, -⟩ := known_of_lookup hfollowing
          simp only [hknown, hlevel, Bool.true_eq_false, if_false, bindsTighter_iff hstep hfollowing]
          split
          · have hright := ihClimb id tree (following :: steps) next.precedence arena hext hgiven hreads
            rw [List.map_cons] at hright
            cases hmade : Support.Climbing.climb (table.grouping Expr) (fun step => step.right) fuel tree
                (sourceStep start following :: steps.map (sourceStep start)) next.precedence with
            | none =>
              rw [hmade] at hright
              rw [show table.climb fuel id (following :: steps) next.precedence arena = none from hright]
              rfl
            | some result =>
              rw [hmade] at hright
              cases result with
              | error e =>
                rw [show table.climb fuel id (following :: steps) next.precedence arena = some (.error (message e)) from
                  hright]
                rfl
              | ok made =>
                obtain ⟨right, rest⟩ := made
                obtain ⟨idRight, left, arena₁, hcr, rfl, hext₁, hR⟩ := hright
                obtain ⟨used, hused, -⟩ := (hruns.1 hmade).takes
                have hgiven₁ : Given start left := given_left hgiven hused
                simp only [hcr]
                exact (ihRight step fixity idRight right left arena₁ h (hext.trans hext₁) hgiven₁ hR).after hext₁
          · exact ⟨id, following :: steps, arena, rfl, rfl, Extends.refl arena, hreads⟩

/-! ### The fold of a long chain -/

theorem flatLeftChain_ok : ∀ {steps : List (ChainStep ExpressionId)} {precedence : ℕ} {flat flat' : Bool},
    table.flatLeftChain steps (some precedence) flat = .ok flat' →
    (∀ step ∈ steps, (table.infixes step.operator).isSome = true) ∧
      (flat' = true → flat = true ∧ ∀ step ∈ steps, ∃ fixity, table.infixes step.operator = some fixity ∧
        fixity.associativity = .left ∧ fixity.precedence = precedence)
  | [], _, _, _, h => ⟨by simp, fun h' => ⟨(Except.ok.inj h).trans h', by simp⟩⟩
  | step :: steps, precedence, flat, flat', h => by
    rw [flatLeftChain, lookup] at h
    cases hstep : table.infixes step.operator with
    | none =>
      rw [hstep] at h
      cases h
    | some fixity =>
      rw [hstep] at h
      obtain ⟨hknown, hflat⟩ := flatLeftChain_ok h
      refine ⟨fun s hs => ?_, fun h' => ?_⟩
      · rcases List.mem_cons.mp hs with rfl | hs
        · rw [hstep]
          rfl
        · exact hknown s hs
      · obtain ⟨hall, hrest⟩ := hflat h'
        simp only [Bool.and_eq_true, decide_eq_true_eq] at hall
        refine ⟨hall.1.1, fun s hs => ?_⟩
        rcases List.mem_cons.mp hs with rfl | hs
        · exact ⟨fixity, hstep, hall.1.2, hall.2⟩
        · exact hrest s hs

theorem flatLeftChain_error : ∀ {steps : List (ChainStep ExpressionId)} {precedence : Option ℕ} {flat : Bool} {e : String},
    table.flatLeftChain steps precedence flat = .error e → ∃ step ∈ steps, table.infixes step.operator = none
  | [], _, _, _, h => nomatch h
  | step :: steps, precedence, flat, e, h => by
    cases hstep : table.infixes step.operator with
    | none => exact ⟨step, by simp, hstep⟩
    | some fixity =>
      rw [flatLeftChain, lookup, hstep] at h
      have hrest : ∃ s ∈ steps, table.infixes s.operator = none := by
        cases precedence with
        | none => exact flatLeftChain_error h
        | some precedence => exact flatLeftChain_error h
      obtain ⟨s, hs, hnone⟩ := hrest
      exact ⟨s, List.mem_cons_of_mem _ hs, hnone⟩

/-- The tree of a flat chain. -/
def leftTree (start : AstArena) (tree : OperatorTree (ChainStep Expr) Expr) (steps : List (ChainStep ExpressionId)) :
    OperatorTree (ChainStep Expr) Expr :=
  (steps.map (sourceStep start)).foldl (fun tree step => .node tree step (.leaf step.right)) tree

theorem leftTree_start (start : AstArena) {steps : List (ChainStep ExpressionId)}
    (tree : OperatorTree (ChainStep Expr) Expr)
    (hknown : ∀ step ∈ steps, (table.infixes step.operator).isSome = true) :
    (table.render (leftTree start tree steps)).span.start = (table.render tree).span.start := by
  induction steps generalizing tree with
  | nil => rfl
  | cons step steps ih =>
    obtain ⟨fixity, h⟩ := Option.isSome_iff_exists.mp (hknown step (by simp))
    refine (ih _ fun s hs => hknown s (List.mem_cons_of_mem _ hs)).trans ?_
    simp only [render, show table.infixes (sourceStep start step).operator = some fixity from h]
    rfl

theorem intermediate_made (span : Span) (index : ℕ) : Intermediate (intermediate span index) := by
  unfold Intermediate intermediate
  rw [String.toList_append]
  exact List.prefix_append _ _

theorem bindAll_append {arena : AstArena} {value : Scope → ExpressionId → Option Expr} :
    ∀ {ds : List DeclarationId} {scope scope' : Scope} (more : List DeclarationId),
      bindAll arena value scope ds = some scope' →
      bindAll arena value scope (ds ++ more) = bindAll arena value scope' more
  | [], _, _, _, h => by
    cases h
    rfl
  | d :: ds, scope, scope', more, h => by
    rw [bindAll] at h
    rw [List.cons_append, bindAll]
    split at h
    · split at h
      · obtain ⟨e, hv, h⟩ := Option.bind_eq_some_iff.mp h
        simp only [hv, Option.bind_some]
        exact bindAll_append more h
      · cases h
    · cases h

/-- What the loop over a long chain keeps: its declarations bind the scope in which its result reads as the tree. -/
structure Bound (table : FixityTable) (start arena : AstArena) (scope : Scope) (declarations : List DeclarationId)
    (result : ExpressionId) (tree : OperatorTree (ChainStep Expr) Expr) : Prop where
  kept : Extends start arena
  made : Made scope
  binds : ∀ fuel, arena.expressions.length ≤ fuel →
    bindAll arena (arena.read start.expressions.length fuel) (fun _ => none) declarations = some scope
  reads : ReadsAs arena start.expressions.length scope result (table.render tree)

/-- One step of the loop: what an operator is applied to is bound to a name. -/
theorem Bound.bind {arena : AstArena} {declarations : List DeclarationId} {value : ExpressionId}
    {tree : OperatorTree (ChainStep Expr) Expr} (hb : Bound table start arena scope declarations value tree)
    {span : Span} (hspan : span = (table.render tree).span) (index : ℕ) :
    ∃ scope', Bound table start (bindIntermediate value span index arena).2.2 scope'
      (declarations ++ [(bindIntermediate value span index arena).2.1]) (bindIntermediate value span index arena).1
      tree := by
  set arena₁ := (arena.pattern (.name (intermediate span index))).2 with harena₁
  set arena₂ := (arena₁.declaration (.binding .let arena.patterns.length value)).2 with harena₂
  set arena₃ := (arena₂.expression ⟨.var (intermediate span index), span⟩).2 with harena₃
  have hext₂ : Extends arena arena₂ := (extends_pattern arena _).trans (extends_declaration arena₁ _)
  have hext : Extends arena arena₃ := hext₂.trans (extends_expression arena₂ _)
  refine ⟨fun other => if other = intermediate span index then some (table.render tree) else scope other,
    hb.kept.trans hext, fun name hname => ?_, fun fuel hfuel => ?_, ?_⟩
  · by_cases he : name = intermediate span index
    · rw [he]
      exact intermediate_made span index
    · simp only [if_neg he] at hname
      exact hb.made name hname
  · have hlength : arena.expressions.length ≤ fuel := Nat.le_trans hext.length_le hfuel
    have hread := read_mono hext (hb.reads.read fuel (Nat.lt_of_lt_of_le hb.reads.lt hlength))
    have hbinds := bindAll_mono hext (read_mono hext) (hb.binds fuel hlength)
    refine (bindAll_append _ hbinds).trans ?_
    have hd : arena₃.declarations[arena.declarations.length]? = some (.binding .let arena.patterns.length value) := by
      simp [harena₃, harena₂, harena₁, AstArena.expression, AstArena.declaration, AstArena.pattern]
    have hp : arena₃.patterns[arena.patterns.length]? = some (.name (intermediate span index)) := by
      simp [harena₃, harena₂, harena₁, AstArena.expression, AstArena.declaration, AstArena.pattern]
    show bindAll arena₃ _ scope [arena.declarations.length] = _
    simp only [bindAll, hd, hp, hread, Option.bind_some]
  · exact reads_var (Nat.le_trans hb.kept.length_le hext₂.length_le) (by simp) hspan

/-- **The loop over a long chain.** -/
theorem bindChain_bound : ∀ {steps : List (ChainStep ExpressionId)} (index : ℕ) {arena : AstArena} {scope : Scope}
    {declarations : List DeclarationId} {result : ExpressionId} {tree : OperatorTree (ChainStep Expr) Expr},
    Bound table start arena scope declarations result tree → Given start steps →
    (∀ step ∈ steps, (table.infixes step.operator).isSome = true) →
    ∃ result' declarations' arena' scope', table.bindChain steps index result declarations arena =
        .ok (result', declarations', arena') ∧ Extends arena arena' ∧
      Bound table start arena' scope' declarations' result' (leftTree start tree steps)
  | [], _, arena, scope, declarations, result, _, hb, _, _ =>
    ⟨result, declarations, arena, scope, rfl, Extends.refl arena, hb⟩
  | step :: steps, index, arena, scope, declarations, result, tree, hb, hgiven, hknown => by
    obtain ⟨fixity, h⟩ := Option.isSome_iff_exists.mp (hknown step (by simp))
    have hoperand := reads_operand scope hb.kept (hgiven step (by simp))
    obtain ⟨value, arena₁, happlied, hext₁, hvalue⟩ :=
      applied_reads start fixity step hb.kept.length_le hb.made hb.reads hoperand
    have hrender : apply fixity (sourceStep start step) (table.render tree) (sourceStep start step).right =
        table.render (.node tree (sourceStep start step) (.leaf (sourceStep start step).right)) := by
      simp only [FixityTable.render, show table.infixes (sourceStep start step).operator = some fixity from h]
    have hb₁ : Bound table start arena₁ scope declarations value
        (.node tree (sourceStep start step) (.leaf (sourceStep start step).right)) :=
      ⟨hb.kept.trans hext₁, hb.made, fun fuel hfuel =>
        bindAll_mono hext₁ (read_mono hext₁) (hb.binds fuel (Nat.le_trans hext₁.length_le hfuel)), hrender ▸ hvalue⟩
    obtain ⟨scope₂, hb₂⟩ := hb₁.bind (by rw [← hrender]) index
    obtain ⟨result', declarations', arena', scope', hfold, hext', hb'⟩ := bindChain_bound (index + 1) hb₂
      (fun s hs => hgiven s (List.mem_cons_of_mem _ hs)) fun s hs => hknown s (List.mem_cons_of_mem _ hs)
    refine ⟨result', declarations', arena', scope', ?_, ?_, hb'⟩
    · rw [bindChain, lookup, h]
      simp only [happlied]
      exact hfold
    · refine (hext₁.trans ?_).trans hext'
      exact ((extends_pattern arena₁ _).trans (extends_declaration _ _)).trans (extends_expression _ _)

theorem blockChain_reads {first : ExpressionId} {steps : List (ChainStep ExpressionId)}
    (hfirst : first < start.expressions.length) (hgiven : Given start steps)
    (hknown : ∀ step ∈ steps, (table.infixes step.operator).isSome = true) :
    ∃ id arena', table.blockChain first steps start = .ok (id, arena') ∧
      ReadsAs arena' start.expressions.length (fun _ => none) id
        (table.render (leftTree start (.leaf (.operand first (start.expressionSpan first))) steps)) := by
  have hstart : Bound table start start (fun _ => none) [] first
      (.leaf (.operand first (start.expressionSpan first))) :=
    ⟨Extends.refl start, fun _ h => absurd rfl h, fun _ _ => rfl, reads_operand _ (Extends.refl start) hfirst⟩
  obtain ⟨result, declarations, arena, scope, hfold, hext, hb⟩ := bindChain_bound 0 hstart hgiven hknown
  set tree := leftTree start (.leaf (.operand first (start.expressionSpan first))) steps with htree
  have hspan : Span.mk (arena.expressionSpan first).start (arena.expressionSpan result).stop =
      (table.render tree).span := by
    rw [hext.span hfirst, hb.reads.span]
    have := leftTree_start start (.leaf (.operand first (start.expressionSpan first))) hknown
    rw [← htree] at this
    rw [show (start.expressionSpan first).start = (table.render tree).span.start from this.symm]
  have hblock := extends_expression arena ⟨.block declarations result, (table.render tree).span⟩
  refine ⟨arena.expressions.length, (arena.expression ⟨.block declarations result, (table.render tree).span⟩).2, ?_,
    expression_lt _ _, expression_span _ _, fun fuel hfuel => ?_⟩
  · rw [blockChain, hfold]
    simp only [hspan]
    rfl
  · cases fuel with
    | zero => cases hfuel
    | succ fuel =>
      have hfuel' : arena.expressions.length ≤ fuel := Nat.le_of_lt_succ hfuel
      simp only [AstArena.read, expression_getElem?, if_neg (Nat.not_lt_of_le hext.length_le),
        bindAll_mono hblock (read_mono hblock) (hb.binds fuel hfuel'), Option.bind_some]
      exact read_mono hblock (hb.reads.read fuel (Nat.lt_of_lt_of_le hb.reads.lt hfuel'))

/-! ### The fold -/

/-- What the compiler makes of a chain, against what climbing makes of it. -/
def Compiles (table : FixityTable) (start : AstArena) :
    Result (ChainStep Expr) Expr → Climbed String (ExpressionId × AstArena) → Prop
  | none, _ => False
  | some (.error _), made => ∃ text, made = some (.error text)
  | some (.ok (tree, _)), made => ∃ id arena', made = some (.ok (id, arena')) ∧
    ReadsAs arena' start.expressions.length (fun _ => none) id (table.render tree)

theorem climbChain_compiles {first : ExpressionId} {steps : List (ChainStep ExpressionId)}
    (hfirst : first < start.expressions.length) (hgiven : Given start steps) :
    Compiles table start (fold (table.grouping Expr) (·.right) (.operand first (start.expressionSpan first))
      (steps.map (sourceStep start))) (table.climbChain first steps start) := by
  have hmade := (climb_compiled table (fun _ h => absurd rfl h)
    (2 * steps.length + 1)).1 first (.leaf (.operand first (start.expressionSpan first))) steps 0 start
    (Extends.refl start) hgiven (reads_operand _ (Extends.refl start) hfirst)
  have hfold : Support.Climbing.climb (table.grouping Expr) (fun step => step.right) (2 * steps.length + 1)
      (.leaf (.operand first (start.expressionSpan first))) (steps.map (sourceStep start)) 0 =
      fold (table.grouping Expr) (fun step => step.right) (.operand first (start.expressionSpan first))
        (steps.map (sourceStep start)) := by
    rw [fold, List.length_map]
  rw [hfold] at hmade
  cases hresult : fold (table.grouping Expr) (fun step => step.right) (.operand first (start.expressionSpan first))
      (steps.map (sourceStep start)) with
  | none => exact absurd hresult ((returns _).1 _ _ _ (Nat.le_refl _))
  | some result =>
    rw [hresult] at hmade
    cases result with
    | error e =>
      exact ⟨message e, by rw [climbChain, show table.climb _ _ _ _ _ = some (.error (message e)) from hmade]⟩
    | ok made =>
      obtain ⟨tree, rest⟩ := made
      obtain ⟨rfl, -⟩ := fold_ok hresult
      obtain ⟨id, left, arena', hclimb, hleft, -, hreads⟩ := hmade
      obtain rfl := List.map_eq_nil_iff.mp hleft
      exact ⟨id, arena', by rw [climbChain, hclimb], hreads⟩

/-- **The fold of the compiler makes what climbing makes**: it refuses what climbing refuses, and what it leaves in the
arena reads as the same tree. -/
theorem foldChain_compiles (table : FixityTable) {first : ExpressionId} {steps : List (ChainStep ExpressionId)}
    (hfirst : first < start.expressions.length) (hgiven : Given start steps) :
    Compiles table start (fold (table.grouping Expr) (·.right) (.operand first (start.expressionSpan first))
      (steps.map (sourceStep start))) (table.foldChain first steps start) := by
  unfold foldChain
  split
  · cases hflat : table.flatLeftChain steps none true with
    | error text =>
      obtain ⟨step, hs, hnone⟩ := flatLeftChain_error hflat
      cases hresult : fold (table.grouping Expr) (fun step => step.right)
          (.operand first (start.expressionSpan first)) (steps.map (sourceStep start)) with
      | none => exact absurd hresult ((returns _).1 _ _ _ (Nat.le_refl _))
      | some result =>
        cases result with
        | error e => exact ⟨text, rfl⟩
        | ok made =>
          obtain ⟨-, -, -, -, hknown⟩ := fold_ok hresult
          have := hknown (sourceStep start step) (List.mem_map_of_mem hs)
          rw [unknown_of_lookup (show table.infixes (sourceStep start step).operator = none from hnone)] at this
          cases this
    | ok flat =>
      cases flat with
      | false => exact climbChain_compiles hfirst hgiven
      | true =>
        obtain ⟨precedence, hall⟩ : ∃ precedence, ∀ step ∈ steps, ∃ fixity,
            table.infixes step.operator = some fixity ∧ fixity.associativity = .left ∧
              fixity.precedence = precedence := by
          cases steps with
          | nil => exact ⟨0, by simp⟩
          | cons step steps =>
            rw [flatLeftChain, lookup] at hflat
            cases hstep : table.infixes step.operator with
            | none =>
              rw [hstep] at hflat
              cases hflat
            | some fixity =>
              rw [hstep] at hflat
              obtain ⟨hleft, hrest⟩ := (flatLeftChain_ok hflat).2 rfl
              refine ⟨fixity.precedence, fun s hs => ?_⟩
              rcases List.mem_cons.mp hs with rfl | hs
              · exact ⟨fixity, hstep, by simpa using hleft, rfl⟩
              · exact hrest s hs
        have hknown : ∀ step ∈ steps, (table.infixes step.operator).isSome = true := by
          intro step hs
          obtain ⟨fixity, h, -⟩ := hall step hs
          rw [h]
          rfl
        obtain ⟨id, arena', hblock, hreads⟩ := blockChain_reads hfirst hgiven hknown
        have hclimb : fold (table.grouping Expr) (fun step => step.right) (.operand first (start.expressionSpan first))
            (steps.map (sourceStep start)) =
            some (.ok (leftTree start (.leaf (.operand first (start.expressionSpan first))) steps, [])) := by
          refine climb_flat (Nat.zero_le precedence) _ (fun s hs => ?_) (Nat.le_refl _)
          obtain ⟨step, hstep, rfl⟩ := List.mem_map.mp hs
          obtain ⟨fixity, h, hleft, hprecedence⟩ := hall step hstep
          obtain ⟨hknown, hlevel, hright, halone⟩ :=
            known_of_lookup (show table.infixes (sourceStep start step).operator = some fixity from h)
          refine ⟨hknown, hlevel.trans hprecedence, ?_, ?_⟩
          · rw [hright, hleft]
            rfl
          · rw [halone, hleft]
            rfl
        rw [hclimb]
        exact ⟨id, arena', congrArg some hblock, hreads⟩
  · exact climbChain_compiles hfirst hgiven

end FixityTable

end Blot.Operators
