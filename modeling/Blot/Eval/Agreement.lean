import Blot.Support.Lockstep
import Blot.Eval.Bytecode

/-!
# The instruction machine agrees with the AST evaluator

A frame stands for the continuations that the AST evaluator has in its place.  With frames read so, a state of the
machine is a state of the AST evaluator's loop, and the two go on in lockstep.
-/

namespace Blot.Eval

open Support Support.Lockstep

variable {X R : Type}

/-! ### What a frame stands for -/

variable (S : Semantics X R)

def Frame.continuations : Frame X R → List (Continuation X R)
  | .return completion => [.finish completion]
  | .origin module => [.origin module]
  | .external k => [k]
  | .applyFunction activation argument evidence => [.value (S.applyFunction activation argument evidence)]
  | .applyArgument activation function evidence =>
    [.value fun argument => S.applyWithExpected function
      ⟨argument, evidence.expectedArgument, evidence.span, activation.runtime, evidence.expectedResult,
        evidence.application⟩]
  | .project name span => [.value fun target s => (.done (S.project target name span), s)]
  | .tuple activation expressions values =>
    [.value fun value => Semantics.evaluateMany activation expressions (values ++ [value]), .value Semantics.tupleOf]
  | .array activation elements index values span => [.value (S.arrayElement activation elements index values span)]
  | .shapeName activation members index fields span => [.value (S.shapeName activation members index fields span)]
  | .shapeValue activation members index fields name span =>
    [.value (S.shapeMember activation members index fields name span)]
  | .branch activation branches fallback index span =>
    [.value (S.branchCondition activation branches fallback index span)]
  | .case activation arms checkedResult span => [.value (S.evaluateArms activation arms checkedResult span)]

def stack (frames : List (Frame X R)) : List (Continuation X R) := frames.flatMap (Frame.continuations S)

def Action.computation : Action X R → Computation X R
  | .evaluate activation expression => .evaluate activation expression
  | .complete result => .done result
  | .semantic computation => computation

def World.ast (w : World X R (Frame X R)) : World X R (Continuation X R) :=
  ⟨w.store, w.captured.map (Option.map (stack S)), w.requests⟩

def Machine.ast (m : Machine X R) : AstRun X R := ⟨m.action.computation, stack S m.frames, m.world.ast S⟩

/-! ### The forms that go through their operands -/

section Forms

variable {S} (activation : Activation X) (span : Span) (s : Store X R)

theorem evaluateMany_lt {expressions : List ExpressionId} {values : List (Value X)}
    (h : values.length < expressions.length) :
    Semantics.evaluateMany activation expressions values s =
      (.andThen (.evaluate activation expressions[values.length]) fun value =>
        Semantics.evaluateMany activation expressions (values ++ [value]), s) := by
  rw [Semantics.evaluateMany, dif_pos h]

theorem evaluateMany_ge {expressions : List ExpressionId} {values : List (Value X)}
    (h : ¬ values.length < expressions.length) :
    Semantics.evaluateMany activation expressions values s = (.value (.array values), s) := by
  rw [Semantics.evaluateMany, dif_neg h]

theorem evaluateArray_lt {elements : List ArrayElement} {index : ℕ} (h : index < elements.length)
    (values : List (Value X)) :
    S.evaluateArray activation elements span index values s =
      (.andThen (.evaluate activation elements[index].value)
        (S.arrayElement activation elements ⟨index, h⟩ values span), s) := by
  rw [Semantics.evaluateArray, dif_pos h]
  rfl

theorem evaluateArray_ge {elements : List ArrayElement} {index : ℕ} (h : ¬ index < elements.length)
    (values : List (Value X)) :
    S.evaluateArray activation elements span index values s = (.value (.array values), s) := by
  rw [Semantics.evaluateArray, dif_neg h]

theorem evaluateIf_lt {branches : List Branch} {index : ℕ} (h : index < branches.length)
    (fallback : Option ExpressionId) :
    S.evaluateIf activation branches fallback span index s =
      (.andThen (.evaluate activation.operand branches[index].condition)
        (S.branchCondition activation branches fallback ⟨index, h⟩ span), s) := by
  rw [Semantics.evaluateIf.eq_def]
  exact dif_pos h

theorem evaluateIf_ge {branches : List Branch} {index : ℕ} (h : ¬ index < branches.length)
    (fallback : Option ExpressionId) :
    S.evaluateIf activation branches fallback span index s =
      match fallback with
      | some fallback => (.evaluate activation fallback, s)
      | none => (.done (.error (noBranch span)), s) := by
  rw [Semantics.evaluateIf.eq_def]
  exact (dif_neg h).trans (by cases fallback <;> rfl)

end Forms

/-! ### One step -/

section Steps

variable {S} {host : Host X R}

/-- The machine and the AST evaluator come together. -/
abbrev Together (S : Semantics X R) (host : Host X R) : Machine X R → AstRun X R → Prop :=
  Meets (Machine.next S host) (AstRun.next S host) fun m r => r = m.ast S

/-- The AST evaluator over the continuations of a machine, with another computation and store. -/
def Machine.astWith (S : Semantics X R) (m : Machine X R) (p : Computation X R × Store X R) : AstRun X R :=
  ⟨p.1, stack S m.frames, { m.world.ast S with store := p.2 }⟩

theorem together_goOnWith (m : Machine X R) (p : Computation X R × Store X R) :
    Together S host (m.goOnWith p) (m.astWith S p) := .now rfl

/-- An operand is evaluated under a frame, or under the continuation that the frame stands for. -/
theorem together_operand {m : Machine X R} {frame : Frame X R} {k : Value X → Store X R → Computation X R × Store X R}
    (hk : frame.continuations S = [.value k]) (activation : Activation X) (id : ExpressionId) (s : Store X R) :
    Together S host (m.goOn (.evaluate activation id) [frame] s)
      (m.astWith S (.andThen (.evaluate activation id) k, s)) := by
  refine .right rfl (.now ?_)
  show _ = Machine.ast S ⟨_, frame :: m.frames, _⟩
  unfold Machine.ast stack
  rw [List.flatMap_cons, hk]
  rfl

theorem together_shape (m : Machine X R) (activation : Activation X) (members : List ShapeMember) (index : ℕ)
    (fields : List (String × Value X)) (span : Span) (s : Store X R) :
    Together S host (m.shape activation members index fields span s)
      (m.astWith S (S.evaluateShape activation members span index fields s)) := by
  unfold Machine.shape
  rw [Semantics.evaluateShape.eq_def]
  by_cases h : index < members.length
  · rw [dif_pos h, dif_pos h]
    cases hm : members[index] with
    | field name value => exact together_operand rfl _ _ _
    | spread value =>
      refine together_operand ?_ _ _ _
      show [_] = [_]
      congr 2
      funext value s
      cases value <;> rfl
    | computed name value =>
      refine together_operand ?_ _ _ _
      show [_] = [_]
      congr 2
      funext name s
      unfold Semantics.shapeName
      simp only [Fin.getElem_fin, hm]
      cases name <;> rfl
  · rw [dif_neg h, dif_neg h]
    exact .now rfl

theorem together_array (m : Machine X R) (activation : Activation X) (elements : List ArrayElement) (index : ℕ)
    (values : List (Value X)) (span : Span) (s : Store X R) :
    Together S host (m.array activation elements index values span s)
      (m.astWith S (S.evaluateArray activation elements span index values s)) := by
  unfold Machine.array
  by_cases h : index < elements.length
  · rw [dif_pos h, evaluateArray_lt _ _ _ h]
    exact together_operand rfl _ _ _
  · rw [dif_neg h, evaluateArray_ge _ _ _ h]
    exact .now rfl

theorem together_branch (m : Machine X R) (activation : Activation X) (branches : List Branch)
    (fallback : Option ExpressionId) (index : ℕ) (span : Span) (s : Store X R) :
    Together S host (m.branch activation branches fallback index span s)
      (m.astWith S (S.evaluateIf activation branches fallback span index s)) := by
  unfold Machine.branch
  by_cases h : index < branches.length
  · rw [dif_pos h, evaluateIf_lt _ _ _ h]
    exact together_operand rfl _ _ _
  · rw [dif_neg h, evaluateIf_ge _ _ _ h]
    cases fallback <;> exact .now rfl

/-! ### Instructions -/

/-- The machine under the frame of an origin. -/
def Machine.under (m : Machine X R) (module : String) : Machine X R := { m with frames := .origin module :: m.frames }

/-- The AST evaluator leaves early, without an origin; the machine goes through its frame. -/
theorem together_early (m : Machine X R) (module : String) (result : Result X) (s : Store X R) :
    Together S host ((m.under module).complete result s) (m.astWith S (.done result, s)) := .left rfl (.now rfl)

theorem together_result (m : Machine X R) (module : String) (result : Result X) (s : Store X R) :
    Together S host ((m.under module).complete result s) (m.astWith S (.origin (.done result) module, s)) :=
  .right rfl (.now rfl)

theorem together_under {m : Machine X R} {module : String} {m' : Machine X R} {p : Computation X R × Store X R}
    (h : Together S host m' ((m.under module).astWith S p)) :
    Together S host m' (m.astWith S (.origin p.1 module, p.2)) := .right rfl h

theorem integer_eq (runtime : Runtime X) (representation : Option (Value X)) (value : ℤ) (span : Span) :
    Machine.integer S runtime representation value span = S.integer runtime representation value span := by
  unfold Machine.integer Semantics.integer
  cases representation with
  | none => rfl
  | some type =>
    cases type with
    | range low high domain =>
      rcases domain with _ | _ | _ | _ | _
      case some.float => cases S.toF64 value <;> rfl
      case some.float32 => cases S.toF32 value <;> rfl
      all_goals rfl
    | _ => rfl

theorem any_conflicts (blocks : List (Option ℕ)) : blocks.any (Semantics.conflicts none) = !blocks.isEmpty := by
  have hall : ∀ prior, Semantics.conflicts none prior = true := by
    rintro (_ | prior) <;> rfl
  cases blocks with
  | nil => rfl
  | cons prior blocks => rw [List.any_cons, hall]; rfl

/-- **The signature of a closure** is the same substituted in the environment at hand and in the captured one. -/
theorem substituteSignature_capture (activation : Activation X) (parameter : PatternId) (body : ExpressionId)
    (s : Store X R) (rest : R) (signature : Value X) :
    let captured := S.capture activation parameter body s
    S.substituteSignature signature captured.1 { captured.2 with rest := rest } =
      S.substituteSignature signature activation.environment { captured.2 with rest := rest } := by
  unfold Semantics.capture
  cases activation.runtime.locals with
  | none => rfl
  | some locals =>
    dsimp only
    by_cases hmodule : locals.module = activation.module
    · rw [if_pos hmodule]
      unfold Semantics.substituteSignature
      have htypes := funext (substitution_captureBefore (s := s) activation.environment locals.base
        (S.captures activation.module parameter body))
      have heffects := funext (effectSubstitution_captureBefore (s := s) activation.environment locals.base
        (S.captures activation.module parameter body))
      exact congr (congrArg (S.substitute signature) htypes) heffects
    · rw [if_neg hmodule]

/-- **An instruction does what the form it was compiled from does.** -/
theorem together_execute (m : Machine X R) (activation : Activation X) (id : ExpressionId) (expression : Expression)
    (s : Store X R) (hsemantic : S.compile expression ≠ .semantic) :
    Together S host
      ((m.under activation.module).execute S activation id (S.compile expression) expression.span s)
      (m.astWith S (S.evaluateForm activation id expression s)) := by
  obtain ⟨form, span⟩ := expression
  cases form with
  | unit | text value | tag name => exact together_result _ _ _ _
  | int value =>
    have hinteger : S.integer activation.operand.runtime (S.representation activation.operand id s).1 value span =
        S.integer activation.runtime (S.representation activation id s).1 value span := rfl
    unfold Machine.execute Semantics.evaluateForm
    dsimp only [Semantics.compile]
    rw [integer_eq, hinteger]
    cases S.integer _ _ value span with
    | ok value => exact together_result _ _ _ _
    | error e => exact together_early _ _ _ _
  | float value => exact together_result _ _ _ _
  | var name =>
    unfold Machine.execute Semantics.evaluateForm
    dsimp only [Semantics.compile, Activation.operand]
    generalize S.load _ _ _ _ _ _ = loaded
    obtain ⟨_ | value, s⟩ := loaded
    · exact together_result _ _ _ _
    · cases value
      case deferred module expression environment demands =>
        dsimp only
        rw [any_conflicts]
        cases (s.demandedBlocks demands activation.runtime.execution).isEmpty with
        | true => exact .right rfl (.now rfl)
        | false => exact together_early _ _ _ _
      all_goals exact together_result _ _ _ _
  | intrinsic name =>
    have form : S.evaluateForm activation id ⟨.intrinsic name, span⟩ s =
        (.origin (.done (S.intrinsic name span)) activation.module, s) := rfl
    rw [form]
    revert hsemantic
    unfold Semantics.compile
    dsimp only
    by_cases harray : name = "@array.empty"
    · rw [if_pos harray, Semantics.intrinsic, if_pos harray]
      exact fun _ => together_result _ _ _ _
    · rw [if_neg harray]
      by_cases hshape : name = "@shape.empty"
      · rw [if_pos hshape, Semantics.intrinsic, if_neg harray, if_pos hshape]
        exact fun _ => together_result _ _ _ _
      · rw [if_neg hshape]
        cases S.intrinsic name span with
        | ok value => exact fun _ => together_result _ _ _ _
        | error e => exact fun h => absurd rfl h
  | apply function argument =>
    have hprepare :
        S.prepareApplication activation.operand id function argument activation.runtime.resultContext span s =
        S.prepareApplication activation id function argument activation.runtime.resultContext span s := rfl
    unfold Machine.execute Semantics.evaluateForm
    dsimp only [Semantics.compile]
    rw [hprepare]
    generalize S.prepareApplication _ _ _ _ _ _ _ = prepared
    obtain ⟨e | value | evidence, s⟩ := prepared
    · exact together_early _ _ _ _
    · exact together_early _ _ _ _
    · exact together_under (together_operand rfl _ _ _)
  | field target name => exact together_under (together_operand rfl _ _ _)
  | lambda parameter body deferred =>
    have hsignature := substituteSignature_capture (S := S) activation parameter body s
      (S.closureSignature activation.runtime.instanceFacts activation.module body
        (S.capture activation parameter body s).2.rest).2
    have closed : ∀ (environment : Environment) (signature signature' : Option (Value X)) (s : Store X R),
        signature = signature' → Together S host
          ((m.under activation.module).complete
            (.ok (Semantics.closure activation parameter body deferred environment signature)) s)
          (m.astWith S (.origin (.value
            (Semantics.closure activation parameter body deferred environment signature')) activation.module, s)) := by
      rintro environment signature _ s rfl
      exact together_result _ _ _ _
    exact closed _ _ _ _ (congrArg (fun f => Option.map f _) (funext hsignature).symm)
  | tuple elements =>
    show Together S host _
      (m.astWith S (.origin (.andThen (Semantics.evaluateMany activation.operand elements [] s).1 Semantics.tupleOf)
        activation.module, (Semantics.evaluateMany activation.operand elements [] s).2))
    cases elements with
    | nil =>
      have h : ¬ ([] : List (Value X)).length < ([] : List ExpressionId).length := Nat.lt_irrefl 0
      rw [evaluateMany_ge _ _ h]
      exact .right rfl (.right rfl (.right rfl (.now rfl)))
    | cons first elements =>
      have h : ([] : List (Value X)).length < (first :: elements).length := Nat.zero_lt_succ _
      rw [evaluateMany_lt _ _ h]
      exact .right rfl (.right rfl (.right rfl (.now rfl)))
  | array elements => exact together_under (together_array _ _ _ _ _ _ _)
  | shape members => exact together_under (together_shape _ _ _ _ _ _ _)
  | ifThen branches fallback => exact together_under (together_branch _ _ _ _ _ _ _)
  | caseOf target arms => exact together_under (together_operand rfl _ _ _)
  | block declarations result => exact absurd rfl hsemantic
  | recLambda lambda => exact absurd rfl hsemantic

/-! ### Frames -/

theorem together_condition (m : Machine X R) (activation : Activation X) (branches : List Branch)
    (fallback : Option ExpressionId) (index : Fin branches.length) (span : Span) (value : Value X) :
    Together S host (m.resumeValue S (.branch activation branches fallback index span) value)
      (m.astWith S (S.branchCondition activation branches fallback index span value m.world.store)) := by
  cases value
  case runtime condition => exact .now rfl
  all_goals
    unfold Machine.resumeValue Semantics.branchCondition
    dsimp only
    generalize S.truth _ span = truth
    obtain e | _ | _ := truth
    · exact .now rfl
    · exact together_branch _ _ _ _ _ _ _
    · exact .now rfl

theorem together_target (m : Machine X R) (activation : Activation X) (arms : List Arm)
    (checkedResult : Option (Value X)) (span : Span) (value : Value X) :
    Together S host (m.resumeValue S (.case activation arms checkedResult span) value)
      (m.astWith S (S.evaluateArms activation arms checkedResult span value m.world.store)) := by
  cases value
  case runtime target => exact .now rfl
  all_goals
    unfold Machine.resumeValue Semantics.evaluateArms
    dsimp only
    cases S.module activation.module with
    | error e => exact .now rfl
    | ok source =>
      dsimp only
      generalize S.selectArm _ _ _ _ _ = selected
      obtain ⟨_ | ⟨body, scope⟩, s⟩ := selected
      all_goals exact .now rfl

theorem follows_resumeValue (m : Machine X R) (frame : Frame X R) (value : Value X) :
    ∃ r, Step (AstRun.next S host) ⟨.done (.ok value), frame.continuations S ++ stack S m.frames, m.world.ast S⟩ r ∧
      Together S host (m.resumeValue S frame value) r := by
  cases frame with
  | «return» completion | origin module | external k => exact ⟨_, rfl, .now rfl⟩
  | applyFunction activation argument evidence =>
    refine ⟨_, rfl, ?_⟩
    show Together S host _ (m.astWith S (S.applyFunction activation argument evidence value m.world.store))
    unfold Machine.resumeValue Semantics.applyFunction
    dsimp only
    cases deferredFunction value.stripped with
    | none => exact .now rfl
    | some deferred =>
      cases deferred with
      | true => exact .now rfl
      | false => exact together_operand rfl _ _ _
  | applyArgument activation function evidence | project name span => exact ⟨_, rfl, .now rfl⟩
  | tuple activation expressions values =>
    refine ⟨_, rfl, ?_⟩
    unfold Machine.resumeValue
    dsimp only [Continuation.take]
    by_cases h : (values ++ [value]).length < expressions.length
    · rw [evaluateMany_lt _ _ h, List.getElem?_eq_getElem h]
      exact .right rfl (.now rfl)
    · rw [evaluateMany_ge _ _ h, List.getElem?_eq_none (Nat.not_lt.1 h)]
      exact .right rfl (.now rfl)
  | array activation elements index values span =>
    refine ⟨_, rfl, ?_⟩
    show Together S host _ (m.astWith S (S.arrayElement activation elements index values span value m.world.store))
    unfold Machine.resumeValue Semantics.arrayElement
    dsimp only
    cases elements[index].spread with
    | false => exact together_array _ _ _ _ _ _ _
    | true => cases value <;> first | exact together_array _ _ _ _ _ _ _ | exact .now rfl
  | shapeName activation members index fields span =>
    refine ⟨_, rfl, ?_⟩
    show Together S host _ (m.astWith S (S.shapeName activation members index fields span value m.world.store))
    unfold Machine.resumeValue Semantics.shapeName
    dsimp only
    cases members[index] <;> cases value <;> first | exact together_operand rfl _ _ _ | exact .now rfl
  | shapeValue activation members index fields name span =>
    refine ⟨_, rfl, ?_⟩
    show Together S host _ (m.astWith S (S.shapeMember activation members index fields name span value m.world.store))
    unfold Machine.resumeValue Semantics.shapeMember
    dsimp only
    cases name with
    | some name => exact together_shape _ _ _ _ _ _ _
    | none => cases value <;> first | exact together_shape _ _ _ _ _ _ _ | exact .now rfl
  | branch activation branches fallback index span =>
    refine ⟨_, rfl, ?_⟩
    show Together S host _
      (m.astWith S (S.branchCondition activation branches fallback index span value m.world.store))
    exact together_condition _ _ _ _ _ _ _
  | case activation arms checkedResult span =>
    refine ⟨_, rfl, ?_⟩
    show Together S host _ (m.astWith S (S.evaluateArms activation arms checkedResult span value m.world.store))
    exact together_target _ _ _ _ _ _

/-! ### Rounds -/

theorem evaluate_semantic (m : Machine X R) (activation : Activation X) (id : ExpressionId) {span : Span}
    (h : S.instruction activation id = (.semantic, span)) :
    m.evaluate S activation id = m.goOnWith (S.evaluateAst activation id m.world.store) := by
  unfold Machine.evaluate
  rw [h]

/-- An instruction: fuel, a signature hole, then the instruction, under the frame of its origin. -/
theorem evaluate_instruction (m : Machine X R) (activation : Activation X) (id : ExpressionId)
    {instruction : Instruction X} {span : Span} (h : S.instruction activation id = (instruction, span))
    (hsemantic : instruction ≠ .semantic) :
    m.evaluate S activation id =
      let s : Store X R := { m.world.store with fuel := m.world.store.fuel - 1 }
      if s.fuel < 0 then
        (m.under activation.module).complete (.error (Semantics.evaluationLimit activation id span)) s
      else
        match Semantics.signatureHole activation id with
        | some variableId => (m.under activation.module).complete (.ok (.typeVariable variableId)) s
        | none => (m.under activation.module).execute S activation id instruction span s := by
  unfold Machine.evaluate
  rw [h]
  cases instruction <;> first | exact absurd rfl hsemantic | rfl

theorem evaluateAst_expression (activation : Activation X) (id : ExpressionId) (s : Store X R) {expression : Expression}
    (h : S.expression activation.module id = some expression) :
    S.evaluateAst activation id s =
      let s : Store X R := { s with fuel := s.fuel - 1 }
      if s.fuel < 0 then (.done (.error (Semantics.evaluationLimit activation id expression.span)), s)
      else
        match Semantics.signatureHole activation id with
        | some variableId => (.value (.typeVariable variableId), s)
        | none => S.evaluateForm activation id expression s := by
  obtain ⟨source, hmodule, hexpression⟩ := Option.bind_eq_some_iff.1 h
  cases hhole : Semantics.signatureHole activation id <;>
    simp [Semantics.evaluateAst, Semantics.module, hmodule, hexpression, hhole]

/-- **An expression**: the machine and the AST evaluator go on to states that come together. -/
theorem together_evaluate (m : Machine X R) (activation : Activation X) (id : ExpressionId) :
    Together S host (m.evaluate S activation id) (m.astWith S (S.evaluateAst activation id m.world.store)) := by
  cases hexpression : S.expression activation.module id with
  | none =>
    rw [evaluate_semantic m activation id (show S.instruction activation id = _ by
      unfold Semantics.instruction
      rw [hexpression])]
    exact together_goOnWith _ _
  | some expression =>
    have hinstruction : S.instruction activation id = (S.compile expression, expression.span) := by
      unfold Semantics.instruction
      rw [hexpression]
    by_cases hsemantic : S.compile expression = .semantic
    · rw [evaluate_semantic m activation id (hsemantic ▸ hinstruction)]
      exact together_goOnWith _ _
    · rw [evaluate_instruction m activation id hinstruction hsemantic, evaluateAst_expression _ _ _ hexpression]
      dsimp only
      by_cases hfuel : m.world.store.fuel - 1 < 0
      · rw [if_pos hfuel, if_pos hfuel]
        exact together_early _ _ _ _
      · rw [if_neg hfuel, if_neg hfuel]
        cases Semantics.signatureHole activation id with
        | some variableId => exact together_early _ _ _ _
        | none => exact together_execute _ _ _ _ _ hsemantic

theorem follows_evaluate (activation : Activation X) (id : ExpressionId) (frames : List (Frame X R))
    (w : World X R (Frame X R)) :
    Follows (Machine.next S host) (AstRun.next S host) (fun m r => r = m.ast S) ⟨.evaluate activation id, frames, w⟩
      (Machine.ast S ⟨.evaluate activation id, frames, w⟩) :=
  .of_steps rfl rfl (together_evaluate _ _ _)

theorem resume_ok (m : Machine X R) (frame : Frame X R) (value : Value X) :
    m.resume S frame (.ok value) = m.resumeValue S frame value := by
  cases frame <;> rfl

/-- **A result**: it goes into the last frame, or the run is over. -/
theorem follows_complete (result : Result X) (frames : List (Frame X R)) (w : World X R (Frame X R)) :
    Follows (Machine.next S host) (AstRun.next S host) (fun m r => r = m.ast S) ⟨.complete result, frames, w⟩
      (Machine.ast S ⟨.complete result, frames, w⟩) := by
  cases frames with
  | nil => exact Or.inl ⟨_, ends_now rfl, ends_now rfl⟩
  | cons frame frames =>
    cases result with
    | ok value =>
      let m : Machine X R := ⟨.complete (.ok value), frames, w⟩
      obtain ⟨r, hr, htogether⟩ := @follows_resumeValue X R S host m frame value
      have hm : Step (Machine.next S host) ⟨.complete (.ok value), frame :: frames, w⟩ (m.resumeValue S frame value) :=
        congrArg Sum.inl (resume_ok m frame value)
      exact .of_steps hm hr htogether
    | error e =>
      -- a tuple stands for two continuations, so its error goes through both
      cases frame with
      | tuple activation expressions values => exact .of_steps rfl rfl (.right rfl (.now rfl))
      | _ => exact .of_steps rfl rfl (.now rfl)

/-! ### Requests -/

theorem splitHandler_append {K : Type} (handler? : K → Option (Handler X R)) (request : Perform X) {xs : List K}
    (hxs : ∀ k ∈ xs, handler? k = none) (ys : List K) :
    World.splitHandler handler? request (xs ++ ys) =
      (World.splitHandler handler? request ys).map fun p => (xs ++ p.1, p.2) := by
  induction xs with
  | nil => simp
  | cons k xs ih =>
    rw [List.cons_append, World.splitHandler, ih fun k hk => hxs k (List.mem_cons_of_mem _ hk),
      hxs k List.mem_cons_self]
    dsimp only
    rw [Option.map_map]
    rfl

theorem handler_continuations (frame : Frame X R) (h : frame.handler? = none) :
    ∀ k ∈ frame.continuations S, k.handler? = none := by
  cases frame with
  | external k =>
    intro k' hk
    rw [List.mem_singleton.1 hk]
    exact h
  | _ => simp [Frame.continuations, Continuation.handler?]

/-- **A handler** is found among frames where it is found among the continuations they stand for. -/
theorem splitHandler_stack (request : Perform X) (frames : List (Frame X R)) :
    World.splitHandler Continuation.handler? request (stack S frames) =
      (World.splitHandler Frame.handler? request frames).map fun p => (stack S p.1, p.2.1, stack S p.2.2) := by
  induction frames with
  | nil => rfl
  | cons frame frames ih =>
    rw [World.splitHandler]
    cases hframe : frame.handler? with
    | none =>
      rw [stack, List.flatMap_cons, splitHandler_append _ _ (handler_continuations frame hframe)]
      show Option.map _ (World.splitHandler _ _ (stack S frames)) = _
      rw [ih, Option.map_map, Option.map_map]
      rfl
    | some handler =>
      cases frame with
      | external k =>
        have hk : k = .handler handler := by
          cases k with
          | handler h => exact congrArg Continuation.handler (Option.some.inj hframe)
          | _ => exact absurd hframe (by simp [Frame.handler?, Continuation.handler?])
        subst hk
        show World.splitHandler _ _ (.handler handler :: stack S frames) = _
        rw [World.splitHandler, ih]
        dsimp only [Continuation.handler?]
        by_cases hrequest : handler.handles request = true
        · rw [if_pos hrequest, if_pos hrequest]
          rfl
        · rw [if_neg hrequest, if_neg hrequest, Option.map_map, Option.map_map]
          rfl
      | _ => exact absurd hframe (by simp [Frame.handler?])

/-- **A request** goes to the same handler, which captures the same part of the stack, or to the host. -/
theorem ast_perform (request : Perform X) (resume : Value X → Store X R → Computation X R × Store X R)
    (frames : List (Frame X R)) (w : World X R (Frame X R)) :
    (w.ast S).perform Continuation.handler? host request resume (.value resume) (stack S frames) =
      (w.perform Frame.handler? host request resume (.external (.value resume)) frames).map
        (fun p => (p.1, stack S p.2.1, p.2.2.ast S)) fun o => o := by
  unfold World.perform
  rw [splitHandler_stack]
  cases World.splitHandler Frame.handler? request frames with
  | some p =>
    show Sum.inl (Computation.step (p.2.1.clause request (w.captured.map _).length), _, World.mk _ _ _) =
      Sum.inl (Computation.step (p.2.1.clause request w.captured.length), _, World.mk _ _ _)
    rw [List.length_map, List.map_append]
    rfl
  | none =>
    dsimp only [Option.map_none, World.ast]
    cases host ((request, w.store) :: w.requests) <;> rfl

theorem follows_perform (request : Perform X) (resume : Value X → Store X R → Computation X R × Store X R)
    (frames : List (Frame X R)) (w : World X R (Frame X R)) :
    Follows (Machine.next S host) (AstRun.next S host) (fun m r => r = m.ast S)
      ⟨.semantic (.perform request resume), frames, w⟩
      (Machine.ast S ⟨.semantic (.perform request resume), frames, w⟩) := by
  have hast : AstRun.next S host (Machine.ast S ⟨.semantic (.perform request resume), frames, w⟩) =
      ((w.ast S).perform Continuation.handler? host request resume (.value resume) (stack S frames)).map
        (fun p => ⟨p.1, p.2.1, p.2.2⟩) fun o => o := rfl
  rw [ast_perform] at hast
  have hmachine : Machine.next S host ⟨.semantic (.perform request resume), frames, w⟩ =
      (w.perform Frame.handler? host request resume (.external (.value resume)) frames).map
        (fun p => ⟨.semantic p.1, p.2.1, p.2.2⟩) fun o => o := rfl
  cases hperform : w.perform Frame.handler? host request resume (.external (.value resume)) frames with
  | inl p =>
    rw [hperform] at hast hmachine
    exact .of_steps hmachine hast (.now rfl)
  | inr o =>
    rw [hperform] at hast hmachine
    exact Or.inl ⟨o, ends_now hmachine, ends_now hast⟩

/-- **A captured continuation** is the same part of the stack. -/
theorem ast_resume (continuation : ℕ) (argument : Value X) (span : Span) (frames : List (Frame X R))
    (w : World X R (Frame X R)) :
    (w.ast S).resume continuation argument span (stack S frames) =
      ((w.resume continuation argument span frames).1, stack S (w.resume continuation argument span frames).2.1,
        (w.resume continuation argument span frames).2.2.ast S) := by
  unfold World.resume
  have hcaptured : (w.ast S).captured[continuation]?.join = (w.captured[continuation]?.join).map (stack S) := by
    show (w.captured.map _)[continuation]?.join = _
    rw [List.getElem?_map]
    cases w.captured[continuation]? <;> rfl
  rw [hcaptured]
  cases w.captured[continuation]?.join with
  | none => rfl
  | some segment =>
    show (_, _, World.mk w.store _ w.requests) = (_, _, World.mk w.store _ w.requests)
    simp only [stack, List.flatMap_append, World.ast, List.map_set, Option.map_none]

/-- **One round**: a state of the machine and the state it stands for go on to states that come together. -/
theorem follows (m : Machine X R) :
    Follows (Machine.next S host) (AstRun.next S host) (fun m r => r = m.ast S) m (m.ast S) := by
  obtain ⟨action, frames, w⟩ := m
  cases action with
  | evaluate activation id => exact follows_evaluate _ _ _ _
  | complete result => exact follows_complete _ _ _
  | semantic computation =>
    cases computation with
    | done result => exact .left rfl (follows_complete _ _ _)
    | step next => exact .of_steps rfl rfl (.now rfl)
    | perform request resume => exact follows_perform _ _ _ _
    | evaluate activation id =>
      by_cases hstarts : S.starts activation id = true
      · have hstep : Step (Machine.next S host) ⟨.semantic (.evaluate activation id), frames, w⟩
            ⟨.evaluate activation id, frames, w⟩ := if_pos hstarts
        exact .left hstep (follows_evaluate activation id frames w)
      · have hstep : Step (Machine.next S host) ⟨.semantic (.evaluate activation id), frames, w⟩
            (Machine.goOnWith ⟨.semantic (.evaluate activation id), frames, w⟩
              (S.evaluateAst activation id w.store)) := if_neg hstarts
        exact .of_steps hstep rfl (.now rfl)
    | call activation body completion | andThen computation next | mapResult computation next
      | origin computation module => exact .of_steps rfl rfl (.now rfl)
    | drive computation handles clause onReturn => exact .of_steps rfl rfl (.now rfl)
    | resume continuation argument span =>
      refine .of_steps rfl rfl (.now ?_)
      show AstRun.mk ((w.ast S).resume continuation argument span (stack S frames)).1
        ((w.ast S).resume continuation argument span (stack S frames)).2.1
        ((w.ast S).resume continuation argument span (stack S frames)).2.2 = _
      rw [ast_resume]
      rfl

end Steps

/-- **The instruction machine agrees with the AST evaluator**, for any expression in any activation and store, whatever
the functions they share do and however the host answers: the one ends when the other does, with the same result or the
same request left open, after the same requests made in the same stores, and with the same store, its fuel included. -/
theorem machine_agrees (S : Semantics X R) (host : Host X R) (activation : Activation X) (id : ExpressionId)
    (s : Store X R) (o : Outcome X R) :
    Ends (Machine.next S host) ⟨.evaluate activation id, [], ⟨s, [], []⟩⟩ o ↔
      Ends (AstRun.next S host) ⟨.evaluate activation id, [], ⟨s, [], []⟩⟩ o := by
  have hsimulates : Simulates (Machine.next S host) (AstRun.next S host) fun m r => r = m.ast S :=
    .of_follows fun m _ h => h ▸ follows m
  exact hsimulates.ends_iff rfl

end Blot.Eval
