import Blot.QCore.Normalizer
import Blot.Support.Contraction

/-!
# Conversion, and the terms without their nodes

* `ValueConversion`, `ComputationConversion` — the least congruence with the five equations, on the terms themselves;
* `PureValue.Normal` — no redex of the five equations anywhere;
* `PureValue.term` — the term without its nodes and its grade ids; `orthogonal` — the equations on such terms.
-/

namespace Blot.QCore

open Blot.Support Blot.Support.Binding

/-! ### The five equations -/

mutual
/-- Convertible values: what stands at a node does not count, nor does the id of a grade. -/
inductive ValueConversion : PureValue → PureValue → Prop
  | symm {v w : PureValue} : ValueConversion v w → ValueConversion w v
  | trans {v w x : PureValue} : ValueConversion v w → ValueConversion w x → ValueConversion v x
  | boundVariable (node node' : Node) (index : ℕ) :
      ValueConversion (.boundVariable node index) (.boundVariable node' index)
  | globalDefinition (node node' : Node) (definition semantics : String) :
      ValueConversion (.globalDefinition node definition semantics) (.globalDefinition node' definition semantics)
  | universeValue (node node' : Node) (level : Universe) :
      ValueConversion (.universeValue node level) (.universeValue node' level)
  | dependentPi (node node' : Node) {domain domain' codomain codomain' : PureValue} (grade grade' : ℕ)
      (interval : GradeInterval) : ValueConversion domain domain' → ValueConversion codomain codomain' →
      ValueConversion (.dependentPi node domain codomain grade interval)
        (.dependentPi node' domain' codomain' grade' interval)
  | dependentSigma (node node' : Node) {first first' second second' : PureValue} : ValueConversion first first' →
      ValueConversion second second' →
      ValueConversion (.dependentSigma node first second) (.dependentSigma node' first' second')
  | lambda (node node' : Node) {body body' : PureComputation} : ComputationConversion body body' →
      ValueConversion (.lambda node body) (.lambda node' body')
  | pair (node node' : Node) {first first' second second' : PureValue} : ValueConversion first first' →
      ValueConversion second second' → ValueConversion (.pair node first second) (.pair node' first' second')
  | firstProjection (node node' : Node) {pair pair' : PureValue} : ValueConversion pair pair' →
      ValueConversion (.firstProjection node pair) (.firstProjection node' pair')
  | secondProjection (node node' : Node) {pair pair' : PureValue} : ValueConversion pair pair' →
      ValueConversion (.secondProjection node pair) (.secondProjection node' pair')
  | first (node node' : Node) (v w : PureValue) : ValueConversion (.firstProjection node (.pair node' v w)) v
  | second (node node' : Node) (v w : PureValue) : ValueConversion (.secondProjection node (.pair node' v w)) w
inductive ComputationConversion : PureComputation → PureComputation → Prop
  | symm {c d : PureComputation} : ComputationConversion c d → ComputationConversion d c
  | trans {c d e : PureComputation} : ComputationConversion c d → ComputationConversion d e →
      ComputationConversion c e
  | returnValue (node node' : Node) {v v' : PureValue} : ValueConversion v v' →
      ComputationConversion (.returnValue node v) (.returnValue node' v')
  | letValue (node node' : Node) {v v' : PureValue} {body body' : PureComputation} : ValueConversion v v' →
      ComputationConversion body body' →
      ComputationConversion (.letValue node v body) (.letValue node' v' body')
  | bind (node node' : Node) {first first' body body' : PureComputation} : ComputationConversion first first' →
      ComputationConversion body body' →
      ComputationConversion (.bind node first body) (.bind node' first' body')
  | apply (node node' : Node) {function function' argument argument' : PureValue} :
      ValueConversion function function' → ValueConversion argument argument' →
      ComputationConversion (.apply node function argument) (.apply node' function' argument')
  | application (node node' : Node) {body result : PureComputation} {v : PureValue} {next next' : ℕ} :
      substituteComputation body v 0 next = (.ok result, next') →
      ComputationConversion (.apply node (.lambda node' body) v) result
  | letBound (node : Node) {body result : PureComputation} {v : PureValue} {next next' : ℕ} :
      substituteComputation body v 0 next = (.ok result, next') →
      ComputationConversion (.letValue node v body) result
  | returned (node node' : Node) {body result : PureComputation} {v : PureValue} {next next' : ℕ} :
      substituteComputation body v 0 next = (.ok result, next') →
      ComputationConversion (.bind node (.returnValue node' v) body) result
end

def PureValue.IsPair : PureValue → Prop
  | .pair _ _ _ => True
  | _ => False

def PureValue.IsLambda : PureValue → Prop
  | .lambda _ _ => True
  | _ => False

def PureComputation.IsReturn : PureComputation → Prop
  | .returnValue _ _ => True
  | _ => False

mutual
def PureValue.Normal : PureValue → Prop
  | .boundVariable _ _ => True
  | .globalDefinition _ _ _ => True
  | .universeValue _ _ => True
  | .dependentPi _ domain codomain _ _ => domain.Normal ∧ codomain.Normal
  | .dependentSigma _ first second => first.Normal ∧ second.Normal
  | .lambda _ body => body.Normal
  | .pair _ first second => first.Normal ∧ second.Normal
  | .firstProjection _ pair => pair.Normal ∧ ¬ pair.IsPair
  | .secondProjection _ pair => pair.Normal ∧ ¬ pair.IsPair
def PureComputation.Normal : PureComputation → Prop
  | .returnValue _ v => v.Normal
  | .letValue _ _ _ => False
  | .bind _ first body => first.Normal ∧ body.Normal ∧ ¬ first.IsReturn
  | .apply _ function argument => function.Normal ∧ argument.Normal ∧ ¬ function.IsLambda
end

/-! ### Terms without nodes -/

inductive Operator where
  | globalDefinition (definition semantics : String)
  | universeValue (level : Universe)
  | dependentPi (interval : GradeInterval)
  | dependentSigma
  | lambda
  | pair
  | firstProjection
  | secondProjection
  | returnValue
  | letValue
  | bind
  | apply

mutual
def PureValue.term : PureValue → Term Operator
  | .boundVariable _ index => .var index
  | .globalDefinition _ definition semantics => .leaf (.globalDefinition definition semantics)
  | .universeValue _ level => .leaf (.universeValue level)
  | .dependentPi _ domain codomain _ interval => .two (.dependentPi interval) true domain.term codomain.term
  | .dependentSigma _ first second => .two .dependentSigma true first.term second.term
  | .lambda _ body => .one .lambda true body.term
  | .pair _ first second => .two .pair false first.term second.term
  | .firstProjection _ pair => .one .firstProjection false pair.term
  | .secondProjection _ pair => .one .secondProjection false pair.term
def PureComputation.term : PureComputation → Term Operator
  | .returnValue _ value => .one .returnValue false value.term
  | .letValue _ value body => .two .letValue true value.term body.term
  | .bind _ first body => .two .bind true first.term body.term
  | .apply _ function argument => .two .apply false function.term argument.term
end

def contract : Term Operator → Option (Term Operator)
  | .one .firstProjection false (.two .pair false v _) => some v
  | .one .secondProjection false (.two .pair false _ w) => some w
  | .two .letValue true v c => some (c.inst v)
  | .two .bind true (.one .returnValue false v) c => some (c.inst v)
  | .two .apply false (.one .lambda true c) v => some (c.inst v)
  | _ => none

section Equations

variable {t t' u v w c : Term Operator}

/-- **The redexes** are those of the five equations. -/
theorem contract_eq_some (h : contract t = some u) :
    (∃ w, t = .one .firstProjection false (.two .pair false u w)) ∨
    (∃ v, t = .one .secondProjection false (.two .pair false v u)) ∨
    (∃ v c, t = .two .letValue true v c ∧ u = c.inst v) ∨
    (∃ v c, t = .two .bind true (.one .returnValue false v) c ∧ u = c.inst v) ∨
    ∃ c v, t = .two .apply false (.one .lambda true c) v ∧ u = c.inst v := by
  unfold contract at h
  split at h
  · next v w =>
    cases h
    exact .inl ⟨w, rfl⟩
  · next v w =>
    cases h
    exact .inr (.inl ⟨v, rfl⟩)
  · next v c =>
    cases h
    exact .inr (.inr (.inl ⟨v, c, rfl, rfl⟩))
  · next v c =>
    cases h
    exact .inr (.inr (.inr (.inl ⟨v, c, rfl, rfl⟩)))
  · next c v =>
    cases h
    exact .inr (.inr (.inr (.inr ⟨c, v, rfl, rfl⟩)))
  · cases h

theorem stable_contract : Stable contract := by
  intro t u σ h
  rcases contract_eq_some h with ⟨w, rfl⟩ | ⟨v, rfl⟩ | ⟨v, c, rfl, rfl⟩ | ⟨v, c, rfl, rfl⟩ | ⟨c, v, rfl, rfl⟩
  · rfl
  · rfl
  · exact congrArg some Term.subst_inst.symm
  · exact congrArg some Term.subst_inst.symm
  · exact congrArg some Term.subst_inst.symm

theorem par_pair (h : Par contract (.two .pair false v w) t) :
    ∃ v' w', t = .two .pair false v' w' ∧ Par contract v v' ∧ Par contract w w' := by
  cases h with
  | two _ _ hv hw => exact ⟨_, _, rfl, hv, hw⟩
  | twoContract _ _ _ _ hu => cases hu

theorem par_lambda (h : Par contract (.one .lambda true c) t) :
    ∃ c', t = .one .lambda true c' ∧ Par contract c c' := by
  cases h with
  | one _ _ hc => exact ⟨_, rfl, hc⟩
  | oneContract _ _ _ hu => cases hu

theorem par_returnValue (h : Par contract (.one .returnValue false v) t) :
    ∃ v', t = .one .returnValue false v' ∧ Par contract v v' := by
  cases h with
  | one _ _ hv => exact ⟨_, rfl, hv⟩
  | oneContract _ _ _ hu => cases hu

/-- **The five equations** do not get in each other's way. -/
theorem orthogonal : Orthogonal contract where
  var _ := rfl
  leaf _ := rfl
  stable := stable_contract
  one := by
    intro op binds a a' u ha h
    rcases contract_eq_some h with ⟨w, heq⟩ | ⟨v, heq⟩ | ⟨v, c, heq, -⟩ | ⟨v, c, heq, -⟩ | ⟨c, v, heq, -⟩
    · cases heq
      obtain ⟨v', w', rfl, hv, -⟩ := par_pair ha
      exact ⟨v', rfl, hv⟩
    · cases heq
      obtain ⟨v', w', rfl, -, hw⟩ := par_pair ha
      exact ⟨w', rfl, hw⟩
    · cases heq
    · cases heq
    · cases heq
  two := by
    intro op binds a a' b b' u ha hb h
    rcases contract_eq_some h with ⟨w, heq⟩ | ⟨v, heq⟩ | ⟨v, c, heq, rfl⟩ | ⟨v, c, heq, rfl⟩ | ⟨c, v, heq, rfl⟩
    · cases heq
    · cases heq
    · cases heq
      exact ⟨_, rfl, hb.inst stable_contract ha⟩
    · cases heq
      obtain ⟨v', rfl, hv⟩ := par_returnValue ha
      exact ⟨_, rfl, hb.inst stable_contract hv⟩
    · cases heq
      obtain ⟨c', rfl, hc⟩ := par_lambda ha
      exact ⟨_, rfl, hc.inst stable_contract hb⟩

end Equations

end Blot.QCore
