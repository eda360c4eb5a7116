import Blot.QCore.Memory

/-!
# Conversion without nodes

* `ValueConversion.converts` — conversion of terms is conversion without nodes;
* `PureValue.Normal.term` — normal forms are normal without nodes;
* `valuesEqual_iff` — what is compared is the terms without their nodes.
-/

namespace Blot.QCore

open Blot.Support Blot.Support.Binding Attempt

/-! ### Terms with and without nodes -/

mutual
theorem ValueConversion.of_term_eq : ∀ {v w : PureValue}, v.term = w.term → ValueConversion v w
  | .boundVariable _ _, w, h => by
    cases w with
    | boundVariable _ _ =>
      cases h
      exact .boundVariable _ _ _
    | _ => cases h
  | .globalDefinition _ _ _, w, h => by
    cases w with
    | globalDefinition _ _ _ =>
      cases h
      exact .globalDefinition _ _ _ _
    | _ => cases h
  | .universeValue _ _, w, h => by
    cases w with
    | universeValue _ _ =>
      cases h
      exact .universeValue _ _ _
    | _ => cases h
  | .dependentPi _ _ _ _ _, w, h => by
    cases w with
    | dependentPi _ _ _ _ _ =>
      obtain ⟨hop, -, hdomain, hcodomain⟩ := Term.two.inj h
      cases hop
      exact .dependentPi _ _ _ _ _ (.of_term_eq hdomain) (.of_term_eq hcodomain)
    | _ => cases h
  | .dependentSigma _ _ _, w, h => by
    cases w with
    | dependentSigma _ _ _ =>
      obtain ⟨-, -, hfirst, hsecond⟩ := Term.two.inj h
      exact .dependentSigma _ _ (.of_term_eq hfirst) (.of_term_eq hsecond)
    | _ => cases h
  | .lambda _ _, w, h => by
    cases w with
    | lambda _ _ => exact .lambda _ _ (.of_term_eq (Term.one.inj h).2.2)
    | _ => cases h
  | .pair _ _ _, w, h => by
    cases w with
    | pair _ _ _ =>
      obtain ⟨-, -, hfirst, hsecond⟩ := Term.two.inj h
      exact .pair _ _ (.of_term_eq hfirst) (.of_term_eq hsecond)
    | _ => cases h
  | .firstProjection _ _, w, h => by
    cases w with
    | firstProjection _ _ => exact .firstProjection _ _ (.of_term_eq (Term.one.inj h).2.2)
    | _ => cases h
  | .secondProjection _ _, w, h => by
    cases w with
    | secondProjection _ _ => exact .secondProjection _ _ (.of_term_eq (Term.one.inj h).2.2)
    | _ => cases h
theorem ComputationConversion.of_term_eq : ∀ {c d : PureComputation}, c.term = d.term → ComputationConversion c d
  | .returnValue _ _, d, h => by
    cases d with
    | returnValue _ _ => exact .returnValue _ _ (.of_term_eq (Term.one.inj h).2.2)
    | _ => cases h
  | .letValue _ _ _, d, h => by
    cases d with
    | letValue _ _ _ =>
      obtain ⟨-, -, hvalue, hbody⟩ := Term.two.inj h
      exact .letValue _ _ (.of_term_eq hvalue) (.of_term_eq hbody)
    | _ => cases h
  | .bind _ _ _, d, h => by
    cases d with
    | bind _ _ _ =>
      obtain ⟨-, -, hfirst, hbody⟩ := Term.two.inj h
      exact .bind _ _ (.of_term_eq hfirst) (.of_term_eq hbody)
    | _ => cases h
  | .apply _ _ _, d, h => by
    cases d with
    | apply _ _ _ =>
      obtain ⟨-, -, hfunction, hargument⟩ := Term.two.inj h
      exact .apply _ _ (.of_term_eq hfunction) (.of_term_eq hargument)
    | _ => cases h
end

theorem ValueConversion.refl (v : PureValue) : ValueConversion v v := .of_term_eq rfl

theorem ComputationConversion.refl (c : PureComputation) : ComputationConversion c c := .of_term_eq rfl

theorem term_substituteValue {v replacement r : PureValue} {depth next next' : ℕ}
    (h : substituteValue v replacement depth next = (.ok r, next')) :
    r.term = v.term.subst (substituted replacement.term depth) := by
  have hempty : (Heap.mk fun _ => none).Bounded next := fun _ _ => rfl
  obtain ⟨_, -, -, -, hterm⟩ := leads_substituteValue next r next' hempty h
  exact hterm

theorem term_substituteComputation {c r : PureComputation} {replacement : PureValue} {depth next next' : ℕ}
    (h : substituteComputation c replacement depth next = (.ok r, next')) :
    r.term = c.term.subst (substituted replacement.term depth) := by
  have hempty : (Heap.mk fun _ => none).Bounded next := fun _ _ => rfl
  obtain ⟨_, -, -, -, hterm⟩ := leads_substituteComputation next r next' hempty h
  exact hterm

theorem contract_of_substituteComputation {c r : PureComputation} {v : PureValue} {next next' : ℕ}
    (h : substituteComputation c v 0 next = (.ok r, next')) : some (c.term.inst v.term) = some r.term := by
  rw [term_substituteComputation h, substituted_zero]

mutual
/-- **Conversion of terms** is conversion without nodes. -/
theorem ValueConversion.converts : ∀ {v w : PureValue}, ValueConversion v w → Converts contract v.term w.term
  | _, _, .symm h => .symm h.converts
  | _, _, .trans h h' => .trans h.converts h'.converts
  | _, _, .boundVariable _ _ _ => .refl _
  | _, _, .globalDefinition _ _ _ _ => .refl _
  | _, _, .universeValue _ _ _ => .refl _
  | _, _, .dependentPi _ _ _ _ _ hdomain hcodomain => .two _ _ hdomain.converts hcodomain.converts
  | _, _, .dependentSigma _ _ hfirst hsecond => .two _ _ hfirst.converts hsecond.converts
  | _, _, .lambda _ _ hbody => .one _ _ hbody.converts
  | _, _, .pair _ _ hfirst hsecond => .two _ _ hfirst.converts hsecond.converts
  | _, _, .firstProjection _ _ hpair => .one _ _ hpair.converts
  | _, _, .secondProjection _ _ hpair => .one _ _ hpair.converts
  | _, _, .first _ _ _ _ => .contract rfl
  | _, _, .second _ _ _ _ => .contract rfl
theorem ComputationConversion.converts :
    ∀ {c d : PureComputation}, ComputationConversion c d → Converts contract c.term d.term
  | _, _, .symm h => .symm h.converts
  | _, _, .trans h h' => .trans h.converts h'.converts
  | _, _, .returnValue _ _ hvalue => .one _ _ hvalue.converts
  | _, _, .letValue _ _ hvalue hbody => .two _ _ hvalue.converts hbody.converts
  | _, _, .bind _ _ hfirst hbody => .two _ _ hfirst.converts hbody.converts
  | _, _, .apply _ _ hfunction hargument => .two _ _ hfunction.converts hargument.converts
  | _, _, .application _ _ h => .contract (contract_of_substituteComputation h)
  | _, _, .letBound _ h => .contract (contract_of_substituteComputation h)
  | _, _, .returned _ _ h => .contract (contract_of_substituteComputation h)
end

/-! ### Normal forms -/

theorem contract_firstProjection {pair : PureValue} (h : ¬ pair.IsPair) :
    contract (.one .firstProjection false pair.term) = none := by
  cases pair with
  | pair => exact absurd trivial h
  | _ => rfl

theorem contract_secondProjection {pair : PureValue} (h : ¬ pair.IsPair) :
    contract (.one .secondProjection false pair.term) = none := by
  cases pair with
  | pair => exact absurd trivial h
  | _ => rfl

theorem contract_bind {first : PureComputation} {body : Term Operator} (h : ¬ first.IsReturn) :
    contract (.two .bind true first.term body) = none := by
  cases first with
  | returnValue => exact absurd trivial h
  | _ => rfl

theorem contract_apply {function : PureValue} {argument : Term Operator} (h : ¬ function.IsLambda) :
    contract (.two .apply false function.term argument) = none := by
  cases function with
  | lambda => exact absurd trivial h
  | _ => rfl

mutual
theorem PureValue.Normal.term : ∀ {v : PureValue}, v.Normal → Normal contract v.term
  | .boundVariable _ _, _ => trivial
  | .globalDefinition _ _ _, _ => trivial
  | .universeValue _ _, _ => trivial
  | .dependentPi _ _ _ _ _, ⟨hdomain, hcodomain⟩ => ⟨hdomain.term, hcodomain.term, rfl⟩
  | .dependentSigma _ _ _, ⟨hfirst, hsecond⟩ => ⟨hfirst.term, hsecond.term, rfl⟩
  | .lambda _ _, hbody => ⟨PureComputation.Normal.term hbody, rfl⟩
  | .pair _ _ _, ⟨hfirst, hsecond⟩ => ⟨hfirst.term, hsecond.term, rfl⟩
  | .firstProjection _ _, ⟨hpair, hne⟩ => ⟨hpair.term, contract_firstProjection hne⟩
  | .secondProjection _ _, ⟨hpair, hne⟩ => ⟨hpair.term, contract_secondProjection hne⟩
theorem PureComputation.Normal.term : ∀ {c : PureComputation}, c.Normal → Normal contract c.term
  | .returnValue _ _, hvalue => ⟨PureValue.Normal.term hvalue, rfl⟩
  | .bind _ _ _, ⟨hfirst, hbody, hne⟩ => ⟨hfirst.term, hbody.term, contract_bind hne⟩
  | .apply _ _ _, ⟨hfunction, hargument, hne⟩ => ⟨hfunction.term, hargument.term, contract_apply hne⟩
end

mutual
/-- `values_equal` compares the terms without their nodes. -/
theorem valuesEqual_iff : ∀ v w : PureValue, valuesEqual v w = true ↔ v.term = w.term
  | .boundVariable _ _, w => by
    cases w with
    | boundVariable _ _ => simp [valuesEqual, PureValue.term]
    | _ => exact iff_of_false nofun nofun
  | .globalDefinition _ _ _, w => by
    cases w with
    | globalDefinition _ _ _ => simp [valuesEqual, PureValue.term]
    | _ => exact iff_of_false nofun nofun
  | .universeValue _ _, w => by
    cases w with
    | universeValue _ _ => simp [valuesEqual, PureValue.term]
    | _ => exact iff_of_false nofun nofun
  | .dependentPi _ domain codomain _ _, w => by
    cases w with
    | dependentPi _ domain' codomain' _ _ =>
      simp [valuesEqual, PureValue.term, valuesEqual_iff domain domain', valuesEqual_iff codomain codomain', and_assoc]
    | _ => exact iff_of_false nofun nofun
  | .dependentSigma _ first second, w => by
    cases w with
    | dependentSigma _ first' second' =>
      simp [valuesEqual, PureValue.term, valuesEqual_iff first first', valuesEqual_iff second second']
    | _ => exact iff_of_false nofun nofun
  | .lambda _ body, w => by
    cases w with
    | lambda _ body' => simp [valuesEqual, PureValue.term, computationsEqual_iff body body']
    | _ => exact iff_of_false nofun nofun
  | .pair _ first second, w => by
    cases w with
    | pair _ first' second' =>
      simp [valuesEqual, PureValue.term, valuesEqual_iff first first', valuesEqual_iff second second']
    | _ => exact iff_of_false nofun nofun
  | .firstProjection _ pair, w => by
    cases w with
    | firstProjection _ pair' => simp [valuesEqual, PureValue.term, valuesEqual_iff pair pair']
    | _ => exact iff_of_false nofun nofun
  | .secondProjection _ pair, w => by
    cases w with
    | secondProjection _ pair' => simp [valuesEqual, PureValue.term, valuesEqual_iff pair pair']
    | _ => exact iff_of_false nofun nofun
/-- `computations_equal` compares the terms without their nodes. -/
theorem computationsEqual_iff : ∀ c d : PureComputation, computationsEqual c d = true ↔ c.term = d.term
  | .returnValue _ value, d => by
    cases d with
    | returnValue _ value' => simp [computationsEqual, PureComputation.term, valuesEqual_iff value value']
    | _ => exact iff_of_false nofun nofun
  | .letValue _ value body, d => by
    cases d with
    | letValue _ value' body' =>
      simp [computationsEqual, PureComputation.term, valuesEqual_iff value value', computationsEqual_iff body body']
    | _ => exact iff_of_false nofun nofun
  | .bind _ first body, d => by
    cases d with
    | bind _ first' body' =>
      simp [computationsEqual, PureComputation.term, computationsEqual_iff first first',
        computationsEqual_iff body body']
    | _ => exact iff_of_false nofun nofun
  | .apply _ function argument, d => by
    cases d with
    | apply _ function' argument' =>
      simp [computationsEqual, PureComputation.term, valuesEqual_iff function function',
        valuesEqual_iff argument argument']
    | _ => exact iff_of_false nofun nofun
end

end Blot.QCore
