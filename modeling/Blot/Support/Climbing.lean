import Mathlib.Data.List.Basic

/-!
# Precedence climbing

A chain is an operand and a list of steps, each an operator with the operand on its right.  Climbing makes a tree of it
from the level and the associativity of the operators.  Operators of one level may associate differently, so what a
level allows is said of the operators that stand beside each other: two of one level with only tighter ones between.

* `Runs` — the successful calls of `climb` and of its inner loop `absorb`, as an induction rule;
* `Grouped` — what holds of every tree that climbing makes;
* `climb_accepts_iff` — which chains are accepted;
* `rightLeaning_iff` — when the right operands of the tree are as tight as their operators ask.
-/

namespace Blot.Support.Climbing

structure Grouping (σ : Type) where
  known : σ → Bool
  level : σ → ℕ
  rightward : σ → Bool
  solitary : σ → Bool

inductive OperatorTree (σ ξ : Type) where
  | leaf (operand : ξ)
  | node (left : OperatorTree σ ξ) (step : σ) (right : OperatorTree σ ξ)

inductive Refusal (σ : Type) where
  | unknown (step : σ)
  | clash (step next : σ)

variable {σ ξ : Type}

namespace OperatorTree

def operators : OperatorTree σ ξ → List σ
  | .leaf _ => []
  | .node left step right => left.operators ++ step :: right.operators

def inorder : OperatorTree σ ξ → List (ξ ⊕ σ)
  | .leaf x => [.inl x]
  | .node left step right => left.inorder ++ .inr step :: right.inorder

end OperatorTree

open OperatorTree

def sequence (operand : σ → ξ) : List σ → List (ξ ⊕ σ)
  | [] => []
  | step :: steps => .inr step :: .inl (operand step) :: sequence operand steps

theorem sequence_append (operand : σ → ξ) (steps more : List σ) :
    sequence operand (steps ++ more) = sequence operand steps ++ sequence operand more := by
  induction steps with
  | nil => rfl
  | cons step steps ih => rw [List.cons_append, sequence, sequence, ih, List.cons_append, List.cons_append]

section Algorithm

variable (g : Grouping σ) (operand : σ → ξ)

/-- The operator of `next` takes the operand on its left away from that of `step`. -/
def Tighter (step next : σ) : Prop :=
  g.level step < g.level next ∨ g.level next = g.level step ∧ g.rightward next = true

instance (step next : σ) : Decidable (Tighter g step next) := inferInstanceAs (Decidable (_ ∨ _))

/-- The operator of `step` stands alone at its level, and the next operator is of that level. -/
def Clash (step : σ) : List σ → Prop
  | [] => False
  | next :: _ => g.solitary step = true ∧ g.level next = g.level step

instance (step : σ) : (steps : List σ) → Decidable (Clash g step steps)
  | [] => inferInstanceAs (Decidable False)
  | _ :: _ => inferInstanceAs (Decidable (_ ∧ _))

/-- What a call gives: nothing when the fuel is used up. -/
abbrev Result (σ ξ : Type) : Type := Option (Except (Refusal σ) (OperatorTree σ ξ × List σ))

mutual

/-- Takes the steps whose level is at least `minimum`. -/
def climb : ℕ → OperatorTree σ ξ → List σ → ℕ → Result σ ξ
  | 0, _, _, _ => none
  | _ + 1, left, [], _ => some (.ok (left, []))
  | fuel + 1, left, step :: steps, minimum =>
    if g.known step = false then some (.error (.unknown step))
    else if g.level step < minimum then some (.ok (left, step :: steps))
    else
      match absorb fuel step (.leaf (operand step)) steps with
      | none => none
      | some (.error e) => some (.error e)
      | some (.ok (right, [])) => climb fuel (.node left step right) [] minimum
      | some (.ok (right, next :: rest)) =>
        if Clash g step (next :: rest) then some (.error (.clash step next))
        else climb fuel (.node left step right) (next :: rest) minimum

/-- Takes into the right operand of `step` what binds tighter. -/
def absorb : ℕ → σ → OperatorTree σ ξ → List σ → Result σ ξ
  | 0, _, _, _ => none
  | _ + 1, _, right, [] => some (.ok (right, []))
  | fuel + 1, step, right, next :: steps =>
    if g.known next = false then some (.error (.unknown next))
    else if Tighter g step next then
      match climb fuel right (next :: steps) (g.level next) with
      | none => none
      | some (.error e) => some (.error e)
      | some (.ok (right', rest)) => absorb fuel step right' rest
    else some (.ok (right, next :: steps))

end

inductive Call (σ : Type) where
  | climb (minimum : ℕ)
  | absorb (step : σ)

def Call.floor : Call σ → ℕ
  | .climb minimum => minimum
  | .absorb step => g.level step

/-- The calls that succeed: the tree and the steps before, the tree and the steps after. -/
inductive Runs : Call σ → OperatorTree σ ξ → List σ → OperatorTree σ ξ → List σ → Prop where
  | finished (minimum : ℕ) (left : OperatorTree σ ξ) : Runs (.climb minimum) left [] left []
  | looser {minimum : ℕ} {step : σ} (left : OperatorTree σ ξ) (steps : List σ) (known : g.known step = true)
      (below : g.level step < minimum) : Runs (.climb minimum) left (step :: steps) left (step :: steps)
  | operator {minimum : ℕ} {step : σ} {steps middle rest : List σ} {left right tree : OperatorTree σ ξ}
      (known : g.known step = true) (reaches : minimum ≤ g.level step)
      (inner : Runs (.absorb step) (.leaf (operand step)) steps right middle) (alone : ¬ Clash g step middle)
      (outer : Runs (.climb minimum) (.node left step right) middle tree rest) :
      Runs (.climb minimum) left (step :: steps) tree rest
  | settled (step : σ) (right : OperatorTree σ ξ) : Runs (.absorb step) right [] right []
  | held {step next : σ} (right : OperatorTree σ ξ) (steps : List σ) (known : g.known next = true)
      (loose : ¬ Tighter g step next) : Runs (.absorb step) right (next :: steps) right (next :: steps)
  | taken {step next : σ} {steps middle rest : List σ} {right right' tree : OperatorTree σ ξ}
      (known : g.known next = true) (tight : Tighter g step next)
      (inner : Runs (.climb (g.level next)) right (next :: steps) right' middle)
      (outer : Runs (.absorb step) right' middle tree rest) : Runs (.absorb step) right (next :: steps) tree rest

end Algorithm

section Success

variable {g : Grouping σ} {operand : σ → ξ}

/-- Both loops at once: a call that returns is a successful run. -/
theorem runs_of_ok (operand : σ → ξ) : ∀ fuel : ℕ,
    (∀ {left : OperatorTree σ ξ} {steps : List σ} {minimum : ℕ} {tree rest},
      climb g operand fuel left steps minimum = some (.ok (tree, rest)) →
        Runs g operand (.climb minimum) left steps tree rest) ∧
    (∀ {step : σ} {right : OperatorTree σ ξ} {steps : List σ} {tree rest},
      absorb g operand fuel step right steps = some (.ok (tree, rest)) →
        Runs g operand (.absorb step) right steps tree rest) := by
  intro fuel
  induction fuel with
  | zero => exact ⟨fun h => (nomatch h), fun h => (nomatch h)⟩
  | succ fuel ih =>
    obtain ⟨ihClimb, ihAbsorb⟩ := ih
    constructor
    · intro left steps minimum tree rest h
      cases steps with
      | nil =>
        cases h
        exact Runs.finished minimum left
      | cons step steps =>
        rw [climb] at h
        split at h
        · cases h
        · rename_i known
          have known' : g.known step = true := by simpa using known
          split at h
          · rename_i below
            cases h
            exact Runs.looser left steps known' below
          · rename_i reaches
            split at h
            · cases h
            · cases h
            · rename_i right inner
              exact Runs.operator known' (Nat.le_of_not_lt reaches) (ihAbsorb inner) id (ihClimb h)
            · rename_i right next middle inner
              split at h
              · cases h
              · rename_i alone
                exact Runs.operator known' (Nat.le_of_not_lt reaches) (ihAbsorb inner) alone (ihClimb h)
    · intro step right steps tree rest h
      cases steps with
      | nil =>
        cases h
        exact Runs.settled step right
      | cons next steps =>
        rw [absorb] at h
        split at h
        · cases h
        · rename_i known
          have known' : g.known next = true := by simpa using known
          split at h
          · rename_i tight
            split at h
            · cases h
            · cases h
            · rename_i right' middle inner
              exact Runs.taken known' tight (ihClimb inner) (ihAbsorb h)
          · rename_i loose
            cases h
            exact Runs.held right steps known' loose

theorem Tighter.le {step next : σ} (h : Tighter g step next) : g.level step ≤ g.level next := by
  rcases h with h | h
  · exact Nat.le_of_lt h
  · exact Nat.le_of_eq h.1.symm

theorem Runs.takes {call : Call σ} {tree tree' : OperatorTree σ ξ} {steps rest : List σ}
    (h : Runs g operand call tree steps tree' rest) :
    ∃ used, steps = used ++ rest ∧ tree'.operators = tree.operators ++ used ∧
      tree'.inorder = tree.inorder ++ sequence operand used ∧
      ∀ step ∈ used, g.known step = true ∧ call.floor g ≤ g.level step := by
  induction h with
  | finished minimum left => exact ⟨[], rfl, (List.append_nil _).symm, (List.append_nil _).symm, by simp⟩
  | looser left steps known below => exact ⟨[], rfl, (List.append_nil _).symm, (List.append_nil _).symm, by simp⟩
  | @operator minimum step steps middle rest left right tree known reaches inner alone outer ihInner ihOuter =>
    obtain ⟨used, rfl, hops, hin, hused⟩ := ihInner
    obtain ⟨used', rfl, hops', hin', hused'⟩ := ihOuter
    refine ⟨step :: used ++ used', by simp, ?_, ?_, ?_⟩
    · rw [hops', OperatorTree.operators, hops]
      simp [OperatorTree.operators]
    · rw [hin', OperatorTree.inorder, hin]
      simp [OperatorTree.inorder, sequence, sequence_append]
    · intro s hs
      rcases List.mem_append.mp hs with hs | hs
      · rcases List.mem_cons.mp hs with rfl | hs
        · exact ⟨known, reaches⟩
        · exact ⟨(hused s hs).1, Nat.le_trans reaches (hused s hs).2⟩
      · exact hused' s hs
  | settled step right => exact ⟨[], rfl, (List.append_nil _).symm, (List.append_nil _).symm, by simp⟩
  | held right steps known loose => exact ⟨[], rfl, (List.append_nil _).symm, (List.append_nil _).symm, by simp⟩
  | taken known tight inner outer ihInner ihOuter =>
    obtain ⟨used, hused, hops, hin, hall⟩ := ihInner
    obtain ⟨used', rfl, hops', hin', hall'⟩ := ihOuter
    refine ⟨used ++ used', by rw [hused, List.append_assoc], ?_, ?_, ?_⟩
    · rw [hops', hops, List.append_assoc]
    · rw [hin', hin, sequence_append, List.append_assoc]
    · intro s hs
      rcases List.mem_append.mp hs with hs | hs
      · exact ⟨(hall s hs).1, Nat.le_trans tight.le (hall s hs).2⟩
      · exact hall' s hs

end Success

/-! ### What climbing makes -/

section Grouped

variable (g : Grouping σ)

/-- The tree can stand to the left of `step`: nothing in it is looser, and where its root is of the level of `step`,
the two associate to the left. -/
structure LeftOf (tree : OperatorTree σ ξ) (step : σ) : Prop where
  atLeast : ∀ other ∈ tree.operators, g.level step ≤ g.level other
  again : ∀ {left right : OperatorTree σ ξ} {root : σ}, tree = .node left root right →
    g.level root = g.level step → g.rightward step = false ∧ g.solitary root = false ∧
      ∀ other ∈ right.operators, g.level root < g.level other

/-- The tree can stand to the right of `step`: nothing in it is looser, and the first operator of the level of `step`
associates to the right. -/
structure RightOf (tree : OperatorTree σ ξ) (step : σ) : Prop where
  atLeast : ∀ other ∈ tree.operators, g.level step ≤ g.level other
  leads : ∀ {before after : List σ} {first : σ}, tree.operators = before ++ first :: after →
    g.level first = g.level step → (∀ other ∈ before, g.level step < g.level other) → g.rightward first = true

/-- Every node has a left and a right operand that can stand there. -/
def Grouped : OperatorTree σ ξ → Prop
  | .leaf _ => True
  | .node left step right => Grouped left ∧ Grouped right ∧ LeftOf g left step ∧ RightOf g right step

/-- `P` holds of the step that comes next. -/
def Next (P : σ → Prop) : List σ → Prop
  | [] => True
  | step :: _ => P step

/-- What a call assumes of its tree and the steps before it, and what it makes of them. -/
def Stands : Call σ → OperatorTree σ ξ → List σ → Prop
  | .climb _, tree, steps => Grouped g tree ∧ Next (LeftOf g tree) steps
  | .absorb step, tree, steps =>
    Grouped g tree ∧ RightOf g tree step ∧ Next (fun next => ∀ other ∈ tree.operators, g.level next < g.level other) steps ∧
      ((∀ other ∈ tree.operators, g.level step < g.level other) ∨ Next (fun next => g.level next < g.level step) steps)

def Stops : Call σ → List σ → Prop
  | .climb minimum, rest => Next (fun next => g.level next < minimum) rest
  | .absorb step, rest => Next (fun next => ¬ Tighter g step next) rest

variable {g} {operand : σ → ξ}

theorem stands_leaf (step : σ) (x : ξ) (steps : List σ) : Stands g (.absorb step) (.leaf x) steps := by
  refine ⟨trivial, ⟨fun _ ho => (nomatch ho), fun ho => ?_⟩, ?_, .inl fun _ ho => (nomatch ho)⟩
  · exact absurd ho (by simp [OperatorTree.operators])
  · cases steps with
    | nil => trivial
    | cons _ _ => exact fun _ ho => nomatch ho

/-- What `absorb` makes after a call of `climb` took `next`. -/
theorem stands_taken {step next : σ} {right right' : OperatorTree σ ξ} {steps rest : List σ}
    (hs : Stands g (.absorb step) right (next :: steps)) (tight : Tighter g step next)
    (inner : Runs g operand (.climb (g.level next)) right (next :: steps) right' rest)
    (made : Grouped g right') (stop : Stops g (.climb (g.level next)) rest) : Stands g (.absorb step) right' rest := by
  obtain ⟨-, -, hright, -⟩ := hs
  obtain ⟨used, hused, hops, -, hall⟩ := inner.takes
  -- what `climb` was called for is taken
  obtain ⟨used', rfl⟩ : ∃ used', used = next :: used' := by
    cases used with
    | nil =>
      rw [List.nil_append] at hused
      subst hused
      exact absurd stop (Nat.lt_irrefl _)
    | cons first used' =>
      rw [List.cons_append, List.cons.injEq] at hused
      exact ⟨used', by rw [hused.1]⟩
  have hleast : ∀ other ∈ right'.operators, g.level next ≤ g.level other := by
    intro other ho
    rw [hops] at ho
    rcases List.mem_append.mp ho with ho | ho
    · exact Nat.le_of_lt (hright other ho)
    · exact (hall other ho).2
  refine ⟨made, ⟨fun other ho => Nat.le_trans tight.le (hleast other ho), ?_⟩, ?_, ?_⟩
  · intro before after first hfirst hlevel hbefore
    rcases tight with tight | ⟨hequal, hrightward⟩
    · have := hleast first (by rw [hfirst]; simp)
      omega
    · rw [hops] at hfirst
      rcases List.append_eq_append_iff.mp hfirst with ⟨more, rfl, hmore⟩ | ⟨more, hmore, hfirst'⟩
      · cases more with
        | nil =>
          rw [List.nil_append, List.cons.injEq] at hmore
          rw [← hmore.1]
          exact hrightward
        | cons head more =>
          rw [List.cons_append, List.cons.injEq] at hmore
          have := hbefore head (by simp)
          rw [← hmore.1] at this
          omega
      · cases more with
        | nil =>
          rw [List.nil_append, List.cons.injEq] at hfirst'
          rw [hfirst'.1]
          exact hrightward
        | cons head more =>
          rw [List.cons_append, List.cons.injEq] at hfirst'
          have := hright first (by rw [hmore, hfirst'.1]; simp)
          omega
  · cases rest with
    | nil => trivial
    | cons after rest => exact fun other ho => Nat.lt_of_lt_of_le stop (hleast other ho)
  · rcases tight with tight | ⟨hequal, -⟩
    · exact .inl fun other ho => Nat.lt_of_lt_of_le tight (hleast other ho)
    · right
      cases rest with
      | nil => trivial
      | cons after rest => exact hequal ▸ stop

/-- **What one call makes**: it keeps what it assumes, and stops where it should. -/
theorem Runs.stands {call : Call σ} {tree tree' : OperatorTree σ ξ} {steps rest : List σ}
    (h : Runs g operand call tree steps tree' rest) (hs : Stands g call tree steps) :
    Stands g call tree' rest ∧ Stops g call rest := by
  induction h with
  | finished minimum left => exact ⟨hs, trivial⟩
  | looser left steps known below => exact ⟨hs, below⟩
  | @operator minimum step steps middle rest left right tree known reaches inner alone outer ihInner ihOuter =>
    obtain ⟨hleft, hnext⟩ := hs
    obtain ⟨⟨hright, hof, -, hbound⟩, hstop⟩ := ihInner (stands_leaf step _ steps)
    refine ihOuter ⟨⟨hleft, hright, hnext, hof⟩, ?_⟩
    cases middle with
    | nil => trivial
    | cons next middle =>
      have hle : g.level next ≤ g.level step := Nat.le_of_not_lt fun hlt => hstop (.inl hlt)
      refine ⟨fun other ho => Nat.le_trans hle ?_, fun {left' right' root} he hlevel => ?_⟩
      · rcases List.mem_append.mp ho with ho | ho
        · exact hnext.atLeast other ho
        · rcases List.mem_cons.mp ho with rfl | ho
          · exact Nat.le_refl _
          · exact hof.atLeast other ho
      · cases he
        refine ⟨?_, ?_, ?_⟩
        · by_contra hr
          exact hstop (.inr ⟨hlevel.symm, by simpa using hr⟩)
        · by_contra hsol
          exact alone ⟨by simpa using hsol, hlevel.symm⟩
        · rcases hbound with hbound | hbound
          · exact hbound
          · exact absurd hbound (by rw [Next, hlevel]; exact Nat.lt_irrefl _)
  | settled step right => exact ⟨hs, trivial⟩
  | held right steps known loose => exact ⟨hs, loose⟩
  | @taken step next steps middle rest right right' tree known tight inner outer ihInner ihOuter =>
    have hnext : LeftOf g right next := by
      refine ⟨fun other ho => Nat.le_of_lt (hs.2.2.1 other ho), fun {left' right' root} he hlevel => ?_⟩
      subst he
      have := hs.2.2.1 root (by simp [OperatorTree.operators])
      omega
    obtain ⟨⟨hmade, -⟩, hstop⟩ := ihInner ⟨hs.1, hnext⟩
    exact ihOuter (stands_taken hs tight inner hmade hstop)

end Grouped

/-! ### Operators that stand beside each other -/

section Beside

variable (g : Grouping σ)

/-- `first` is the first operator of the level, and only tighter ones stand before it. -/
def Leads (level : ℕ) (steps : List σ) (first : σ) (rest : List σ) : Prop :=
  ∃ before, steps = before ++ first :: rest ∧ g.level first = level ∧ ∀ other ∈ before, level < g.level other

/-- Two operators of one level with only tighter ones between. -/
def Beside (steps : List σ) (a b : σ) : Prop :=
  ∃ before tail rest, steps = before ++ a :: tail ∧ Leads g (g.level a) tail b rest

/-- Three operators of one level with only tighter ones between. -/
def Thrice (steps : List σ) (a b c : σ) : Prop :=
  ∃ before tail rest rest', steps = before ++ a :: tail ∧ Leads g (g.level a) tail b rest ∧
    Leads g (g.level a) rest c rest'

variable {g}

/-- Where an element of `l ++ s :: r` stands. -/
theorem split_around {l r before tail : List σ} {s a : σ} (h : l ++ s :: r = before ++ a :: tail) :
    (∃ m, l = before ++ a :: m ∧ tail = m ++ s :: r) ∨ (l = before ∧ s = a ∧ r = tail) ∨
      ∃ m, before = l ++ s :: m ∧ r = m ++ a :: tail := by
  rcases List.append_eq_append_iff.mp h with ⟨more, rfl, hmore⟩ | ⟨more, rfl, hmore⟩
  · cases more with
    | nil =>
      rw [List.nil_append, List.cons.injEq] at hmore
      exact .inr (.inl ⟨(List.append_nil l).symm, hmore.1, hmore.2⟩)
    | cons head more =>
      rw [List.cons_append, List.cons.injEq] at hmore
      exact .inr (.inr ⟨more, by rw [hmore.1], hmore.2⟩)
  · cases more with
    | nil =>
      rw [List.nil_append, List.cons.injEq] at hmore
      exact .inr (.inl ⟨List.append_nil before, hmore.1.symm, hmore.2.symm⟩)
    | cons head more =>
      rw [List.cons_append, List.cons.injEq] at hmore
      exact .inl ⟨more, by rw [hmore.1], hmore.2⟩

theorem Leads.split {level : ℕ} {l r rest : List σ} {s b : σ} (h : Leads g level (l ++ s :: r) b rest) :
    (∃ m, Leads g level l b m ∧ rest = m ++ s :: r) ∨
      (s = b ∧ g.level s = level ∧ r = rest ∧ ∀ other ∈ l, level < g.level other) ∨ level < g.level s := by
  obtain ⟨before, he, hlevel, hbefore⟩ := h
  rcases split_around he with ⟨m, rfl, hm⟩ | ⟨rfl, rfl, rfl⟩ | ⟨m, rfl, -⟩
  · exact .inl ⟨m, ⟨before, rfl, hlevel, hbefore⟩, hm⟩
  · exact .inr (.inl ⟨rfl, hlevel, rfl, hbefore⟩)
  · exact .inr (.inr (hbefore s (by simp)))

theorem Leads.append {level : ℕ} {steps rest : List σ} {b : σ} (h : Leads g level steps b rest) (more : List σ) :
    Leads g level (steps ++ more) b (rest ++ more) := by
  obtain ⟨before, rfl, hlevel, hbefore⟩ := h
  exact ⟨before, by simp, hlevel, hbefore⟩

theorem Beside.prepend {steps : List σ} {a b : σ} (h : Beside g steps a b) (more : List σ) :
    Beside g (more ++ steps) a b := by
  obtain ⟨before, tail, rest, rfl, hb⟩ := h
  exact ⟨more ++ before, tail, rest, by simp, hb⟩

theorem Thrice.prepend {steps : List σ} {a b c : σ} (h : Thrice g steps a b c) (more : List σ) :
    Thrice g (more ++ steps) a b c := by
  obtain ⟨before, tail, rest, rest', rfl, hb, hc⟩ := h
  exact ⟨more ++ before, tail, rest, rest', by simp, hb, hc⟩

theorem Thrice.append {steps : List σ} {a b c : σ} (h : Thrice g steps a b c) (more : List σ) :
    Thrice g (steps ++ more) a b c := by
  obtain ⟨before, tail, rest, rest', rfl, hb, hc⟩ := h
  exact ⟨before, tail ++ more, rest ++ more, rest' ++ more, by simp, hb.append more, hc.append more⟩

theorem Grouped.root_least {left right : OperatorTree σ ξ} {root : σ} (h : Grouped g (.node left root right)) :
    ∀ other ∈ (OperatorTree.node left root right).operators, g.level root ≤ g.level other := by
  obtain ⟨-, -, hleft, hright⟩ := h
  intro other ho
  rcases List.mem_append.mp ho with ho | ho
  · exact hleft.atLeast other ho
  · rcases List.mem_cons.mp ho with rfl | ho
    · exact Nat.le_refl _
    · exact hright.atLeast other ho

/-- A left operand with an operator of the level of `step` has it at its root. -/
theorem LeftOf.root {tree : OperatorTree σ ξ} {step other : σ} (h : LeftOf g tree step) (made : Grouped g tree)
    (ho : other ∈ tree.operators) (hlevel : g.level other = g.level step) :
    ∃ left root right, tree = .node left root right ∧ g.level root = g.level step := by
  cases tree with
  | leaf x => cases ho
  | node left root right =>
    refine ⟨left, root, right, rfl, Nat.le_antisymm ?_ (h.atLeast root (by simp [OperatorTree.operators]))⟩
    exact hlevel ▸ made.root_least other ho

/-- The last operator of the level of `step` in its left operand is the root. -/
theorem LeftOf.last {tree : OperatorTree σ ξ} {step a : σ} {before m : List σ} (h : LeftOf g tree step)
    (made : Grouped g tree) (he : tree.operators = before ++ a :: m) (hlevel : g.level a = g.level step)
    (hm : ∀ other ∈ m, g.level a < g.level other) :
    ∃ left right, tree = .node left a right ∧ left.operators = before := by
  obtain ⟨left, root, right, rfl, hroot⟩ := h.root made (by rw [he]; simp) hlevel
  obtain ⟨-, -, htight⟩ := h.again rfl hroot
  rcases split_around he with ⟨m', -, rfl⟩ | ⟨rfl, rfl, -⟩ | ⟨m', -, hr⟩
  · have := hm root (by simp)
    omega
  · exact ⟨left, right, rfl, rfl⟩
  · have := htight a (by rw [hr]; simp)
    omega

/-- **What a grouped tree allows beside each other.** -/
theorem Grouped.beside {a b : σ} : ∀ {tree : OperatorTree σ ξ}, Grouped g tree → Beside g tree.operators a b →
    g.solitary a = false ∨ g.rightward b = true
  | .leaf _, _, ⟨before, tail, rest, he, _⟩ => absurd he (by simp [OperatorTree.operators])
  | .node left step right, made, ⟨before, tail, rest, he, hb⟩ => by
    obtain ⟨hl, hr, hleft, hright⟩ := made
    rcases split_around he with ⟨m, hm, rfl⟩ | ⟨rfl, rfl, rfl⟩ | ⟨m, rfl, hm⟩
    · have hle : g.level step ≤ g.level a := hleft.atLeast a (by rw [hm]; simp)
      rcases hb.split with ⟨m', hb, -⟩ | ⟨rfl, hlevel, -, htight⟩ | hlt
      · exact hl.beside ⟨before, m, m', hm, hb⟩
      · obtain ⟨l, r, rfl, -⟩ := hleft.last hl hm hlevel.symm htight
        exact .inl (hleft.again rfl hlevel.symm).2.1
      · omega
    · obtain ⟨between, hb, hlevel, htight⟩ := hb
      exact .inr (hright.leads hb hlevel htight)
    · exact hr.beside ⟨m, tail, rest, hm, hb⟩

end Beside

/-! ### How tight the operands are -/

section Leaning

variable (g : Grouping σ)

/-- No left operand is looser than its operator. -/
def LeftLeaning : OperatorTree σ ξ → Prop
  | .leaf _ => True
  | .node left step right => LeftLeaning left ∧ LeftLeaning right ∧
    ∀ {l r : OperatorTree σ ξ} {root : σ}, left = .node l root r → g.level step ≤ g.level root

/-- Every right operand is tighter than its operator, or as tight and associates to the right. -/
def RightLeaning : OperatorTree σ ξ → Prop
  | .leaf _ => True
  | .node left step right => RightLeaning left ∧ RightLeaning right ∧
    ∀ {l r : OperatorTree σ ξ} {root : σ}, right = .node l root r → Tighter g step root

variable {g}

theorem Grouped.leftLeaning : ∀ {tree : OperatorTree σ ξ}, Grouped g tree → LeftLeaning g tree
  | .leaf _, _ => trivial
  | .node left step right, ⟨hl, hr, hleft, _⟩ => by
    refine ⟨hl.leftLeaning, hr.leftLeaning, fun {l r root} he => hleft.atLeast root ?_⟩
    rw [he]
    simp [OperatorTree.operators]

/-- Three operators of one level where the middle one associates to the right and the last does not: the right operand
of the first ends up with an operator as loose as the first at its root. -/
theorem Grouped.not_thrice {a b c : σ} (hb : g.rightward b = true) (hc : g.rightward c = false) :
    ∀ {tree : OperatorTree σ ξ}, Grouped g tree → RightLeaning g tree → ¬ Thrice g tree.operators a b c
  | .leaf _, _, _, ⟨before, tail, rest, _, he, _⟩ => absurd he (by simp [OperatorTree.operators])
  | .node left step right, made, leaning, ⟨before, tail, rest, rest', he, hab, hac⟩ => by
    have hleast := made.root_least
    obtain ⟨hl, hr, hleft, hright⟩ := made
    obtain ⟨leanl, leanr, lean⟩ := leaning
    rcases split_around he with ⟨m, hm, rfl⟩ | ⟨rfl, rfl, rfl⟩ | ⟨m, rfl, hm⟩
    · -- the first stands in the left operand
      have hle : g.level step ≤ g.level a := hleft.atLeast a (by rw [hm]; simp)
      rcases hab.split with ⟨m', hab', rfl⟩ | ⟨rfl, hlevel, -, htight⟩ | hlt
      · rcases hac.split with ⟨m'', hac', -⟩ | ⟨rfl, hlevel, -, htight⟩ | hlt
        · exact hl.not_thrice hb hc leanl ⟨before, m, m', m'', hm, hab', hac'⟩
        · obtain ⟨between, rfl, hblevel, hbetween⟩ := hab'
          obtain ⟨l, r, rfl, hlops⟩ := hleft.last hl
            (show left.operators = (before ++ a :: between) ++ b :: m' by rw [hm]; simp)
            (hblevel.trans hlevel.symm) (hblevel.symm ▸ htight)
          obtain ⟨hl', -, hleft', -⟩ := hl
          obtain ⟨l', r', rfl, -⟩ := hleft'.last hl' hlops hblevel.symm hbetween
          exact absurd hb (by rw [(hleft'.again rfl hblevel.symm).1]; exact Bool.false_ne_true)
        · omega
      · obtain ⟨l, r, rfl, -⟩ := hleft.last hl hm hlevel.symm htight
        exact absurd hb (by rw [(hleft.again rfl hlevel.symm).1]; exact Bool.false_ne_true)
      · omega
    · -- the first is the root
      cases right with
      | leaf x => exact absurd hab (by rintro ⟨between, he, -⟩; exact absurd he (by simp [OperatorTree.operators]))
      | node l root r =>
        have hrleast := hr.root_least
        obtain ⟨hl', hr', hleft', hright'⟩ := hr
        have hroot : g.level step ≤ g.level root := hright.atLeast root (by simp [OperatorTree.operators])
        have hbmem : b ∈ (OperatorTree.node l root r).operators := by
          obtain ⟨between, he, -⟩ := hab
          rw [he]
          simp
        have hblevel : g.level b = g.level step := hab.elim fun _ h => h.2.1
        have hequal : g.level root = g.level step := by
          have := hrleast b hbmem
          omega
        have hrightward : g.rightward root = true := by
          rcases lean rfl with h | h
          · omega
          · exact h.2
        rcases Leads.split hab with ⟨m, ⟨between, hm, -⟩, -⟩ | ⟨rfl, -, rfl, -⟩ | hlt
        · obtain ⟨l'', root'', r'', rfl, hroot''⟩ :=
            hleft'.root hl' (by rw [hm]; simp) (hblevel.trans hequal.symm)
          exact absurd hrightward (by rw [(hleft'.again rfl hroot'').1]; exact Bool.false_ne_true)
        · obtain ⟨between, hce, hclevel, hcbetween⟩ := hac
          have := hright'.leads hce (hclevel.trans hequal.symm) (hequal.symm ▸ hcbetween)
          exact absurd this (by rw [hc]; exact Bool.false_ne_true)
        · omega
    · exact hr.not_thrice hb hc leanr ⟨m, tail, rest, rest', hm, hab, hac⟩

theorem Grouped.turns : ∀ {left right : OperatorTree σ ξ} {root : σ}, Grouped g (.node left root right) →
    g.rightward root = false →
    (∀ {first rest}, Leads g (g.level root) (OperatorTree.node left root right).operators first rest →
      g.rightward first = true) →
    ∃ b c rest rest', Leads g (g.level root) (OperatorTree.node left root right).operators b rest ∧
      Leads g (g.level root) rest c rest' ∧ g.rightward b = true ∧ g.rightward c = false
  | .leaf x, right, root, _, hroot, hleads => by
    have := hleads ⟨[], rfl, rfl, by simp⟩
    rw [hroot] at this
    cases this
  | .node l inner r, right, root, ⟨made, _, hleft, _⟩, hroot, hleads => by
    have hinner : g.level root ≤ g.level inner := hleft.atLeast inner (by simp [OperatorTree.operators])
    rcases Nat.lt_or_eq_of_le hinner with hlt | hequal
    · -- nothing of the level stands before the root
      have htight : ∀ other ∈ (OperatorTree.node l inner r).operators, g.level root < g.level other :=
        fun other ho => Nat.lt_of_lt_of_le hlt (made.root_least other ho)
      have := hleads ⟨_, rfl, rfl, htight⟩
      rw [hroot] at this
      cases this
    · obtain ⟨-, -, hr⟩ := hleft.again rfl hequal.symm
      cases hi : g.rightward inner with
      | false =>
        obtain ⟨b, c, rest, rest', hb, hc, hbr, hcr⟩ := made.turns hi fun h => hleads (hequal ▸ h.append _)
        exact ⟨b, c, _, _, hequal ▸ hb.append _, hequal ▸ hc.append _, hbr, hcr⟩
      | true =>
        obtain ⟨hl, -, hleft', -⟩ := made
        -- a root that associates to the right has nothing of its level on its left
        have hltight : ∀ other ∈ l.operators, g.level root < g.level other := by
          intro other ho
          refine Nat.lt_of_le_of_ne (hequal ▸ hleft'.atLeast other ho) fun heq => ?_
          obtain ⟨l', root', r', rfl, hroot'⟩ := hleft'.root hl ho (heq.symm.trans hequal)
          rw [(hleft'.again rfl hroot').1] at hi
          cases hi
        refine ⟨inner, root, r.operators ++ root :: right.operators, right.operators,
          ⟨l.operators, by simp [OperatorTree.operators], hequal.symm, hltight⟩,
          ⟨r.operators, rfl, rfl, fun other ho => hequal ▸ hr other ho⟩, hi, hroot⟩

theorem Grouped.rightLeaning_of_not_thrice : ∀ {tree : OperatorTree σ ξ}, Grouped g tree →
    (∀ a b c, Thrice g tree.operators a b c → g.rightward b = true → g.rightward c = true) → RightLeaning g tree
  | .leaf _, _, _ => trivial
  | .node left step right, ⟨hl, hr, _, hright⟩, hno => by
    refine ⟨hl.rightLeaning_of_not_thrice fun a b c h => hno a b c (h.append _), ?_, ?_⟩
    · refine hr.rightLeaning_of_not_thrice fun a b c h => hno a b c ?_
      rw [OperatorTree.operators, ← List.singleton_append, ← List.append_assoc]
      exact h.prepend _
    · rintro l r root rfl
      have hle : g.level step ≤ g.level root := hright.atLeast root (by simp [OperatorTree.operators])
      rcases Nat.lt_or_eq_of_le hle with hlt | hequal
      · exact .inl hlt
      · right
        refine ⟨hequal.symm, ?_⟩
        by_contra hroot
        obtain ⟨b, c, rest, rest', hb, hc, hbr, hcr⟩ := hr.turns (by simpa using hroot)
          fun ⟨before, he, hlevel, hbefore⟩ => hright.leads he (hlevel.trans hequal.symm) (hequal ▸ hbefore)
        rw [← hequal] at hb hc
        have := hno step b c ⟨left.operators, _, rest, rest', rfl, hb, hc⟩ hbr
        rw [hcr] at this
        cases this

/-- **When the right operands are as tight as their operators ask.** -/
theorem Grouped.rightLeaning_iff {tree : OperatorTree σ ξ} (h : Grouped g tree) :
    RightLeaning g tree ↔
      ∀ a b c, Thrice g tree.operators a b c → g.rightward b = true → g.rightward c = true := by
  refine ⟨fun lean a b c hthrice hb => ?_, h.rightLeaning_of_not_thrice⟩
  by_contra hc
  exact h.not_thrice hb (by simpa using hc) lean hthrice

end Leaning

/-! ### Refusal and termination -/

section Accepts

variable (g : Grouping σ) (operand : σ → ξ)

/-- What a refusal says about the steps. -/
def Refused (steps : List σ) : Refusal σ → Prop
  | .unknown step => step ∈ steps ∧ g.known step = false
  | .clash step next => Beside g steps step next ∧ g.solitary step = true ∧ g.rightward next = false

variable {g operand}

theorem Refused.prepend {steps : List σ} {e : Refusal σ} (h : Refused g steps e) (more : List σ) :
    Refused g (more ++ steps) e := by
  cases e with
  | unknown step => exact ⟨List.mem_append_right more h.1, h.2⟩
  | clash step next => exact ⟨h.1.prepend more, h.2⟩

/-- The clash that `climb` finds after the right operand of `step`. -/
theorem refused_clash {step next : σ} {steps rest : List σ} {right : OperatorTree σ ξ}
    (inner : Runs g operand (.absorb step) (.leaf (operand step)) steps right (next :: rest))
    (clash : Clash g step (next :: rest)) : Refused g (step :: steps) (.clash step next) := by
  obtain ⟨⟨-, -, -, hbound⟩, hstop⟩ := inner.stands (stands_leaf step _ steps)
  obtain ⟨used, rfl, hops, -, -⟩ := inner.takes
  have htight : ∀ other ∈ used, g.level step < g.level other := by
    rcases hbound with hbound | hbound
    · exact fun other ho => hbound other (by rw [hops]; exact List.mem_append_right _ ho)
    · exact absurd hbound (Nat.not_lt_of_le (Nat.le_of_eq clash.2.symm))
  refine ⟨⟨[], _, rest, rfl, used, rfl, clash.2, htight⟩, clash.1, ?_⟩
  by_contra hr
  exact hstop (.inr ⟨clash.2, by simpa using hr⟩)

theorem refused_of_error : ∀ fuel : ℕ,
    (∀ {left : OperatorTree σ ξ} {steps : List σ} {minimum : ℕ} {e},
      climb g operand fuel left steps minimum = some (.error e) → Refused g steps e) ∧
    (∀ {step : σ} {right : OperatorTree σ ξ} {steps : List σ} {e},
      absorb g operand fuel step right steps = some (.error e) → Refused g steps e) := by
  intro fuel
  induction fuel with
  | zero => exact ⟨fun h => (nomatch h), fun h => (nomatch h)⟩
  | succ fuel ih =>
    obtain ⟨ihClimb, ihAbsorb⟩ := ih
    have hruns := runs_of_ok (g := g) operand fuel
    constructor
    · intro left steps minimum e h
      cases steps with
      | nil => cases h
      | cons step steps =>
        rw [climb] at h
        split at h
        · rename_i unknown
          cases h
          exact ⟨by simp, unknown⟩
        · split at h
          · cases h
          · split at h
            · cases h
            · rename_i inner
              cases h
              exact (ihAbsorb inner).prepend [step]
            · rename_i right inner
              cases fuel <;> cases h
            · rename_i right next middle inner
              split at h
              · rename_i clash
                cases h
                exact refused_clash (hruns.2 inner) clash
              · obtain ⟨used, rfl, -⟩ := (hruns.2 inner).takes
                exact (ihClimb h).prepend (step :: used)
    · intro step right steps e h
      cases steps with
      | nil => cases h
      | cons next steps =>
        rw [absorb] at h
        split at h
        · rename_i unknown
          cases h
          exact ⟨by simp, unknown⟩
        · split at h
          · split at h
            · cases h
            · rename_i inner
              cases h
              exact ihClimb inner
            · rename_i right' middle inner
              obtain ⟨used, hused, -⟩ := (hruns.1 inner).takes
              rw [hused]
              exact (ihAbsorb h).prepend used
          · cases h

theorem Runs.next_known {call : Call σ} {tree tree' : OperatorTree σ ξ} {steps rest : List σ}
    (h : Runs g operand call tree steps tree' rest) : Next (fun step => g.known step = true) rest := by
  induction h with
  | finished minimum left => trivial
  | looser left steps known below => exact known
  | operator known reaches inner alone outer ihInner ihOuter => exact ihOuter
  | settled step right => trivial
  | held right steps known loose => exact known
  | taken known tight inner outer ihInner ihOuter => exact ihOuter

theorem Runs.shortens {minimum : ℕ} {step : σ} {tree tree' : OperatorTree σ ξ} {steps rest : List σ}
    (h : Runs g operand (.climb minimum) tree (step :: steps) tree' rest) (hreach : minimum ≤ g.level step) :
    rest.length ≤ steps.length := by
  cases h with
  | looser _ _ _ below => exact absurd below (Nat.not_lt_of_le hreach)
  | operator known reaches inner alone outer =>
    obtain ⟨used, rfl, -⟩ := inner.takes
    obtain ⟨used', rfl, -⟩ := outer.takes
    simp only [List.length_append]
    omega

theorem returns : ∀ fuel : ℕ,
    (∀ (left : OperatorTree σ ξ) (steps : List σ) (minimum : ℕ), 2 * steps.length + 1 ≤ fuel →
      climb g operand fuel left steps minimum ≠ none) ∧
    (∀ (step : σ) (right : OperatorTree σ ξ) (steps : List σ), 2 * steps.length + 2 ≤ fuel →
      absorb g operand fuel step right steps ≠ none) := by
  intro fuel
  induction fuel with
  | zero => exact ⟨fun _ _ _ h => absurd h (by omega), fun _ _ _ h => absurd h (by omega)⟩
  | succ fuel ih =>
    obtain ⟨ihClimb, ihAbsorb⟩ := ih
    have hruns := runs_of_ok (g := g) operand fuel
    constructor
    · intro left steps minimum hfuel
      cases steps with
      | nil => exact fun h => nomatch h
      | cons step steps =>
        rw [List.length_cons] at hfuel
        rw [climb]
        split
        · exact fun h => nomatch h
        · split
          · exact fun h => nomatch h
          · split
            · rename_i inner
              exact absurd inner (ihAbsorb _ _ _ (by omega))
            · exact fun h => nomatch h
            · exact ihClimb _ _ _ (by rw [List.length_nil]; omega)
            · rename_i right next middle inner
              split
              · exact fun h => nomatch h
              · obtain ⟨used, hused, -⟩ := (hruns.2 inner).takes
                have := congrArg List.length hused
                rw [List.length_append] at this
                exact ihClimb _ _ _ (by omega)
    · intro step right steps hfuel
      cases steps with
      | nil => exact fun h => nomatch h
      | cons next steps =>
        rw [List.length_cons] at hfuel
        rw [absorb]
        split
        · exact fun h => nomatch h
        · split
          · split
            · rename_i inner
              exact absurd inner (ihClimb _ _ _ (by rw [List.length_cons]; omega))
            · exact fun h => nomatch h
            · rename_i right' middle inner
              have := (hruns.1 inner).shortens (Nat.le_refl _)
              exact ihAbsorb _ _ _ (by omega)
          · exact fun h => nomatch h

variable (g operand)

/-- The whole chain, with enough fuel. -/
def fold (first : ξ) (steps : List σ) : Result σ ξ := climb g operand (2 * steps.length + 1) (.leaf first) steps 0

variable {g operand}

/-- What folding makes. -/
theorem fold_ok {first : ξ} {steps rest : List σ} {tree : OperatorTree σ ξ}
    (h : fold g operand first steps = some (.ok (tree, rest))) :
    rest = [] ∧ Grouped g tree ∧ tree.operators = steps ∧ tree.inorder = .inl first :: sequence operand steps ∧
      ∀ step ∈ steps, g.known step = true := by
  have hrun := (runs_of_ok _ _).1 h
  have hstart : Stands g (.climb 0) (.leaf first : OperatorTree σ ξ) steps := by
    refine ⟨trivial, ?_⟩
    cases steps with
    | nil => trivial
    | cons step steps => exact ⟨fun _ ho => (nomatch ho), fun he => (nomatch he)⟩
  obtain ⟨⟨hmade, -⟩, hstop⟩ := hrun.stands hstart
  obtain ⟨used, hused, hops, hin, hall⟩ := hrun.takes
  cases rest with
  | nil =>
    rw [List.append_nil] at hused
    subst hused
    exact ⟨rfl, hmade, hops, hin, fun step hs => (hall step hs).1⟩
  | cons next rest => exact absurd hstop (Nat.not_lt_zero _)

/-- **Which chains are accepted.** -/
theorem fold_accepts_iff (first : ξ) (steps : List σ) :
    (∃ tree, fold g operand first steps = some (.ok (tree, []))) ↔
      (∀ step ∈ steps, g.known step = true) ∧
        ∀ a b, Beside g steps a b → g.solitary a = true → g.rightward b = true := by
  constructor
  · rintro ⟨tree, h⟩
    obtain ⟨-, hmade, hops, -, hknown⟩ := fold_ok h
    refine ⟨hknown, fun a b hab ha => ?_⟩
    rw [← hops] at hab
    rcases hmade.beside hab with h | h
    · rw [ha] at h
      cases h
    · exact h
  · rintro ⟨hknown, hbeside⟩
    cases h : fold g operand first steps with
    | none => exact absurd h ((returns _).1 _ _ _ (Nat.le_refl _))
    | some result =>
      cases result with
      | ok made =>
        obtain ⟨tree, rest⟩ := made
        obtain ⟨rfl, -⟩ := fold_ok h
        exact ⟨tree, rfl⟩
      | error e =>
        have href := (refused_of_error _).1 h
        cases e with
        | unknown step =>
          obtain ⟨hmem, hunknown⟩ := href
          rw [hknown step hmem] at hunknown
          cases hunknown
        | clash step next =>
          obtain ⟨hab, ha, hb⟩ := href
          rw [hbeside step next hab ha] at hb
          cases hb

theorem climb_flat {level minimum : ℕ} (hreach : minimum ≤ level) : ∀ {steps : List σ} {fuel : ℕ}
    (left : OperatorTree σ ξ), (∀ step ∈ steps, g.known step = true ∧ g.level step = level ∧
      g.rightward step = false ∧ g.solitary step = false) → 2 * steps.length + 1 ≤ fuel →
    climb g operand fuel left steps minimum =
      some (.ok (steps.foldl (fun tree step => .node tree step (.leaf (operand step))) left, []))
  | _, 0, _, _, hfuel => absurd hfuel (by omega)
  | [], fuel + 1, left, _, _ => rfl
  | [step], 1, left, _, hfuel => absurd hfuel (by simp)
  | step :: next :: steps, 1, left, _, hfuel => absurd hfuel (by simp)
  | [step], fuel + 2, left, hall, hfuel => by
    obtain ⟨hknown, hlevel, -, -⟩ := hall step (by simp)
    rw [climb, if_neg (by rw [hknown]; decide), if_neg (by omega)]
    rfl
  | step :: next :: steps, fuel + 2, left, hall, hfuel => by
    obtain ⟨hknown, hlevel, -, hsolitary⟩ := hall step (by simp)
    obtain ⟨hknown', hlevel', hrightward, -⟩ := hall next (by simp)
    have habsorb : absorb g operand (fuel + 1) step (.leaf (operand step)) (next :: steps) =
        some (.ok (.leaf (operand step), next :: steps)) := by
      rw [absorb, if_neg (by rw [hknown']; decide), if_neg]
      rintro (h | h)
      · omega
      · rw [hrightward] at h
        cases h.2
    rw [climb, if_neg (by rw [hknown]; decide), if_neg (by omega), habsorb]
    simp only
    rw [if_neg (fun h => by rw [Clash, hsolitary] at h; cases h.1)]
    exact climb_flat hreach _ (fun s hs => hall s (List.mem_cons_of_mem _ hs))
      (by simp only [List.length_cons] at hfuel ⊢; omega)

end Accepts

end Blot.Support.Climbing
