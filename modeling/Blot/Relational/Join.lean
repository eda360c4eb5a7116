import Blot.Support.Checks
import Blot.Relational.Slice

/-!
# Joining the outcomes of branches (`relational_inference.rs`)

The symbolic outcomes of several branches become one: terms that differ are joined in a fresh identity, which keeps the
bounds that all branches have.

* `joinValue` — `Inference::join_value`, with the constraints of the branches threaded through;
* `join` — `Inference::join`;
* `join_covers` — every valuation of a branch extends to one of the joined outcome.
-/

namespace Blot.Relational

open Support

/-- `Operand`; what only other parts of the inference read is left out -/
structure Operand where
  scalar : Option Term
  length : Option Term
  fields : List (String × Operand)
  constructor : Option String
  payload : Option Operand
  alternatives : List (Operand × IndexedConstraints)

structure State where
  bindings : Table String Operand
  constraints : IndexedConstraints

structure Outcome where
  value : Operand
  state : State

inductive Refusal where
  | unsupported
  | budget
  deriving DecidableEq

/-- `Constraints::proof`, with rounds that end every search -/
def IndexedConstraints.slice (c : IndexedConstraints) (index length : Term) : Except ProofFailure Constraints :=
  (c.proof ((Search.start index length).left c) index length).getD (.error .missingEdge)

def largest : List ℤ → ℤ
  | [] => 0
  | bound :: bounds => bounds.foldl max bound

/-- Makes the fresh result equal to the term of each branch, and gathers the nodes it is related to. -/
def relate (result : Term) : List Term → List IndexedConstraints → Except Refusal (List IndexedConstraints × List Node)
  | term :: terms, c :: cs =>
    let c := c.extend (constraintsEqual result term)
    match c.slice result (.literal 0) with
    | .error _ => .error .budget
    | .ok relevant =>
      match relate result terms cs with
      | .error refusal => .error refusal
      | .ok (cs, nodes) => .ok (c :: cs, (relevant.flatMap fun e => [e.left, e.right]) ++ nodes)
  | _, _ => .ok ([], [])

def pushJoint (cs : List IndexedConstraints) (left right : Node) : List IndexedConstraints :=
  match cs.mapM fun c => shortestPathsFrom right c.edges refinementTermBudget left with
  | none => cs
  | some bounds => cs.map fun c => c.push ⟨left, right, largest bounds⟩

def joinTerms (terms : List (Option Term)) (cs : List IndexedConstraints) (next : Identity) :
    Except Refusal (Option Term × List IndexedConstraints × Identity) :=
  match terms.mapM id with
  | none => .ok (none, cs, next)
  | some [] => .ok (none, cs, next)
  | some (first :: rest) =>
    if ∀ term ∈ rest, term = first then .ok (some first, cs, next)
    else
      match relate (.ident (next + 1) 0) (first :: rest) cs with
      | .error refusal => .error refusal
      | .ok (cs, nodes) =>
        let pairs := (Ascending.ofList (.zero :: nodes)).elements.flatMap fun node =>
          [(Node.ident (next + 1), node), (node, Node.ident (next + 1))]
        .ok (some (.ident (next + 1) 0), pairs.foldl (fun cs p => pushJoint cs p.1 p.2) cs, next + 1)

mutual
/-- `Inference::join_value`, over the value of the first branch and those of the others -/
def joinValue (first : Operand) (others : List Operand) (cs : List IndexedConstraints) (next : Identity) :
    Except Refusal (Operand × List IndexedConstraints × Identity) :=
  match first with
  | ⟨scalar, length, fields, constructor, payload, _⟩ => do
    let (scalar, cs, next) ← joinTerms (scalar :: others.map Operand.scalar) cs next
    let (length, cs, next) ← joinTerms (length :: others.map Operand.length) cs next
    let (fields, cs, next) ← joinFields fields others cs next
    if constructor.isSome ∧ ∀ other ∈ others, other.constructor = constructor then do
      let (payload, cs, next) ← joinPayload payload others cs next
      return (⟨scalar, length, fields, constructor, payload, []⟩, cs, next)
    else return (⟨scalar, length, fields, none, none, []⟩, cs, next)
termination_by structural first
def joinFields (fields : List (String × Operand)) (others : List Operand) (cs : List IndexedConstraints)
    (next : Identity) : Except Refusal (List (String × Operand) × List IndexedConstraints × Identity) :=
  match fields with
  | [] => return ([], cs, next)
  | (name, field) :: rest =>
    match others.mapM fun other => other.fields.lookup name with
    | none => joinFields rest others cs next
    | some projected => do
      let (field, cs, next) ← joinValue field projected cs next
      let (rest, cs, next) ← joinFields rest others cs next
      return ((name, field) :: rest, cs, next)
termination_by structural fields
def joinPayload (payload : Option Operand) (others : List Operand) (cs : List IndexedConstraints) (next : Identity) :
    Except Refusal (Option Operand × List IndexedConstraints × Identity) :=
  match payload with
  | none => return (none, cs, next)
  | some payload =>
    match others.mapM Operand.payload with
    | none => return (none, cs, next)
    | some payloads => do
      let (payload, cs, next) ← joinValue payload payloads cs next
      return (some payload, cs, next)
termination_by structural payload
end

def join (outcomes : List Outcome) (next : Identity) : Except Refusal (Option Outcome × Identity) :=
  match outcomes with
  | [] => return (none, next)
  | [first] => return (some first, next)
  | first :: others => do
    let (value, cs, next) ← joinValue first.value (others.map Outcome.value)
      ((first :: others).map fun outcome => outcome.state.constraints) next
    let value := if ∀ outcome ∈ others, outcome.value.constructor = first.value.constructor then value
      else { value with alternatives := ((first :: others).map Outcome.value).zip cs }
    let kept := (cs.headD .empty).edges.filter fun constraint => cs.all fun c => entails [constraint] c.edges
    return (some ⟨value, ⟨first.state.bindings, IndexedConstraints.empty.extend kept⟩⟩, next)

/-! ### What an operand says -/

/-- Under a valuation an operand describes a value: what it says of its parts holds of those of the value, where `field`
and `inner` are the parts of the value that are described. -/
inductive Describes (ν : Valuation) : Operand → Operand → Prop where
  | intro {joined value : Operand} {field : String → Operand → Operand} {inner : Operand}
    (scalar : ∀ t, joined.scalar = some t → ∃ u, value.scalar = some u ∧ t.eval ν = u.eval ν)
    (length : ∀ t, joined.length = some t → ∃ u, value.length = some u ∧ t.eval ν = u.eval ν)
    (present : ∀ name part, (name, part) ∈ joined.fields → (name, field name part) ∈ value.fields)
    (fields : ∀ name part, (name, part) ∈ joined.fields → Describes ν part (field name part))
    (constructor : ∀ name, joined.constructor = some name → value.constructor = some name)
    (filled : ∀ part, joined.payload = some part → value.payload = some inner)
    (payload : ∀ part, joined.payload = some part → Describes ν part inner) :
    Describes ν joined value

/-- A node is `Zero` or an earlier identity. -/
def Node.Below (n : Identity) (node : Node) : Prop := ∀ identity, node = .ident identity → identity ≤ n

def Term.Below (n : Identity) (term : Term) : Prop := (termNode term).1.Below n

def Constraints.Below (n : Identity) (constraints : Constraints) : Prop :=
  ∀ e ∈ constraints, e.left.Below n ∧ e.right.Below n

/-- The terms of an operand mention earlier identities only. -/
inductive Operand.Below (n : Identity) : Operand → Prop where
  | intro {value : Operand} (scalar : ∀ t, value.scalar = some t → t.Below n)
    (length : ∀ t, value.length = some t → t.Below n)
    (fields : ∀ name field, (name, field) ∈ value.fields → Below n field)
    (payload : ∀ part, value.payload = some part → Below n part) : Below n value

def Agree (n : Identity) (ν ν' : Valuation) : Prop := ∀ identity ≤ n, ν' identity = ν identity

section Facts

variable {n k : Identity} {ν ν' ν'' : Valuation} {term t u : Term} {node : Node} {c c' c'' : IndexedConstraints}
  {constraints : Constraints} {e : Constraint}

theorem Agree.trans (h : Agree n ν ν') (hnk : n ≤ k) (h' : Agree k ν' ν'') : Agree n ν ν'' :=
  fun identity hle => (h' identity (hle.trans hnk)).trans (h identity hle)

theorem Node.Below.mono (h : node.Below n) (hnk : n ≤ k) : node.Below k :=
  fun identity heq => (h identity heq).trans hnk

theorem Term.Below.mono (h : term.Below n) (hnk : n ≤ k) : term.Below k := Node.Below.mono h hnk

theorem Constraints.Below.mono (h : constraints.Below n) (hnk : n ≤ k) : constraints.Below k :=
  fun e he => ⟨(h e he).1.mono hnk, (h e he).2.mono hnk⟩

theorem Node.Below.eval_eq (h : node.Below n) (hagree : Agree n ν ν') : node.eval ν' = node.eval ν := by
  cases node with
  | zero => rfl
  | ident identity => exact hagree identity (h identity rfl)

theorem Term.Below.eval_eq (h : term.Below n) (hagree : Agree n ν ν') : term.eval ν' = term.eval ν := by
  rw [eval_termNode, eval_termNode, Node.Below.eval_eq h hagree]

theorem Operand.Below.mono {value : Operand} (h : value.Below n) (hnk : n ≤ k) : value.Below k := by
  induction h with
  | intro scalar length _ _ ihfields ihpayload =>
    exact .intro (fun t ht => (scalar t ht).mono hnk) (fun t ht => (length t ht).mono hnk) ihfields ihpayload

section Parts

variable {value : Operand}

theorem Operand.Below.scalar_below (h : value.Below n) : ∀ t, value.scalar = some t → t.Below n := by
  obtain ⟨hscalar, -, -, -⟩ := h
  exact hscalar

theorem Operand.Below.length_below (h : value.Below n) : ∀ t, value.length = some t → t.Below n := by
  obtain ⟨-, hlength, -, -⟩ := h
  exact hlength

theorem Operand.Below.field_below (h : value.Below n) {name : String} {field : Operand}
    (hfield : (name, field) ∈ value.fields) : field.Below n := by
  obtain ⟨-, -, hfields, -⟩ := h
  exact hfields name field hfield

theorem Operand.Below.payload_below (h : value.Below n) {part : Operand} (hpart : value.payload = some part) :
    part.Below n := by
  obtain ⟨-, -, -, hpayload⟩ := h
  exact hpayload part hpart

end Parts

/-- Later identities do not change what an operand says. -/
theorem Describes.of_agree {joined value : Operand} (h : Describes ν joined value) (hjoined : joined.Below n)
    (hvalue : value.Below n) (hagree : Agree n ν ν') : Describes ν' joined value := by
  induction h with
  | intro scalar length present fields constructor filled payload ihfields ihpayload =>
    obtain ⟨hscalar, hlength, hfields, hpayload⟩ := hjoined
    obtain ⟨hscalar', hlength', hfields', hpayload'⟩ := hvalue
    refine .intro (fun t ht => ?_) (fun t ht => ?_) present (fun name part hp => ?_) constructor filled fun part hp =>
      ?_
    · obtain ⟨u, hu, heq⟩ := scalar t ht
      exact ⟨u, hu, by rw [(hscalar t ht).eval_eq hagree, (hscalar' u hu).eval_eq hagree, heq]⟩
    · obtain ⟨u, hu, heq⟩ := length t ht
      exact ⟨u, hu, by rw [(hlength t ht).eval_eq hagree, (hlength' u hu).eval_eq hagree, heq]⟩
    · exact ihfields name part hp (hfields name part hp) (hfields' name _ (present name part hp))
    · exact ihpayload part hp (hpayload part hp) (hpayload' _ (filled part hp))

@[simp] theorem edges_push (c : IndexedConstraints) (e : Constraint) : (c.push e).edges = c.edges ++ [e] := rfl

@[simp] theorem edges_extend (c : IndexedConstraints) (l : Constraints) : (c.extend l).edges = c.edges ++ l := by
  unfold IndexedConstraints.extend
  induction l generalizing c with
  | nil => exact (List.append_nil _).symm
  | cons e l ih => rw [List.foldl_cons, ih, edges_push, List.append_assoc, List.singleton_append]

theorem mem_of_mem_slice {index length : Term} {relevant : Constraints} (h : c.slice index length = .ok relevant)
    (he : e ∈ relevant) : e ∈ c.edges := by
  unfold IndexedConstraints.slice IndexedConstraints.proof at h
  cases hrun : Search.run c ((Search.start index length).left c) (Search.start index length) with
  | none =>
    rw [hrun] at h
    cases h
  | some result =>
    cases result with
    | error failure =>
      rw [hrun] at h
      cases h
    | ok search =>
      rw [hrun] at h
      obtain rfl := Except.ok.inj h
      obtain ⟨i, -, hi⟩ := List.mem_filterMap.1 he
      exact List.mem_of_getElem? hi

theorem below_equal {n : Identity} {left right : Term} (hl : left.Below n) (hr : right.Below n) :
    (constraintsEqual left right).Below n := by
  intro e he
  simp only [constraintsEqual, constraintsDifference, List.cons_append, List.nil_append, List.mem_cons,
    List.not_mem_nil, or_false] at he
  rcases he with rfl | rfl
  · exact ⟨hl, hr⟩
  · exact ⟨hr, hl⟩

/-- Where a branch goes to other constraints, its valuations extend to later identities so that `Q` holds. -/
def Follows (n : Identity) (c c' : IndexedConstraints) (Q : Valuation → Prop) : Prop :=
  ∀ ν, Satisfies ν c.edges → ∃ ν', Agree n ν ν' ∧ Satisfies ν' c'.edges ∧ Q ν'

theorem Follows.andThen {Q Q' : Valuation → Prop} (h : Follows n c c' Q) (hnk : n ≤ k) (h' : Follows k c' c'' Q')
    (hstable : ∀ ν ν', Q ν → Agree k ν ν' → Q ν') : Follows n c c'' fun ν => Q ν ∧ Q' ν := by
  intro ν hν
  obtain ⟨ν', hagree, hν', hQ⟩ := h ν hν
  obtain ⟨ν'', hagree', hν'', hQ'⟩ := h' ν' hν'
  exact ⟨ν'', hagree.trans hnk hagree', hν'', hstable ν' ν'' hQ hagree', hQ'⟩

/-- A step of the join: the constraints of every branch go on to others over later identities, so that `Q` holds of the
branch. -/
structure JoinStep {A : Type} (values : List A) (Q : A → Valuation → Prop) (n n' : Identity)
    (cs cs' : List IndexedConstraints) : Prop where
  le : n ≤ n'
  length : cs'.length = cs.length
  below : ∀ c ∈ cs', c.edges.Below n'
  follows : ∀ (i : ℕ) (a : A) (c c' : IndexedConstraints), values[i]? = some a → cs[i]? = some c → cs'[i]? = some c' →
    Follows n c c' (Q a)

theorem JoinStep.refl {A : Type} {values : List A} {Q : A → Valuation → Prop} {cs : List IndexedConstraints}
    (hbelow : ∀ c ∈ cs, c.edges.Below n) (hQ : ∀ a ∈ values, ∀ ν, Q a ν) : JoinStep values Q n n cs cs where
  le := le_rfl
  length := rfl
  below := hbelow
  follows i a c c' ha hc hc' ν hν := by
    obtain rfl := Option.some.inj (hc.symm.trans hc')
    exact ⟨ν, fun _ _ => rfl, hν, hQ a (List.mem_of_getElem? ha) ν⟩

/-- One step after another; what the first one gives must not depend on later identities. -/
theorem JoinStep.andThen {A : Type} {values : List A} {Q Q' : A → Valuation → Prop} {m : Identity}
    {cs cs' cs'' : List IndexedConstraints} (h : JoinStep values Q n m cs cs') (h' : JoinStep values Q' m k cs' cs'')
    (hstable : ∀ a ∈ values, ∀ ν ν', Q a ν → Agree m ν ν' → Q a ν') :
    JoinStep values (fun a ν => Q a ν ∧ Q' a ν) n k cs cs'' where
  le := h.le.trans h'.le
  length := h'.length.trans h.length
  below := h'.below
  follows i a c c'' ha hc hc'' := by
    have hi : i < cs'.length := by
      rw [← h'.length]
      exact (List.getElem?_eq_some_iff.1 hc'').1
    have hc' := List.getElem?_eq_getElem hi
    exact (h.follows i a c _ ha hc hc').andThen h.le (h'.follows i a _ c'' ha hc' hc'')
      (hstable a (List.mem_of_getElem? ha))

theorem JoinStep.imp {A : Type} {values : List A} {Q Q' : A → Valuation → Prop} {cs cs' : List IndexedConstraints}
    (h : JoinStep values Q n k cs cs') (himp : ∀ a ∈ values, ∀ ν, Q a ν → Q' a ν) : JoinStep values Q' n k cs cs' where
  le := h.le
  length := h.length
  below := h.below
  follows i a c c' ha hc hc' ν hν := by
    obtain ⟨ν', hagree, hν', hQ⟩ := h.follows i a c c' ha hc hc' ν hν
    exact ⟨ν', hagree, hν', himp a (List.mem_of_getElem? ha) ν' hQ⟩

theorem JoinStep.of_parts {A B : Type} {values : List A} {parts : List B} {Q : B → Valuation → Prop}
    {Q' : A → Valuation → Prop} {cs cs' : List IndexedConstraints} (h : JoinStep parts Q n k cs cs')
    (hparts : ∀ (i : ℕ) (a : A), values[i]? = some a → ∃ b, parts[i]? = some b ∧ ∀ ν, Q b ν → Q' a ν) :
    JoinStep values Q' n k cs cs' where
  le := h.le
  length := h.length
  below := h.below
  follows i a c c' ha hc hc' ν hν := by
    obtain ⟨b, hb, himp⟩ := hparts i a ha
    obtain ⟨ν', hagree, hν', hQ⟩ := h.follows i b c c' hb hc hc' ν hν
    exact ⟨ν', hagree, hν', himp ν' hQ⟩

theorem JoinStep.of_map {A B : Type} {a : A} {values : List A} {Q : B → Valuation → Prop}
    {cs cs' : List IndexedConstraints} (part : A → B) (h : JoinStep (part a :: values.map part) Q n k cs cs') :
    JoinStep (a :: values) (fun value ν => Q (part value) ν) n k cs cs' := by
  have h : JoinStep ((a :: values).map part) Q n k cs cs' := h
  refine h.of_parts fun i value hvalue => ⟨part value, ?_, fun ν hQ => hQ⟩
  rw [List.getElem?_map, hvalue]
  rfl

theorem JoinStep.cons {A : Type} {a : A} {values : List A} {Q : A → Valuation → Prop} {cs cs' : List IndexedConstraints}
    (h : Follows n c c' (Q a)) (hbelow : c'.edges.Below k) (hstep : JoinStep values Q n k cs cs') :
    JoinStep (a :: values) Q n k (c :: cs) (c' :: cs') where
  le := hstep.le
  length := by rw [List.length_cons, List.length_cons, hstep.length]
  below := List.forall_mem_cons.2 ⟨hbelow, hstep.below⟩
  follows i b d d' hb hd hd' := by
    cases i with
    | zero =>
      obtain rfl := Option.some.inj hb
      obtain rfl := Option.some.inj hd
      obtain rfl := Option.some.inj hd'
      exact h
    | succ i => exact hstep.follows i b d d' hb hd hd'

theorem le_largest {bounds : List ℤ} {bound : ℤ} (h : bound ∈ bounds) : bound ≤ largest bounds := by
  have hfold : ∀ (bounds : List ℤ) (start : ℤ), start ≤ bounds.foldl max start ∧
      ∀ b ∈ bounds, b ≤ bounds.foldl max start := by
    intro bounds
    induction bounds with
    | nil => exact fun start => ⟨le_rfl, fun b hb => absurd hb List.not_mem_nil⟩
    | cons b bounds ih =>
      intro start
      obtain ⟨hstart, hall⟩ := ih (max start b)
      exact ⟨(le_max_left _ _).trans hstart, List.forall_mem_cons.2 ⟨(le_max_right _ _).trans hstart, hall⟩⟩
  cases bounds with
  | nil => exact absurd h List.not_mem_nil
  | cons b bounds =>
    rcases List.mem_cons.1 h with rfl | h
    · exact (hfold bounds bound).1
    · exact (hfold bounds b).2 bound h

theorem joinStep_pushJoint {A : Type} {values : List A} {cs : List IndexedConstraints} {left right : Node}
    (hbelow : ∀ c ∈ cs, c.edges.Below n) (hl : left.Below n) (hr : right.Below n) :
    JoinStep values (fun _ _ => True) n n cs (pushJoint cs left right) := by
  unfold pushJoint
  cases hbounds : cs.mapM fun c => shortestPathsFrom right c.edges refinementTermBudget left with
  | none => exact JoinStep.refl hbelow fun _ _ _ => trivial
  | some bounds =>
    dsimp only
    refine ⟨le_rfl, List.length_map _, fun c hc => ?_, fun i a c c' _ hc hc' ν hν => ⟨ν, fun _ _ => rfl, ?_, trivial⟩⟩
    · obtain ⟨d, hd, rfl⟩ := List.mem_map.1 hc
      refine List.forall_mem_append.2 ⟨hbelow d hd, List.forall_mem_singleton.2 ⟨hl, hr⟩⟩
    · rw [List.getElem?_map, hc] at hc'
      obtain rfl := Option.some.inj hc'
      refine satisfies_append.2 ⟨hν, List.forall_mem_singleton.2 ?_⟩
      obtain ⟨bound, hbound, hpath⟩ := exists_of_mapM hbounds c (List.mem_of_getElem? hc)
      exact (le_of_shortestPathsFrom hν hpath).trans (le_largest hbound)

theorem joinStep_foldl_pushJoint {A : Type} {values : List A} {cs : List IndexedConstraints}
    {pairs : List (Node × Node)}
    (hbelow : ∀ c ∈ cs, c.edges.Below n) (hpairs : ∀ p ∈ pairs, p.1.Below n ∧ p.2.Below n) :
    JoinStep values (fun _ _ => True) n n cs (pairs.foldl (fun cs p => pushJoint cs p.1 p.2) cs) := by
  induction pairs generalizing cs with
  | nil => exact JoinStep.refl hbelow fun _ _ _ => trivial
  | cons p pairs ih =>
    rw [List.forall_mem_cons] at hpairs
    have hfirst : JoinStep values _ n n cs _ := joinStep_pushJoint hbelow hpairs.1.1 hpairs.1.2
    exact (hfirst.andThen (ih hfirst.below hpairs.2) fun _ _ _ _ _ _ => trivial).imp fun _ _ _ _ => trivial

/-- **The fresh identity** takes the value of the term of the branch. -/
theorem joinStep_relate {terms : List Term} {cs cs' : List IndexedConstraints} {nodes : List Node}
    (h : relate (.ident (n + 1) 0) terms cs = .ok (cs', nodes)) (hlen : cs.length = terms.length)
    (hbelow : ∀ c ∈ cs, c.edges.Below n) (hterms : ∀ t ∈ terms, t.Below n) :
    JoinStep terms (fun t ν => (Term.ident (n + 1) 0).eval ν = t.eval ν) n (n + 1) cs cs' ∧
      ∀ node ∈ nodes, node.Below (n + 1) := by
  have hfresh : (Term.ident (n + 1) 0).Below (n + 1) := fun identity heq => (Node.ident.inj heq).ge
  induction terms generalizing cs cs' nodes with
  | nil =>
    obtain rfl := List.length_eq_zero_iff.1 hlen
    obtain ⟨rfl, rfl⟩ := Prod.mk.inj (Except.ok.inj h)
    exact ⟨⟨Nat.le_succ n, rfl, fun c hc => absurd hc List.not_mem_nil, fun i a c c' ha => by cases ha⟩,
      fun node hnode => absurd hnode List.not_mem_nil⟩
  | cons term terms ih =>
    cases cs with
    | nil => cases hlen
    | cons c cs =>
      rw [List.forall_mem_cons] at hbelow hterms
      rw [relate] at h
      have hextended : (c.extend (constraintsEqual (.ident (n + 1) 0) term)).edges.Below (n + 1) := by
        rw [edges_extend]
        refine List.forall_mem_append.2 ⟨hbelow.1.mono (Nat.le_succ n), below_equal hfresh ?_⟩
        exact hterms.1.mono (Nat.le_succ n)
      cases hslice : (c.extend (constraintsEqual (.ident (n + 1) 0) term)).slice (.ident (n + 1) 0) (.literal 0) with
      | error failure =>
        rw [hslice] at h
        cases h
      | ok relevant =>
        rw [hslice] at h
        dsimp only at h
        cases hrest : relate (.ident (n + 1) 0) terms cs with
        | error refusal =>
          rw [hrest] at h
          cases h
        | ok rest =>
          rw [hrest] at h
          obtain ⟨rfl, rfl⟩ := Prod.mk.inj (Except.ok.inj h)
          obtain ⟨hstep, hnodes⟩ := ih hrest (Nat.succ.inj hlen) hbelow.2 hterms.2
          refine ⟨hstep.cons ?_ hextended, fun node hnode => ?_⟩
          · intro ν hν
            have hagree : Agree n ν (Function.update ν (n + 1) (term.eval ν)) := fun identity hle =>
              Function.update_of_ne (Nat.lt_succ_of_le hle).ne _ _
            have hresult : (Term.ident (n + 1) 0).eval (Function.update ν (n + 1) (term.eval ν)) =
                term.eval (Function.update ν (n + 1) (term.eval ν)) := by
              rw [hterms.1.eval_eq hagree]
              show Function.update ν (n + 1) (term.eval ν) (n + 1) + 0 = _
              rw [Function.update_self, add_zero]
            refine ⟨_, hagree, ?_, hresult⟩
            rw [edges_extend]
            refine satisfies_append.2 ⟨fun e he => ?_, satisfies_equal.2 hresult⟩
            unfold Difference.Holds
            rw [(hbelow.1 e he).1.eval_eq hagree, (hbelow.1 e he).2.eval_eq hagree]
            exact hν e he
          · rcases List.mem_append.1 hnode with hnode | hnode
            · obtain ⟨e, he, hor⟩ := List.mem_flatMap.1 hnode
              have hmem := hextended e (mem_of_mem_slice hslice he)
              rcases List.mem_cons.1 hor with rfl | hor
              · exact hmem.1
              · obtain rfl := List.mem_singleton.1 hor
                exact hmem.2
            · exact hnodes node hnode

/-- A joined term has in every branch the value of the term that it stands for. -/
def StandsFor (joined term : Option Term) (ν : Valuation) : Prop :=
  ∀ t, joined = some t → ∃ u, term = some u ∧ t.eval ν = u.eval ν

theorem StandsFor.of_agree {joined term : Option Term} (h : StandsFor joined term ν)
    (hjoined : ∀ t, joined = some t → t.Below n) (hterm : ∀ t, term = some t → t.Below n) (hagree : Agree n ν ν') :
    StandsFor joined term ν' := by
  intro t ht
  obtain ⟨u, hu, heq⟩ := h t ht
  exact ⟨u, hu, by rw [(hjoined t ht).eval_eq hagree, (hterm u hu).eval_eq hagree, heq]⟩

theorem joinStep_joinTerms {terms : List (Option Term)} {cs cs' : List IndexedConstraints} {joined : Option Term}
    (h : joinTerms terms cs n = .ok (joined, cs', k)) (hlen : cs.length = terms.length)
    (hbelow : ∀ c ∈ cs, c.edges.Below n) (hterms : ∀ t, some t ∈ terms → t.Below n) :
    JoinStep terms (fun term ν => StandsFor joined term ν) n k cs cs' ∧ ∀ t, joined = some t → t.Below k := by
  unfold joinTerms at h
  cases hall : terms.mapM id with
  | none =>
    rw [hall] at h
    obtain ⟨rfl, rfl, rfl⟩ := ok_triple_inj h
    exact ⟨JoinStep.refl hbelow fun _ _ _ => nofun, nofun⟩
  | some present =>
    rw [hall] at h
    obtain rfl := eq_map_some_of_mapM hall
    have hpresent : ∀ t ∈ present, t.Below n := fun t ht => hterms t (List.mem_map_of_mem ht)
    cases present with
    | nil =>
      obtain ⟨rfl, rfl, rfl⟩ := ok_triple_inj h
      exact ⟨JoinStep.refl hbelow fun _ _ _ => nofun, nofun⟩
    | cons first rest =>
      dsimp only at h
      split at h
      · next hsame =>
        obtain ⟨rfl, rfl, rfl⟩ := ok_triple_inj h
        refine ⟨JoinStep.refl hbelow fun term hterm ν t ht => ?_, fun t ht => ?_⟩
        · obtain rfl := Option.some.inj ht
          obtain ⟨u, hu, rfl⟩ := List.mem_map.1 hterm
          rcases List.mem_cons.1 hu with rfl | hu
          · exact ⟨_, rfl, rfl⟩
          · exact ⟨_, rfl, by rw [hsame u hu]⟩
        · obtain rfl := Option.some.inj ht
          exact hpresent _ List.mem_cons_self
      · cases hrelate : relate (.ident (n + 1) 0) (first :: rest) cs with
        | error refusal =>
          rw [hrelate] at h
          cases h
        | ok related =>
          obtain ⟨related, nodes⟩ := related
          rw [hrelate] at h
          obtain ⟨rfl, rfl, rfl⟩ := ok_triple_inj h
          rw [List.length_map] at hlen
          obtain ⟨hstep, hnodes⟩ := joinStep_relate hrelate hlen hbelow hpresent
          have hfresh : (Term.ident (n + 1) 0).Below (n + 1) := fun identity heq => (Node.ident.inj heq).ge
          have hpairs : ∀ p ∈ (Ascending.ofList (.zero :: nodes)).elements.flatMap fun node =>
              [(Node.ident (n + 1), node), (node, Node.ident (n + 1))], p.1.Below (n + 1) ∧ p.2.Below (n + 1) := by
            intro p hp
            obtain ⟨node, hnode, hor⟩ := List.mem_flatMap.1 hp
            have hnode : node.Below (n + 1) := by
              rcases List.mem_cons.1 (Ascending.mem_ofList.1 hnode) with rfl | hnode
              · exact nofun
              · exact hnodes node hnode
            rcases List.mem_cons.1 hor with rfl | hor
            · exact ⟨hfresh, hnode⟩
            · obtain rfl := List.mem_singleton.1 hor
              exact ⟨hnode, hfresh⟩
          have hjoint := hstep.andThen (joinStep_foldl_pushJoint hstep.below hpairs) fun t ht ν ν' heq hagree => by
            rw [hfresh.eval_eq hagree, heq,
              ((hpresent t ht).mono (Nat.le_succ n)).eval_eq hagree]
          refine ⟨hjoint.of_parts fun i term hterm => ?_, fun t ht => ?_⟩
          · rw [List.getElem?_map] at hterm
            obtain ⟨u, hu, rfl⟩ := Option.map_eq_some_iff.1 hterm
            refine ⟨u, hu, fun ν hQ t ht => ?_⟩
            obtain rfl := Option.some.inj ht
            exact ⟨u, rfl, hQ.1⟩
          · obtain rfl := Option.some.inj ht
            exact hfresh

/-- Branches whose constraints and values mention earlier identities only. -/
structure Branches (first : Operand) (others : List Operand) (n : Identity) (cs : List IndexedConstraints) : Prop where
  length : cs.length = others.length + 1
  below : ∀ c ∈ cs, c.edges.Below n
  first : first.Below n
  others : ∀ value ∈ others, value.Below n

/-- The term that stands for one term of every branch. -/
theorem Branches.joinTerms {first : Operand} {others : List Operand} {cs cs' : List IndexedConstraints}
    {joined : Option Term} (part : Operand → Option Term) (h : Branches first others n cs)
    (hpart : ∀ value, value.Below n → ∀ t, part value = some t → t.Below n)
    (hrun : joinTerms (part first :: others.map part) cs n = .ok (joined, cs', k)) :
    JoinStep (first :: others) (fun value ν => StandsFor joined (part value) ν) n k cs cs' ∧
      ∀ t, joined = some t → t.Below k := by
  have hlen : cs.length = ((first :: others).map part).length := by
    rw [List.length_map, h.length, List.length_cons]
  have hbelow : ∀ t, some t ∈ (first :: others).map part → t.Below n := by
    intro t ht
    obtain ⟨value, hvalue, heq⟩ := List.mem_map.1 ht
    rcases List.mem_cons.1 hvalue with rfl | hvalue
    · exact hpart value h.first t heq
    · exact hpart value (h.others value hvalue) t heq
  have hrun : Relational.joinTerms ((first :: others).map part) cs n = .ok (joined, cs', k) := hrun
  obtain ⟨hstep, hjoined⟩ := joinStep_joinTerms hrun hlen h.below hbelow
  exact ⟨hstep.of_map part, hjoined⟩

theorem Branches.mem_below {first value : Operand} {others : List Operand} {cs : List IndexedConstraints}
    (h : Branches first others n cs) (hvalue : value ∈ first :: others) : value.Below n := by
  rcases List.mem_cons.1 hvalue with rfl | hvalue
  · exact h.first
  · exact h.others value hvalue

theorem Branches.later {A : Type} {values : List A} {Q : A → Valuation → Prop} {first : Operand} {others : List Operand}
    {cs cs' : List IndexedConstraints} (h : Branches first others n cs) (hstep : JoinStep values Q n k cs cs') :
    Branches first others k cs' where
  length := hstep.length.trans h.length
  below := hstep.below
  first := h.first.mono hstep.le
  others value hvalue := (h.others value hvalue).mono hstep.le

/-- Joined fields describe fields of the same names. -/
def DescribesFields (joined : List (String × Operand)) (fields : List (String × Operand)) (ν : Valuation) : Prop :=
  ∀ name part, (name, part) ∈ joined → ∃ other, (name, other) ∈ fields ∧ Describes ν part other

def DescribesPayload (joined : Option Operand) (payload : Option Operand) (ν : Valuation) : Prop :=
  ∀ part, joined = some part → ∃ other, payload = some other ∧ Describes ν part other

theorem DescribesFields.mono {joined fields more : List (String × Operand)} (h : DescribesFields joined fields ν)
    (hsub : fields ⊆ more) : DescribesFields joined more ν := by
  intro name part hp
  obtain ⟨other, hother, hdescribes⟩ := h name part hp
  exact ⟨other, hsub hother, hdescribes⟩

theorem DescribesFields.of_agree {joined fields : List (String × Operand)} (h : DescribesFields joined fields ν)
    (hjoined : ∀ name part, (name, part) ∈ joined → part.Below n)
    (hfields : ∀ name part, (name, part) ∈ fields → part.Below n) (hagree : Agree n ν ν') :
    DescribesFields joined fields ν' := by
  intro name part hp
  obtain ⟨other, hother, hdescribes⟩ := h name part hp
  exact ⟨other, hother, hdescribes.of_agree (hjoined name part hp) (hfields name other hother) hagree⟩

/-- An operand describes a value when its parts do. -/
theorem Describes.of_parts {joined value : Operand} (hscalar : StandsFor joined.scalar value.scalar ν)
    (hlength : StandsFor joined.length value.length ν) (hfields : DescribesFields joined.fields value.fields ν)
    (hconstructor : ∀ name, joined.constructor = some name → value.constructor = some name)
    (hpayload : DescribesPayload joined.payload value.payload ν) : Describes ν joined value := by
  choose! field hfield using hfields
  obtain ⟨inner, hinner⟩ : ∃ inner, ∀ part, joined.payload = some part →
      value.payload = some inner ∧ Describes ν part inner := by
    cases hp : joined.payload with
    | none => exact ⟨value, nofun⟩
    | some part =>
      obtain ⟨inner, hvalue, hdescribes⟩ := hpayload part hp
      refine ⟨inner, fun part' heq => ?_⟩
      obtain rfl := Option.some.inj heq
      exact ⟨hvalue, hdescribes⟩
  exact .intro hscalar hlength (fun name part hp => (hfield name part hp).1)
    (fun name part hp => (hfield name part hp).2)
    hconstructor (fun part hp => (hinner part hp).1) fun part hp => (hinner part hp).2

end Facts

mutual
/-- **The join of values** describes the value of every branch. -/
theorem joinStep_joinValue (first : Operand) (others : List Operand) (cs : List IndexedConstraints) (n : Identity)
    (h : Branches first others n cs) {joined : Operand} {cs' : List IndexedConstraints} {k : Identity}
    (hrun : joinValue first others cs n = .ok (joined, cs', k)) :
    JoinStep (first :: others) (fun value ν => Describes ν joined value) n k cs cs' ∧ joined.Below k := by
  match first with
  | ⟨scalar, length, fields, constructor, payload, alternatives⟩ =>
    rw [joinValue] at hrun
    obtain ⟨⟨scalar', cs₁, n₁⟩, hscalar, hrun⟩ := bind_eq_ok.1 hrun
    obtain ⟨⟨length', cs₂, n₂⟩, hlength, hrun⟩ := bind_eq_ok.1 hrun
    obtain ⟨⟨fields', cs₃, n₃⟩, hfields, hrun⟩ := bind_eq_ok.1 hrun
    obtain ⟨hstep₁, hbelow₁⟩ := h.joinTerms Operand.scalar (fun _ hv => hv.scalar_below) hscalar
    have h₁ := h.later hstep₁
    obtain ⟨hstep₂, hbelow₂⟩ := h₁.joinTerms Operand.length (fun _ hv => hv.length_below) hlength
    have h₂ := h₁.later hstep₂
    obtain ⟨hfields₃, hbelow₃⟩ := joinStep_joinFields fields others cs₂ n₂ h₂.length h₂.below
      (fun name part hp => h₂.first.field_below hp) h₂.others hfields
    have hstep₃ : JoinStep (⟨scalar, length, fields, constructor, payload, alternatives⟩ :: others)
        (fun value ν => DescribesFields fields' value.fields ν) n₂ n₃ cs₂ cs₃ := JoinStep.of_map Operand.fields hfields₃
    have h₃ := h₂.later hstep₃
    have hterms := (hstep₁.andThen hstep₂ fun value hv ν ν' hQ hagree =>
      hQ.of_agree hbelow₁ (h₁.mem_below hv).scalar_below hagree).andThen hstep₃ fun value hv ν ν' hQ hagree => ⟨
        hQ.1.of_agree (fun t ht => (hbelow₁ t ht).mono hstep₂.le) (h₂.mem_below hv).scalar_below hagree,
        hQ.2.of_agree hbelow₂ (h₂.mem_below hv).length_below hagree⟩
    have hscalar₃ : ∀ t, scalar' = some t → t.Below n₃ := fun t ht =>
      (hbelow₁ t ht).mono (hstep₂.le.trans hstep₃.le)
    have hlength₃ : ∀ t, length' = some t → t.Below n₃ := fun t ht => (hbelow₂ t ht).mono hstep₃.le
    dsimp only at hrun
    split at hrun
    · next hsame =>
      obtain ⟨⟨payload', cs₄, n₄⟩, hpayload, hrun⟩ := bind_eq_ok.1 hrun
      obtain ⟨rfl, rfl, rfl⟩ := ok_triple_inj hrun
      obtain ⟨hpayload₄, hbelow₄⟩ := joinStep_joinPayload payload others cs₃ n₃ h₃.length h₃.below
        (fun part hp => h₃.first.payload_below hp) h₃.others hpayload
      have hstep₄ : JoinStep (⟨scalar, length, fields, constructor, payload, alternatives⟩ :: others)
          (fun value ν => DescribesPayload payload' value.payload ν) n₃ n₄ cs₃ cs₄ :=
        JoinStep.of_map Operand.payload hpayload₄
      have hall := hterms.andThen hstep₄ fun value hv ν ν' hQ hagree => ⟨⟨
        hQ.1.1.of_agree hscalar₃ (h₃.mem_below hv).scalar_below hagree,
        hQ.1.2.of_agree hlength₃ (h₃.mem_below hv).length_below hagree⟩,
        hQ.2.of_agree hbelow₃ (fun name part hp => (h₃.mem_below hv).field_below hp) hagree⟩
      refine ⟨hall.imp fun value hv ν hQ => ?_, ?_⟩
      · refine Describes.of_parts hQ.1.1.1 hQ.1.1.2 hQ.1.2 (fun name hname => ?_) hQ.2
        rcases List.mem_cons.1 hv with rfl | hv
        · exact hname
        · exact (hsame.2 value hv).trans hname
      · exact .intro (fun t ht => (hscalar₃ t ht).mono hstep₄.le) (fun t ht => (hlength₃ t ht).mono hstep₄.le)
          (fun name part hp => (hbelow₃ name part hp).mono hstep₄.le) hbelow₄
    · obtain ⟨rfl, rfl, rfl⟩ := ok_triple_inj hrun
      refine ⟨hterms.imp fun value hv ν hQ => ?_, .intro hscalar₃ hlength₃ hbelow₃ nofun⟩
      exact Describes.of_parts hQ.1.1 hQ.1.2 hQ.2 nofun nofun
termination_by structural first
theorem joinStep_joinFields (fields : List (String × Operand)) (others : List Operand) (cs : List IndexedConstraints)
    (n : Identity) (hlen : cs.length = others.length + 1) (hbelow : ∀ c ∈ cs, c.edges.Below n)
    (hfields : ∀ name part, (name, part) ∈ fields → part.Below n) (hothers : ∀ value ∈ others, value.Below n)
    {joined : List (String × Operand)} {cs' : List IndexedConstraints} {k : Identity}
    (hrun : joinFields fields others cs n = .ok (joined, cs', k)) :
    JoinStep (fields :: others.map Operand.fields) (DescribesFields joined) n k cs cs' ∧
      ∀ name part, (name, part) ∈ joined → part.Below k := by
  match fields with
  | [] =>
    rw [joinFields] at hrun
    obtain ⟨rfl, rfl, rfl⟩ := ok_triple_inj hrun
    exact ⟨JoinStep.refl hbelow fun _ _ _ name part hp => absurd hp List.not_mem_nil,
      fun name part hp => absurd hp List.not_mem_nil⟩
  | (name, field) :: rest =>
    have hrest : ∀ label part, (label, part) ∈ rest → part.Below n := fun label part hp =>
      hfields label part (List.mem_cons_of_mem _ hp)
    rw [joinFields] at hrun
    have hskip : ∀ {joined cs cs' n k},
        JoinStep (rest :: others.map Operand.fields) (DescribesFields joined) n k cs cs' →
        JoinStep (((name, field) :: rest) :: others.map Operand.fields) (DescribesFields joined) n k cs cs' := by
      refine fun hstep => hstep.of_parts fun i list hi => ?_
      cases i with
      | zero =>
        obtain rfl := Option.some.inj hi
        exact ⟨rest, rfl, fun ν hQ => hQ.mono (List.subset_cons_self _ _)⟩
      | succ i => exact ⟨list, hi, fun ν hQ => hQ⟩
    cases hprojected : others.mapM fun other => other.fields.lookup name with
    | none =>
      rw [hprojected] at hrun
      obtain ⟨hstep, hjoined⟩ := joinStep_joinFields rest others cs n hlen hbelow hrest hothers hrun
      exact ⟨hskip hstep, hjoined⟩
    | some projected =>
      rw [hprojected] at hrun
      obtain ⟨⟨field', cs₁, n₁⟩, hfield, hrun⟩ := bind_eq_ok.1 hrun
      obtain ⟨⟨rest', cs₂, n₂⟩, hrun', hrun⟩ := bind_eq_ok.1 hrun
      obtain ⟨rfl, rfl, rfl⟩ := ok_triple_inj hrun
      obtain ⟨hlength, hplace⟩ := getElem?_of_mapM hprojected
      have hlooked : ∀ other ∈ others, ∀ part, other.fields.lookup name = some part → part.Below n :=
        fun other hother part hp => (hothers other hother).field_below (Table.mem_of_lookup hp)
      obtain ⟨hstep, hjoined⟩ := joinStep_joinValue field projected cs n
        ⟨by rw [hlen, hlength], hbelow, hfields name field List.mem_cons_self, forall_of_mapM hprojected hlooked⟩ hfield
      obtain ⟨hstep', hjoined'⟩ := joinStep_joinFields rest others cs₁ n₁ (hstep.length.trans hlen) hstep.below
        (fun label part hp => (hrest label part hp).mono hstep.le)
          (fun value hv => (hothers value hv).mono hstep.le) hrun'
      have hlists : ∀ list ∈ ((name, field) :: rest) :: others.map Operand.fields, ∀ label part, (label, part) ∈ list →
          part.Below n := by
        refine List.forall_mem_cons.2 ⟨hfields, List.forall_mem_map.2 fun other hother label part hp => ?_⟩
        exact (hothers other hother).field_below hp
      -- the joined field describes the field of that name in each branch
      have hfirst : JoinStep (((name, field) :: rest) :: others.map Operand.fields)
          (fun list ν => ∃ other, (name, other) ∈ list ∧ Describes ν field' other) n n₁ cs cs₁ := by
        refine hstep.of_parts fun i list hi => ?_
        cases i with
        | zero =>
          obtain rfl := Option.some.inj hi
          exact ⟨field, rfl, fun ν hQ => ⟨field, List.mem_cons_self, hQ⟩⟩
        | succ i =>
          obtain ⟨other, hother, rfl⟩ := Option.map_eq_some_iff.1 (List.getElem?_map.symm.trans hi)
          obtain ⟨part, hpart, hfind⟩ := hplace i other hother
          exact ⟨part, hpart, fun ν hQ => ⟨part, Table.mem_of_lookup hfind, hQ⟩⟩
      refine ⟨(hfirst.andThen (hskip hstep') ?_).imp ?_, ?_⟩
      · rintro list hlist ν ν' ⟨other, hother, hdescribes⟩ hagree
        exact ⟨other, hother, hdescribes.of_agree hjoined ((hlists list hlist name other hother).mono hstep.le) hagree⟩
      · rintro list - ν ⟨hone, hrest⟩ label part hp
        rcases List.mem_cons.1 hp with heq | hp
        · obtain ⟨rfl, rfl⟩ := Prod.mk.inj heq
          exact hone
        · exact hrest label part hp
      · intro label part hp
        rcases List.mem_cons.1 hp with heq | hp
        · obtain ⟨rfl, rfl⟩ := Prod.mk.inj heq
          exact hjoined.mono hstep'.le
        · exact hjoined' label part hp
termination_by structural fields
theorem joinStep_joinPayload (payload : Option Operand) (others : List Operand) (cs : List IndexedConstraints)
    (n : Identity) (hlen : cs.length = others.length + 1) (hbelow : ∀ c ∈ cs, c.edges.Below n)
    (hpayload : ∀ part, payload = some part → part.Below n) (hothers : ∀ value ∈ others, value.Below n)
    {joined : Option Operand} {cs' : List IndexedConstraints} {k : Identity}
    (hrun : joinPayload payload others cs n = .ok (joined, cs', k)) :
    JoinStep (payload :: others.map Operand.payload) (DescribesPayload joined) n k cs cs' ∧
      ∀ part, joined = some part → part.Below k := by
  match payload with
  | none =>
    rw [joinPayload] at hrun
    obtain ⟨rfl, rfl, rfl⟩ := ok_triple_inj hrun
    exact ⟨JoinStep.refl hbelow fun _ _ _ => nofun, nofun⟩
  | some payload =>
    rw [joinPayload] at hrun
    cases hpayloads : others.mapM Operand.payload with
    | none =>
      rw [hpayloads] at hrun
      obtain ⟨rfl, rfl, rfl⟩ := ok_triple_inj hrun
      exact ⟨JoinStep.refl hbelow fun _ _ _ => nofun, nofun⟩
    | some payloads =>
      rw [hpayloads] at hrun
      obtain ⟨⟨payload', cs₁, n₁⟩, hvalue, hrun⟩ := bind_eq_ok.1 hrun
      obtain ⟨rfl, rfl, rfl⟩ := ok_triple_inj hrun
      obtain ⟨hlength, hplace⟩ := getElem?_of_mapM hpayloads
      obtain ⟨hstep, hjoined⟩ := joinStep_joinValue payload payloads cs n
        ⟨by rw [hlen, hlength], hbelow, hpayload payload rfl,
          forall_of_mapM hpayloads fun other hother part hp => (hothers other hother).payload_below hp⟩ hvalue
      refine ⟨hstep.of_parts fun i option hi => ?_, fun part hp => Option.some.inj hp ▸ hjoined⟩
      have hgive : ∀ other, option = some other → ∀ ν, Describes ν payload' other →
          DescribesPayload (some payload') option ν := by
        rintro other rfl ν hdescribes part hp
        obtain rfl := Option.some.inj hp
        exact ⟨other, rfl, hdescribes⟩
      cases i with
      | zero => exact ⟨payload, rfl, hgive payload (Option.some.inj hi).symm⟩
      | succ i =>
        obtain ⟨other, hother, heq⟩ := Option.map_eq_some_iff.1 (List.getElem?_map.symm.trans hi)
        obtain ⟨part, hpart, hfind⟩ := hplace i other hother
        exact ⟨part, hpart, hgive part (heq.symm.trans hfind)⟩
termination_by structural payload
end

mutual
theorem describes_self (ν : Valuation) (value : Operand) : Describes ν value value := by
  match value with
  | ⟨scalar, length, fields, constructor, payload, alternatives⟩ =>
    refine Describes.of_parts (fun t ht => ⟨t, ht, rfl⟩) (fun t ht => ⟨t, ht, rfl⟩) ?_ (fun name hname => hname) ?_
    · intro name part hp
      exact ⟨part, hp, describes_field ν fields name part hp⟩
    · intro part hp
      exact ⟨part, hp, describes_payload ν payload part hp⟩
termination_by structural value
theorem describes_field (ν : Valuation) (fields : List (String × Operand)) (name : String) (part : Operand)
    (h : (name, part) ∈ fields) : Describes ν part part := by
  match fields with
  | [] => exact absurd h List.not_mem_nil
  | (label, field) :: rest =>
    rcases List.mem_cons.1 h with heq | h
    · exact (Prod.mk.inj heq).2 ▸ describes_self ν field
    · exact describes_field ν rest name part h
termination_by structural fields
theorem describes_payload (ν : Valuation) (payload : Option Operand) (part : Operand) (h : payload = some part) :
    Describes ν part part := by
  match payload with
  | none => cases h
  | some inner => exact Option.some.inj h ▸ describes_self ν inner
termination_by structural payload
end

theorem Describes.withAlternatives {ν : Valuation} {joined value : Operand} (h : Describes ν joined value)
    (alternatives : List (Operand × IndexedConstraints)) :
    Describes ν { joined with alternatives := alternatives } value := by
  obtain ⟨scalar, length, present, fields, constructor, filled, payload⟩ := h
  exact .intro scalar length present fields constructor filled payload

theorem satisfies_kept {ν : Valuation} {cs : List IndexedConstraints} {c : IndexedConstraints} (hc : c ∈ cs)
    (hν : Satisfies ν c.edges) :
    Satisfies ν ((cs.headD .empty).edges.filter fun constraint => cs.all fun c => entails [constraint] c.edges) := by
  intro e he
  obtain ⟨-, hall⟩ := List.mem_filter.1 he
  have hentails := entails_sound (List.all_eq_true.1 hall c hc)
  exact hentails ν hν e List.mem_cons_self

section Covers

variable {next next' : Identity} {joined : Outcome}

theorem alternatives_joinValue {first value : Operand} {others : List Operand} {cs cs' : List IndexedConstraints}
    (h : joinValue first others cs next = .ok (value, cs', next')) : value.alternatives = [] := by
  obtain ⟨scalar, length, fields, constructor, payload, alternatives⟩ := first
  rw [joinValue] at h
  obtain ⟨⟨scalar', cs₁, n₁⟩, -, h⟩ := bind_eq_ok.1 h
  obtain ⟨⟨length', cs₂, n₂⟩, -, h⟩ := bind_eq_ok.1 h
  obtain ⟨⟨fields', cs₃, n₃⟩, -, h⟩ := bind_eq_ok.1 h
  dsimp only at h
  split at h
  · obtain ⟨⟨payload', cs₄, n₄⟩, -, h⟩ := bind_eq_ok.1 h
    obtain ⟨rfl, -⟩ := Prod.mk.inj (Except.ok.inj h)
    rfl
  · obtain ⟨rfl, -⟩ := Prod.mk.inj (Except.ok.inj h)
    rfl

theorem branches_of_outcomes {first : Outcome} {others : List Outcome}
    (hconstraints : ∀ outcome ∈ first :: others, outcome.state.constraints.edges.Below next)
    (hvalues : ∀ outcome ∈ first :: others, outcome.value.Below next) :
    Branches first.value (others.map Outcome.value) next
      ((first :: others).map fun outcome => outcome.state.constraints) where
  length := by rw [List.length_map, List.length_map, List.length_cons]
  below := List.forall_mem_map.2 hconstraints
  first := hvalues first List.mem_cons_self
  others := List.forall_mem_map.2 fun outcome houtcome => hvalues outcome (List.mem_cons_of_mem _ houtcome)

theorem join_cases {first second : Outcome} {others : List Outcome}
    (h : join (first :: second :: others) next = .ok (some joined, next')) :
    ∃ value cs, joinValue first.value ((second :: others).map Outcome.value)
        ((first :: second :: others).map fun outcome => outcome.state.constraints) next = .ok (value, cs, next') ∧
      joined.state.constraints.edges =
        (cs.headD .empty).edges.filter (fun constraint => cs.all fun c => entails [constraint] c.edges) ∧
      (joined.value = value ∨
        joined.value = { value with alternatives := ((first :: second :: others).map Outcome.value).zip cs }) := by
  unfold join at h
  obtain ⟨⟨value, cs, n⟩, hvalue, h⟩ := bind_eq_ok.1 h
  obtain ⟨hjoined, rfl⟩ := Prod.mk.inj (Except.ok.inj h)
  obtain rfl := Option.some.inj hjoined
  refine ⟨value, cs, hvalue, ?_, ?_⟩
  · rw [edges_extend]
    exact List.nil_append _
  · dsimp only
    split
    · exact .inl rfl
    · exact .inr rfl

/-- **A join covers its branches.** Every valuation of a branch extends to the fresh identities so that the joined
constraints hold and the joined value describes that of the branch. One of the alternatives of several branches is that
of the branch; a single branch is kept as it is. -/
theorem join_covers {outcomes : List Outcome} (h : join outcomes next = .ok (some joined, next'))
    (hconstraints : ∀ outcome ∈ outcomes, outcome.state.constraints.edges.Below next)
    (hvalues : ∀ outcome ∈ outcomes, outcome.value.Below next) :
    ∀ outcome ∈ outcomes, ∀ ν, Satisfies ν outcome.state.constraints.edges →
      ∃ ν', Agree next ν ν' ∧ Satisfies ν' joined.state.constraints.edges ∧ Describes ν' joined.value outcome.value ∧
        (outcomes = [outcome] → joined = outcome) ∧
        (2 ≤ outcomes.length → joined.value.alternatives ≠ [] →
          ∃ p ∈ joined.value.alternatives, Describes ν' p.1 outcome.value ∧ Satisfies ν' p.2.edges) := by
  intro outcome houtcome ν hν
  match outcomes with
  | [] => exact absurd houtcome List.not_mem_nil
  | [first] =>
    obtain ⟨hjoined, -⟩ := Prod.mk.inj (Except.ok.inj h)
    obtain rfl := Option.some.inj hjoined
    obtain rfl := List.mem_singleton.1 houtcome
    exact ⟨ν, fun _ _ => rfl, hν, describes_self ν _, fun _ => rfl, fun htwo => absurd htwo (Nat.not_succ_le_self 1)⟩
  | first :: second :: others =>
    obtain ⟨value, cs, hvalue, hkept, halternatives⟩ := join_cases h
    obtain ⟨hstep, -⟩ := joinStep_joinValue _ _ _ next (branches_of_outcomes hconstraints hvalues) hvalue
    obtain ⟨i, hi⟩ := List.mem_iff_getElem?.1 houtcome
    have hvaluei : (first.value :: (second :: others).map Outcome.value)[i]? = some outcome.value := by
      rw [← List.map_cons, List.getElem?_map, hi]
      rfl
    have hconstraintsi : ((first :: second :: others).map fun outcome => outcome.state.constraints)[i]? =
        some outcome.state.constraints := by
      rw [List.getElem?_map, hi]
      rfl
    have hlt : i < cs.length := by
      rw [hstep.length]
      exact (List.getElem?_eq_some_iff.1 hconstraintsi).1
    have hci := List.getElem?_eq_getElem hlt
    obtain ⟨ν', hagree, hν', hdescribes⟩ := hstep.follows i _ _ _ hvaluei hconstraintsi hci ν hν
    refine ⟨ν', hagree, ?_, ?_, fun hone => absurd hone (by simp), fun _ hsome => ?_⟩
    · rw [hkept]
      exact satisfies_kept (List.getElem_mem hlt) hν'
    · rcases halternatives with heq | heq
      · rw [heq]
        exact hdescribes
      · rw [heq]
        exact hdescribes.withAlternatives _
    · rcases halternatives with heq | heq
      · rw [heq, alternatives_joinValue hvalue] at hsome
        exact absurd rfl hsome
      · rw [heq]
        refine ⟨(outcome.value, cs[i]), List.mem_iff_getElem?.2 ⟨i, ?_⟩, describes_self ν' _, hν'⟩
        exact List.getElem?_zip_eq_some.2 ⟨hvaluei, hci⟩

end Covers

/-- A branch that gives a literal. -/
def literal (n : ℤ) : Outcome := ⟨⟨some (.literal n), none, [], none, none, []⟩, ⟨[], .empty⟩⟩

/-- What branches that give `1` and `2` join to: a fresh identity between them. -/
def oneOrTwo : Outcome :=
  ⟨⟨some (.ident 1 0), none, [], none, none, []⟩, ⟨[], IndexedConstraints.empty.extend [⟨.zero, .ident 1, -1⟩,
    ⟨.ident 1, .zero, 2⟩, ⟨.zero, .ident 1, -1⟩, ⟨.ident 1, .ident 1, 0⟩, ⟨.ident 1, .ident 1, 0⟩]⟩⟩

theorem join_covers_oneOrTwo :
    ∃ ν', Agree 0 (fun _ => 0) ν' ∧ Satisfies ν' oneOrTwo.state.constraints.edges ∧
      Describes ν' oneOrTwo.value (literal 2).value ∧
      ([literal 1, literal 2] = [literal 2] → oneOrTwo = literal 2) ∧
      (2 ≤ [literal 1, literal 2].length → oneOrTwo.value.alternatives ≠ [] →
        ∃ p ∈ oneOrTwo.value.alternatives, Describes ν' p.1 (literal 2).value ∧ Satisfies ν' p.2.edges) := by
  have hjoin : join [literal 1, literal 2] 0 = .ok (some oneOrTwo, 1) := rfl
  refine join_covers hjoin ?_ ?_ (literal 2) (by simp) (fun _ => 0) ?_
  · intro outcome houtcome e he
    rcases List.mem_cons.1 houtcome with rfl | houtcome
    · cases he
    · obtain rfl := List.mem_singleton.1 houtcome
      cases he
  · intro outcome houtcome
    rcases List.mem_cons.1 houtcome with rfl | houtcome
    · exact .intro (fun t ht => by obtain rfl := Option.some.inj ht; exact nofun) nofun nofun nofun
    · obtain rfl := List.mem_singleton.1 houtcome
      exact .intro (fun t ht => by obtain rfl := Option.some.inj ht; exact nofun) nofun nofun nofun
  · intro e he
    cases he

/-- A branch with a constructor, and a bound of the identity `1`. -/
def constructed (name : String) (bound : Constraint) : Outcome :=
  ⟨⟨none, none, [], some name, none, []⟩, ⟨[], IndexedConstraints.empty.extend [bound]⟩⟩

/-- A branch `#Some` where the identity is at most `0`. -/
def small : Outcome := constructed "Some" ⟨.ident 1, .zero, 0⟩

/-- A branch `#None` where the identity is at least `5`. -/
def large : Outcome := constructed "None" ⟨.zero, .ident 1, -5⟩

def smallOrLarge : Outcome :=
  ⟨⟨none, none, [], none, none, [(small.value, small.state.constraints), (large.value, large.state.constraints)]⟩,
    ⟨[], .empty⟩⟩

/-- The constraints of a single branch need not imply the facts of any of its alternatives: `3` is neither at most `0`
nor at least `5`. -/
theorem join_single_uncovered :
    join [small, large] 1 = .ok (some smallOrLarge, 1) ∧
    join [smallOrLarge] 1 = .ok (some smallOrLarge, 1) ∧
    smallOrLarge.state.constraints.edges.Below 1 ∧ smallOrLarge.value.alternatives ≠ [] ∧
    Satisfies (fun _ => 3) smallOrLarge.state.constraints.edges ∧
    ¬ ∃ ν', Agree 1 (fun _ => 3) ν' ∧
      ∃ p ∈ smallOrLarge.value.alternatives, Describes ν' p.1 smallOrLarge.value ∧ Satisfies ν' p.2.edges := by
  refine ⟨rfl, rfl, nofun, nofun, nofun, ?_⟩
  rintro ⟨ν', hagree, p, hp, -, hfacts⟩
  have hthree : ν' 1 = 3 := hagree 1 le_rfl
  rcases List.mem_cons.1 hp with rfl | hp
  · have hle : ν' 1 - 0 ≤ 0 := hfacts ⟨.ident 1, .zero, 0⟩ List.mem_cons_self
    omega
  · obtain rfl := List.mem_singleton.1 hp
    have hle : 0 - ν' 1 ≤ -5 := hfacts ⟨.zero, .ident 1, -5⟩ List.mem_cons_self
    omega

end Blot.Relational
