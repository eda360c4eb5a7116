import Mathlib.Data.List.Forall2
import Blot.Support.Prefix
import Blot.Operators.Declared

/-!
# The names of a long chain

The block of a long chain binds names that folding makes up.  An expression of the arena is given the one such name that
may occur free in it, if any: the applications between two bindings of a chain have the name of the first, and what
lowering uses has none.  So the names of a chain are fresh for its operands, even where these are blocks of chains that
start at the same place.
-/

namespace Blot.Operators

open Support AstArena FixityTable

/-! ### The parts of an expression -/

def parts : ExpressionForm → List ExpressionId
  | .var _ | .int _ | .float _ | .text _ | .unit | .intrinsic _ | .tag _ => []
  | .apply function argument => [function, argument]
  | .field target _ => [target]
  | .lambda _ body _ => [body]
  | .array elements => elements.map (·.value)
  | .tuple elements => elements
  | .shape members => members.flatMap fun
    | .field _ value | .spread value => [value]
    | .computed name value => [name, value]
  | .ifThen branches fallback =>
    (branches.flatMap fun branch => [branch.condition, branch.consequence]) ++ fallback.toList
  | .caseOf target arms => target :: arms.map (·.body)
  | .block _ result => [result]
  | .recLambda lambda => [lambda]

def declared : ExpressionForm → List DeclarationId
  | .block declarations _ => declarations
  | _ => []

def valueOf : Declaration → ExpressionId
  | .signature _ value | .binding _ _ value | .shadow _ value | .opened value => value

def subpatterns : Pattern → List PatternId
  | .tuple elements | .array elements => elements
  | .constructor _ payload => payload.toList
  | .shape fields => fields.map (·.2)
  | _ => []

/-! ### Free names (`collect_free`) -/

section Free

variable (arena : AstArena)

/-- `Within p q`: the pattern `q` is `p` or stands in it. -/
inductive Within : PatternId → PatternId → Prop
  | refl (p : PatternId) : Within p p
  | part {p q r : PatternId} {form : Pattern} (h : arena.patterns[p]? = some form) (hq : q ∈ subpatterns form)
      (hr : Within q r) : Within p r

/-- `pattern_names` -/
def Binds (p : PatternId) (name : String) : Prop := ∃ q, Within arena p q ∧ arena.patterns[q]? = some (.name name)

/-- `pattern_pins` -/
def Pins (p : PatternId) (name : String) : Prop := ∃ q, Within arena p q ∧ arena.patterns[q]? = some (.pin name)

inductive Declares : DeclarationId → String → Prop
  | binding {d : DeclarationId} {kind : DeclarationKind} {pattern : PatternId} {value : ExpressionId} {name : String}
      (h : arena.declarations[d]? = some (.binding kind pattern value)) (hb : Binds arena pattern name) :
      Declares d name
  | shadow {d : DeclarationId} {name : String} {value : ExpressionId}
      (h : arena.declarations[d]? = some (.shadow name value)) : Declares d name

/-- The name occurs free in the expression.  As in `collect_free`, a recursive binding reads the name that it binds. -/
inductive FreeIn : ExpressionId → String → Prop
  | var {id : ExpressionId} {name : String} {span : Span} (h : arena.expressions[id]? = some ⟨.var name, span⟩) :
      FreeIn id name
  | part {id part : ExpressionId} {e : Expression} {name : String} (h : arena.expressions[id]? = some e)
      (hopen : ∀ parameter body deferred, e.form ≠ .lambda parameter body deferred)
      (hcase : ∀ target arms, e.form ≠ .caseOf target arms)
      (hblock : ∀ declarations result, e.form ≠ .block declarations result) (hpart : part ∈ parts e.form)
      (hf : FreeIn part name) : FreeIn id name
  | lambda {id body : ExpressionId} {parameter : PatternId} {deferred : Bool} {span : Span} {name : String}
      (h : arena.expressions[id]? = some ⟨.lambda parameter body deferred, span⟩)
      (hbound : ¬ Binds arena parameter name) (hf : FreeIn body name) : FreeIn id name
  | target {id target : ExpressionId} {arms : List Arm} {span : Span} {name : String}
      (h : arena.expressions[id]? = some ⟨.caseOf target arms, span⟩) (hf : FreeIn target name) : FreeIn id name
  | pin {id target : ExpressionId} {arms : List Arm} {span : Span} {arm : Arm} {name : String}
      (h : arena.expressions[id]? = some ⟨.caseOf target arms, span⟩) (harm : arm ∈ arms)
      (hp : Pins arena arm.pattern name) : FreeIn id name
  | arm {id target : ExpressionId} {arms : List Arm} {span : Span} {arm : Arm} {name : String}
      (h : arena.expressions[id]? = some ⟨.caseOf target arms, span⟩) (harm : arm ∈ arms)
      (hbound : ¬ Binds arena arm.pattern name) (hf : FreeIn arm.body name) : FreeIn id name
  | declaration {id result : ExpressionId} {before after : List DeclarationId} {d : DeclarationId}
      {declaration : Declaration} {span : Span} {name : String}
      (h : arena.expressions[id]? = some ⟨.block (before ++ d :: after) result, span⟩)
      (hd : arena.declarations[d]? = some declaration) (hbound : ∀ b ∈ before, ¬ Declares arena b name)
      (hf : FreeIn (valueOf declaration) name) : FreeIn id name
  | result {id result : ExpressionId} {declarations : List DeclarationId} {span : Span} {name : String}
      (h : arena.expressions[id]? = some ⟨.block declarations result, span⟩)
      (hbound : ∀ b ∈ declarations, ¬ Declares arena b name) (hf : FreeIn result name) : FreeIn id name

end Free

/-! ### What lowering builds -/

/-- The form is of names that lowering may write, over expressions and declarations that it has. -/
structure Written (expressions : List ExpressionId) (declarations : List DeclarationId) (form : ExpressionForm) :
    Prop where
  var : ∀ name, form = .var name → ¬ Intermediate name
  parts : ∀ part ∈ parts form, part ∈ expressions
  declared : ∀ d ∈ declared form, d ∈ declarations

/-- What lowering builds, with the expressions and declarations that it has hold of.  It writes no name that folding
makes up, it gets chains folded, it takes an expression that is no block apart, and it may write over an expression. -/
inductive Lowered (table : FixityTable) : AstArena → List ExpressionId → List DeclarationId → Prop
  | empty : Lowered table ⟨[], [], []⟩ [] []
  | pattern {arena : AstArena} {es : List ExpressionId} {ds : List DeclarationId} (h : Lowered table arena es ds)
      (p : Pattern) (hp : ∀ name, p = .pin name → ¬ Intermediate name) : Lowered table (arena.pattern p).2 es ds
  | declaration {arena : AstArena} {es : List ExpressionId} {ds : List DeclarationId} (h : Lowered table arena es ds)
      (d : Declaration) (hd : valueOf d ∈ es) :
      Lowered table (arena.declaration d).2 es ((arena.declaration d).1 :: ds)
  | expression {arena : AstArena} {es : List ExpressionId} {ds : List DeclarationId} (h : Lowered table arena es ds)
      (e : Expression) (he : Written es ds e.form) :
      Lowered table (arena.expression e).2 ((arena.expression e).1 :: es) ds
  | overwritten {arena : AstArena} {es : List ExpressionId} {ds : List DeclarationId} (h : Lowered table arena es ds)
      {id : ExpressionId} (hid : id ∈ es) (e : Expression) (he : Written es ds e.form) :
      Lowered table { arena with expressions := arena.expressions.set id e } es ds
  | part {arena : AstArena} {es : List ExpressionId} {ds : List DeclarationId} (h : Lowered table arena es ds)
      {id part : ExpressionId} {e : Expression} (hid : id ∈ es) (he : arena.expressions[id]? = some e)
      (hblock : ∀ declarations result, e.form ≠ .block declarations result) (hpart : part ∈ parts e.form) :
      Lowered table arena (part :: es) ds
  | folded {arena arena' : AstArena} {es : List ExpressionId} {ds : List DeclarationId} (h : Lowered table arena es ds)
      {first id : ExpressionId} {steps : List (ChainStep ExpressionId)} (hfirst : first ∈ es)
      (hsteps : ∀ step ∈ steps, step.right ∈ es)
      (hfold : table.foldChain first steps arena = some (.ok (id, arena'))) : Lowered table arena' (id :: es) ds

/-! ### The name that is free in an expression -/

section Scoped

variable {arena arena' : AstArena} {names names' : List (Option String)}

theorem Within.mono (hp : arena.patterns <+: arena'.patterns) {p q : PatternId} (hw : Within arena p q) :
    Within arena' p q := by
  induction hw with
  | refl p => exact .refl p
  | part hform hq _ ih => exact .part (kept hp hform) hq ih

theorem Declares.mono (hp : arena.patterns <+: arena'.patterns) (hd : arena.declarations <+: arena'.declarations)
    {d : DeclarationId} {name : String} (h : Declares arena d name) : Declares arena' d name := by
  cases h with
  | binding h hb =>
    obtain ⟨q, hw, hq⟩ := hb
    exact .binding (kept hd h) ⟨q, hw.mono hp, kept hp hq⟩
  | shadow h => exact .shadow (kept hd h)

/-- Of the names that folding makes up, at most `before` is free in the expression. -/
def May (names : List (Option String)) (before : Option String) (id : ExpressionId) : Prop :=
  names[id]? = some none ∨ names[id]? = some before

theorem May.mono {before : Option String} {id : ExpressionId} (h : names <+: names') (hm : May names before id) :
    May names' before id :=
  hm.imp (kept h) (kept h)

/-- A value of the declarations has at most the name that the declaration before it binds; `before` is the name that
the first may have, and `last` the one that what follows may have. -/
inductive Linked (arena : AstArena) (names : List (Option String)) : Option String → List DeclarationId →
    Option String → Prop
  | nil (last : Option String) : Linked arena names last [] last
  | cons {before next last : Option String} {d : DeclarationId} {ds : List DeclarationId} {declaration : Declaration}
      (hd : arena.declarations[d]? = some declaration) (hm : May names before (valueOf declaration))
      (hnext : ∀ name, next = some name → Declares arena d name) (hds : Linked arena names next ds last) :
      Linked arena names before (d :: ds) last

theorem Linked.mono (hp : arena.patterns <+: arena'.patterns) (hd : arena.declarations <+: arena'.declarations)
    (hnames : names <+: names') {before last : Option String} {ds : List DeclarationId}
    (h : Linked arena names before ds last) : Linked arena' names' before ds last := by
  induction h with
  | nil last => exact .nil last
  | cons h hm hnext _ ih => exact .cons (kept hd h) (hm.mono hnames) (fun name he => (hnext name he).mono hp hd) ih

theorem Linked.append {before middle last : Option String} {ds more : List DeclarationId}
    (h : Linked arena names before ds middle) (h' : Linked arena names middle more last) :
    Linked arena names before (ds ++ more) last := by
  induction h with
  | nil => exact h'
  | cons hd hm hnext _ ih => exact .cons hd hm hnext (ih h')

/-- What a form may be that has the name `mine`. -/
structure Fits (arena : AstArena) (names : List (Option String)) (mine : Option String) (form : ExpressionForm) :
    Prop where
  var : ∀ name, form = .var name → Intermediate name → mine = some name
  parts : (∀ declarations result, form ≠ .block declarations result) → ∀ part ∈ parts form, May names mine part
  block : ∀ declarations result, form = .block declarations result →
    ∃ last, Linked arena names none declarations last ∧ May names last result

theorem Fits.mono (hp : arena.patterns <+: arena'.patterns) (hd : arena.declarations <+: arena'.declarations)
    (hnames : names <+: names') {mine : Option String} {form : ExpressionForm} (h : Fits arena names mine form) :
    Fits arena' names' mine form where
  var := h.var
  parts hblock part hpart := (h.parts hblock part hpart).mono hnames
  block declarations result he := by
    obtain ⟨last, hl, hm⟩ := h.block declarations result he
    exact ⟨last, hl.mono hp hd hnames, hm.mono hnames⟩

/-- Every expression of the arena fits the name that it is given. -/
structure Scoped (arena : AstArena) (names : List (Option String)) : Prop where
  length : names.length = arena.expressions.length
  fits : ∀ (id : ExpressionId) (e : Expression) (mine : Option String), arena.expressions[id]? = some e →
    names[id]? = some mine → Fits arena names mine e.form
  pins : ∀ (q : PatternId) (name : String), arena.patterns[q]? = some (.pin name) → ¬ Intermediate name

theorem Scoped.name_of (h : Scoped arena names) {id : ExpressionId} {e : Expression}
    (he : arena.expressions[id]? = some e) : ∃ mine, names[id]? = some mine := by
  obtain ⟨hlt, -⟩ := List.getElem?_eq_some_iff.mp he
  exact ⟨_, List.getElem?_eq_getElem (h.length ▸ hlt)⟩

theorem Linked.value {before last : Option String} {d : DeclarationId} {earlier later : List DeclarationId}
    {declaration : Declaration} {name : String} (h : Linked arena names before (earlier ++ d :: later) last)
    (hd : arena.declarations[d]? = some declaration) (hbound : ∀ b ∈ earlier, ¬ Declares arena b name)
    (hvalue : names[valueOf declaration]? = some (some name)) : before = some name := by
  induction earlier generalizing before with
  | nil =>
    cases h with
    | cons hd' hm =>
      obtain rfl := Option.some.inj (hd.symm.trans hd')
      rcases hm with hm | hm
      · cases hm.symm.trans hvalue
      · exact Option.some.inj (hm.symm.trans hvalue)
  | cons b earlier ih =>
    cases h with
    | cons hd' hm hnext hds =>
      exact absurd (hnext name (ih hds fun b' hb' => hbound b' (List.mem_cons_of_mem _ hb')))
        (hbound b List.mem_cons_self)

theorem Linked.last {before last : Option String} {ds : List DeclarationId} {name : String}
    (h : Linked arena names before ds last) (hbound : ∀ b ∈ ds, ¬ Declares arena b name) (hlast : last = some name) :
    before = some name := by
  induction h with
  | nil => exact hlast
  | cons hd hm hnext _ ih =>
    have hinner := ih (fun b hb => hbound b (List.mem_cons_of_mem _ hb)) hlast
    exact absurd (hnext name hinner) (hbound _ List.mem_cons_self)

theorem Scoped.part (h : Scoped arena names) {id part : ExpressionId} {e : Expression} {name : String}
    (he : arena.expressions[id]? = some e) (hblock : ∀ declarations result, e.form ≠ .block declarations result)
    (hpart : part ∈ Operators.parts e.form) (hname : names[part]? = some (some name)) :
    names[id]? = some (some name) := by
  obtain ⟨mine, hmine⟩ := h.name_of he
  rcases (h.fits id e mine he hmine).parts hblock part hpart with hm | hm
  · cases hm.symm.trans hname
  · exact hmine.trans (hm.symm.trans hname)

/-- **A name that folding makes up is free only where it is allowed.** -/
theorem Scoped.free (h : Scoped arena names) {id : ExpressionId} {name : String} (hf : FreeIn arena id name)
    (hmade : Intermediate name) : names[id]? = some (some name) := by
  induction hf with
  | var he =>
    obtain ⟨mine, hmine⟩ := h.name_of he
    rw [hmine, (h.fits _ _ mine he hmine).var _ rfl hmade]
  | part he _ _ hblock hp _ ih => exact h.part he hblock hp (ih hmade)
  | lambda he _ _ ih | target he _ ih => exact h.part he (fun _ _ => nofun) List.mem_cons_self (ih hmade)
  | pin _ _ hp =>
    obtain ⟨q, -, hq⟩ := hp
    exact absurd hmade (h.pins q _ hq)
  | arm he harm _ _ ih =>
    exact h.part he (fun _ _ => nofun) (List.mem_cons_of_mem _ (List.mem_map_of_mem harm)) (ih hmade)
  | declaration he hd hbound _ ih =>
    obtain ⟨mine, hmine⟩ := h.name_of he
    obtain ⟨last, hl, -⟩ := (h.fits _ _ mine he hmine).block _ _ rfl
    cases hl.value hd hbound (ih hmade)
  | result he hbound _ ih =>
    obtain ⟨mine, hmine⟩ := h.name_of he
    obtain ⟨last, hl, hm⟩ := (h.fits _ _ mine he hmine).block _ _ rfl
    rcases hm with hm | hm
    · cases hm.symm.trans (ih hmade)
    · cases hl.last hbound (Option.some.inj (hm.symm.trans (ih hmade)))

/-! ### What folding and lowering keep -/

/-- The arena is grown to one that fits too, where the expression has the name `mine`. -/
structure Grown (arena : AstArena) (names : List (Option String)) (arena' : AstArena) (names' : List (Option String))
    (id : ExpressionId) (mine : Option String) : Prop where
  kept : Extends arena arena'
  names : names <+: names'
  fits : Scoped arena' names'
  name : names'[id]? = some mine

theorem Grown.refl (h : Scoped arena names) {id : ExpressionId} {mine : Option String}
    (hid : names[id]? = some mine) : Grown arena names arena names id mine :=
  ⟨Extends.refl arena, List.prefix_rfl, h, hid⟩

theorem Grown.after {arena₁ : AstArena} {names₁ : List (Option String)} {id id₁ : ExpressionId}
    {mine mine₁ : Option String} (h : Grown arena names arena₁ names₁ id₁ mine₁)
    (h' : Grown arena₁ names₁ arena' names' id mine) : Grown arena names arena' names' id mine :=
  ⟨h.kept.trans h'.kept, h.names.trans h'.names, h'.fits, h'.name⟩

theorem Scoped.expression (h : Scoped arena names) {e : Expression} {mine : Option String}
    (hf : Fits arena names mine e.form) :
    Grown arena names (arena.expression e).2 (names ++ [mine]) (arena.expression e).1 mine := by
  have hext := extends_expression arena e
  have hnames : names <+: names ++ [mine] := List.prefix_append _ _
  have hlast : (names ++ [mine])[arena.expressions.length]? = some mine := by
    rw [← h.length]
    exact List.getElem?_concat_length
  refine ⟨hext, hnames, ⟨?_, fun id e' mine' he hmine => ?_, h.pins⟩, hlast⟩
  · simp [AstArena.expression, h.length]
  · rcases Nat.lt_trichotomy id arena.expressions.length with hlt | rfl | hgt
    · have hid := List.getElem?_eq_getElem hlt
      have hname := List.getElem?_eq_getElem (h.length ▸ hlt)
      obtain rfl := Option.some.inj ((kept hext.expressions hid).symm.trans he)
      obtain rfl := Option.some.inj ((kept hnames hname).symm.trans hmine)
      exact (h.fits id _ _ hid hname).mono hext.patterns hext.declarations hnames
    · obtain rfl := Option.some.inj ((expression_getElem? arena e).symm.trans he)
      obtain rfl := Option.some.inj (hlast.symm.trans hmine)
      exact hf.mono hext.patterns hext.declarations hnames
    · have hlt := (List.getElem?_eq_some_iff.mp he).1
      simp only [AstArena.expression, List.length_append, List.length_singleton] at hlt
      omega

theorem Scoped.pattern (h : Scoped arena names) {p : Pattern} (hp : ∀ name, p = .pin name → ¬ Intermediate name) :
    Scoped (arena.pattern p).2 names where
  length := h.length
  fits id e mine he hmine := (h.fits id e mine he hmine).mono (extends_pattern arena p).patterns List.prefix_rfl
    List.prefix_rfl
  pins q name hq := by
    rcases Nat.lt_or_ge q arena.patterns.length with hlt | hge
    · exact h.pins q name ((List.getElem?_append_left hlt).symm.trans hq)
    · have hlast := (List.getElem?_append_right hge).symm.trans hq
      exact hp name (List.mem_singleton.mp (List.mem_of_getElem? hlast)).symm

theorem Scoped.declaration (h : Scoped arena names) (d : Declaration) : Scoped (arena.declaration d).2 names where
  length := h.length
  fits id e mine he hmine := (h.fits id e mine he hmine).mono (extends_declaration arena d).patterns
    (extends_declaration arena d).declarations List.prefix_rfl
  pins := h.pins

theorem fits_apply {function argument : ExpressionId} {mine : Option String} (hf : May names mine function)
    (ha : May names mine argument) : Fits arena names mine (.apply function argument) where
  var name he := nomatch he
  parts _ part hpart := by
    rcases List.mem_cons.mp hpart with rfl | hpart
    · exact hf
    · obtain rfl := List.mem_singleton.mp hpart
      exact ha
  block _ _ he := nomatch he

theorem fits_field {target : ExpressionId} (name : String) (h : names[target]? = some none) :
    Fits arena names none (.field target name) where
  var name he := nomatch he
  parts _ part hpart := by
    obtain rfl := List.mem_singleton.mp hpart
    exact .inl h
  block _ _ he := nomatch he

theorem scoped_path (span : Span) : ∀ (path : List String) {arena : AstArena} {names : List (Option String)}
    {id : ExpressionId}, Scoped arena names → names[id]? = some none → ∃ id' arena' names',
    path.foldl (fun (result, arena) name => arena.expression ⟨.field result name, span⟩) (id, arena) = (id', arena') ∧
      Grown arena names arena' names' id' none
  | [], arena, names, id, h, hid => ⟨id, arena, names, rfl, .refl h hid⟩
  | name :: path, arena, names, id, h, hid => by
    have hgrown := h.expression (e := ⟨.field id name, span⟩) (fits_field name hid)
    obtain ⟨id', arena', names', hfold, hgrown'⟩ := scoped_path span path hgrown.fits hgrown.name
    exact ⟨id', arena', names', hfold, hgrown.after hgrown'⟩

theorem scoped_target (h : Scoped arena names) (fixity : Fixity) (span : Span) : ∃ id arena' names',
    targetExpression fixity span arena = .ok (id, arena') ∧ Grown arena names arena' names' id none := by
  obtain ⟨root, path, htarget, hroot⟩ := fixity.named
  have hfits : Fits arena names none
      (if root.toList.head? = some '@' then ExpressionForm.intrinsic root else .var root) := by
    split
    · exact ⟨nofun, fun _ _ hpart => (nomatch hpart), nofun⟩
    · refine ⟨fun name he hmade => ?_, fun _ _ hpart => (nomatch hpart), nofun⟩
      obtain rfl := ExpressionForm.var.inj he
      exact absurd hmade hroot
  have hgrown := h.expression (e := ⟨_, span⟩) hfits
  obtain ⟨id, arena', names', hfold, hgrown'⟩ := scoped_path span path hgrown.fits hgrown.name
  refine ⟨id, arena', names', ?_, hgrown.after hgrown'⟩
  unfold targetExpression
  rw [htarget]
  exact congrArg _ hfold

/-- The declaration is a `let` of the name. -/
def Lets (arena : AstArena) (d : DeclarationId) (name : String) : Prop :=
  ∃ p v, arena.declarations[d]? = some (.binding .let p v) ∧ arena.patterns[p]? = some (.name name)

/-- The application of an operator has the name that its left operand has. -/
theorem scoped_applied (h : Scoped arena names) (fixity : Fixity) (step : ChainStep ExpressionId)
    {result right : ExpressionId} {mine : Option String} (hresult : names[result]? = some mine)
    (hright : names[right]? = some none) : ∃ value span arena' names',
    applied fixity step result right arena = .ok (value, span, arena') ∧
      Grown arena names arena' names' value mine := by
  let span : Span := ⟨(arena.expressionSpan result).start, (arena.expressionSpan right).stop⟩
  obtain ⟨callee, arena₁, names₁, htarget, hgrown₁⟩ := scoped_target h fixity step.span
  have hgrown₂ := hgrown₁.fits.expression
    (e := ⟨.apply callee result, span⟩)
    (fits_apply (.inl hgrown₁.name) (.inr (kept hgrown₁.names hresult)))
  have hgrown₃ := hgrown₂.fits.expression
    (e := ⟨.apply arena₁.expressions.length right, span⟩)
    (fits_apply (.inr hgrown₂.name) (.inl (kept hgrown₂.names (kept hgrown₁.names hright))))
  refine ⟨_, span, _, _, ?_, (hgrown₁.after hgrown₂).after hgrown₃⟩
  unfold applied
  simp only [htarget]
  rfl

theorem scoped_bind (h : Scoped arena names) {value result : ExpressionId} {d : DeclarationId} {mine : Option String}
    (hvalue : names[value]? = some mine) {span : Span} {index : ℕ}
    (hbind : bindIntermediate value span index arena = (result, d, arena')) :
    ∃ names', Grown arena names arena' names' result (some (intermediate span index)) ∧
      Linked arena' names' mine [d] (some (intermediate span index)) ∧ Lets arena' d (intermediate span index) := by
  have h₁ : Scoped (arena.pattern (.name (intermediate span index))).2 names := h.pattern nofun
  have h₂ := h₁.declaration (.binding .let arena.patterns.length value)
  have hfits : Fits ((arena.pattern (.name (intermediate span index))).2.declaration
      (.binding .let arena.patterns.length value)).2 names (some (intermediate span index))
      (.var (intermediate span index)) :=
    ⟨fun name he _ => congrArg some (ExpressionForm.var.inj he), fun _ _ hpart => (nomatch hpart), nofun⟩
  have hgrown := h₂.expression (e := ⟨.var (intermediate span index), span⟩) hfits
  have hext := (extends_pattern arena (.name (intermediate span index))).trans
    ((extends_declaration _ (.binding .let arena.patterns.length value)).trans hgrown.kept)
  cases hbind
  have hd : (((arena.pattern (.name (intermediate span index))).2.declaration
      (.binding .let arena.patterns.length value)).2.expression
        ⟨.var (intermediate span index), span⟩).2.declarations[arena.declarations.length]? =
      some (.binding .let arena.patterns.length value) := by
    simp [AstArena.expression, AstArena.declaration, AstArena.pattern]
  have hp : (((arena.pattern (.name (intermediate span index))).2.declaration
      (.binding .let arena.patterns.length value)).2.expression
        ⟨.var (intermediate span index), span⟩).2.patterns[arena.patterns.length]? =
      some (.name (intermediate span index)) := by
    simp [AstArena.expression, AstArena.declaration, AstArena.pattern]
  refine ⟨_, ⟨hext, hgrown.names, hgrown.fits, hgrown.name⟩, ?_, _, _, hd, hp⟩
  refine .cons hd (.inr (kept hgrown.names hvalue)) (fun name he => ?_) (.nil _)
  obtain rfl := Option.some.inj he
  exact .binding hd ⟨_, .refl _, hp⟩

/-- The operands have no name that folding makes up. -/
def Plainly (names : List (Option String)) (steps : List (ChainStep ExpressionId)) : Prop :=
  ∀ step ∈ steps, names[step.right]? = some none

theorem Plainly.mono {steps left : List (ChainStep ExpressionId)} (h : Plainly names steps) (hnames : names <+: names')
    (hleft : left <:+ steps) : Plainly names' left :=
  fun step hs => kept hnames (h step (hleft.subset hs))

/-- The names are those of results from `index` on. -/
def Numbered : ℕ → List String → Prop
  | _, [] => True
  | index, name :: rest => (∃ span, name = intermediate span index) ∧ Numbered (index + 1) rest

theorem Lets.mono (h : Extends arena arena') {d : DeclarationId} {name : String} (hl : Lets arena d name) :
    Lets arena' d name := by
  obtain ⟨p, v, hd, hp⟩ := hl
  exact ⟨p, v, kept h.declarations hd, kept h.patterns hp⟩

variable {table : FixityTable}

/-- **The loop over a long chain** keeps what every expression has, and binds names of its own. -/
theorem scoped_bindChain : ∀ {steps : List (ChainStep ExpressionId)} (index : ℕ) {arena arena' : AstArena}
    {names : List (Option String)} {result result' : ExpressionId} {ds ds' : List DeclarationId}
    {mine : Option String}, Scoped arena names → names[result]? = some mine → Linked arena names none ds mine →
    Plainly names steps → table.bindChain steps index result ds arena = .ok (result', ds', arena') →
    ∃ names' mine' more made, Grown arena names arena' names' result' mine' ∧ Linked arena' names' none ds' mine' ∧
      ds' = ds ++ more ∧ List.Forall₂ (Lets arena') more made ∧ Numbered index made ∧ made.length = steps.length
  | [], _, arena, arena', names, result, result', ds, ds', mine, h, hr, hl, _, hfold => by
    cases hfold
    exact ⟨names, mine, [], [], .refl h hr, hl, (List.append_nil _).symm, .nil, trivial, rfl⟩
  | step :: steps, index, arena, arena', names, result, result', ds, ds', mine, h, hr, hl, hsteps, hfold => by
    rw [bindChain] at hfold
    cases hstep : table.lookup step with
    | error e =>
      rw [hstep] at hfold
      cases hfold
    | ok fixity =>
      obtain ⟨value, span, arena₁, names₁, happlied, hgrown₁⟩ :=
        scoped_applied h fixity step hr (hsteps step List.mem_cons_self)
      simp only [hstep, happlied] at hfold
      obtain ⟨names₂, hgrown₂, hlinked, hlets⟩ := scoped_bind hgrown₁.fits hgrown₁.name
        (show bindIntermediate value span index arena₁ = _ from rfl)
      have hgrown := hgrown₁.after hgrown₂
      have hl₂ := (hl.mono hgrown.kept.patterns hgrown.kept.declarations hgrown.names).append hlinked
      have hsteps₂ : Plainly names₂ steps := hsteps.mono hgrown.names (List.suffix_cons step steps)
      obtain ⟨names', mine', more, made, hgrown', hl', hmore, hmade, hnumbered, hlength⟩ :=
        scoped_bindChain (index + 1) hgrown₂.fits hgrown₂.name hl₂ hsteps₂ hfold
      exact ⟨names', mine', _ :: more, _ :: made, hgrown.after hgrown', hl', by rw [hmore, List.append_assoc]; rfl,
        .cons (hlets.mono hgrown'.kept) hmade, ⟨⟨span, rfl⟩, hnumbered⟩, congrArg (· + 1) hlength⟩

/-- **The direct fold** gives its result no name. -/
theorem scoped_climb (table : FixityTable) : ∀ fuel : ℕ,
    (∀ {arena arena' : AstArena} {names : List (Option String)} {result id : ExpressionId}
      {steps left : List (ChainStep ExpressionId)} {minimum : ℕ}, Scoped arena names → names[result]? = some none →
      Plainly names steps → table.climb fuel result steps minimum arena = some (.ok (id, left, arena')) →
      left <:+ steps ∧ ∃ names', Grown arena names arena' names' id none) ∧
    (∀ {fixity : Fixity} {arena arena' : AstArena} {names : List (Option String)} {right id : ExpressionId}
      {steps left : List (ChainStep ExpressionId)}, Scoped arena names → names[right]? = some none →
      Plainly names steps → table.climbRight fuel fixity right steps arena = some (.ok (id, left, arena')) →
      left <:+ steps ∧ ∃ names', Grown arena names arena' names' id none)
  | 0 => by
    refine ⟨fun _ _ _ h => ?_, fun _ _ _ h => ?_⟩
    · rw [climb] at h
      cases h
    · rw [climbRight] at h
      cases h
  | fuel + 1 => by
    obtain ⟨ihClimb, ihRight⟩ := scoped_climb table fuel
    refine ⟨?_, ?_⟩
    · intro arena arena' names result id steps left minimum hs hresult hsteps h
      cases steps with
      | nil =>
        rw [climb] at h
        cases h
        exact ⟨List.suffix_rfl, names, .refl hs hresult⟩
      | cons step steps =>
        rw [climb] at h
        split at h
        · cases h
        · rename_i fixity hlookup
          split at h
          · cases h
            exact ⟨List.suffix_rfl, names, .refl hs hresult⟩
          · split at h
            · cases h
            · cases h
            · rename_i right rest arena₁ hright
              have hrest : Plainly names steps := hsteps.mono List.prefix_rfl (List.suffix_cons step steps)
              obtain ⟨hsuffix, names₁, hgrown₁⟩ := ihRight hs (hsteps step List.mem_cons_self) hrest hright
              obtain ⟨value, span, arena₂, names₂, happlied, hgrown₂⟩ :=
                scoped_applied hgrown₁.fits fixity step (kept hgrown₁.names hresult) hgrown₁.name
              split at h
              · cases h
              · rw [happlied] at h
                have hgrown := hgrown₁.after hgrown₂
                obtain ⟨hsuffix', names', hgrown'⟩ :=
                  ihClimb hgrown₂.fits hgrown₂.name (hrest.mono hgrown.names hsuffix) h
                exact ⟨(hsuffix'.trans hsuffix).trans (List.suffix_cons step steps), names', hgrown.after hgrown'⟩
    · intro fixity arena arena' names right id steps left hs hright hsteps h
      cases steps with
      | nil =>
        rw [climbRight] at h
        cases h
        exact ⟨List.suffix_rfl, names, .refl hs hright⟩
      | cons following steps =>
        rw [climbRight] at h
        split at h
        · cases h
        · split at h
          · split at h
            · cases h
            · cases h
            · rename_i right' rest arena₁ hclimb
              obtain ⟨hsuffix, names₁, hgrown₁⟩ := ihClimb hs hright hsteps hclimb
              obtain ⟨hsuffix', names', hgrown'⟩ :=
                ihRight hgrown₁.fits hgrown₁.name (hsteps.mono hgrown₁.names hsuffix) h
              exact ⟨hsuffix'.trans hsuffix, names', hgrown₁.after hgrown'⟩
          · cases h
            exact ⟨List.suffix_rfl, names, .refl hs hright⟩

section Chains

variable (h : Scoped arena names) {first id : ExpressionId} {steps : List (ChainStep ExpressionId)}
  (hfirst : names[first]? = some none) (hsteps : Plainly names steps)

include h hfirst hsteps

theorem scoped_blockChain (hfold : table.blockChain first steps arena = .ok (id, arena')) :
    (∃ names', Grown arena names arena' names' id none) ∧ ∃ ds result span made,
      arena'.expressions[id]? = some ⟨.block ds result, span⟩ ∧ List.Forall₂ (Lets arena') ds made ∧
      Numbered 0 made ∧ made.length = steps.length := by
  rw [blockChain] at hfold
  split at hfold
  · cases hfold
  · rename_i result ds arena₁ hbind
    obtain ⟨names₁, mine, more, made, hgrown₁, hl, rfl, hmade, hnumbered, hlength⟩ :=
      scoped_bindChain 0 h hfirst (.nil none) hsteps hbind
    have hfits : Fits arena₁ names₁ none (.block ds result) :=
      ⟨by simp, fun hblock => absurd rfl (hblock _ _), fun ds' result' he => by
        cases he
        exact ⟨mine, hl, .inr hgrown₁.name⟩⟩
    have hgrown := hgrown₁.fits.expression
      (e := ⟨.block ds result, ⟨(arena₁.expressionSpan first).start, (arena₁.expressionSpan result).stop⟩⟩) hfits
    cases hfold
    refine ⟨⟨_, hgrown₁.after hgrown⟩, ds, result, _, made, expression_getElem? arena₁ _, ?_, hnumbered, hlength⟩
    exact hmade.imp fun _ _ hlets => hlets.mono hgrown.kept

theorem scoped_climbChain (hfold : table.climbChain first steps arena = some (.ok (id, arena'))) :
    ∃ names', Grown arena names arena' names' id none := by
  rw [climbChain] at hfold
  split at hfold
  · cases hfold
  · cases hfold
  · cases hfold
  · rename_i folded arena₁ hclimb
    cases hfold
    exact ((scoped_climb table _).1 h hfirst hsteps hclimb).2

/-- **Folding** gives its result no name. -/
theorem scoped_foldChain (hfold : table.foldChain first steps arena = some (.ok (id, arena'))) :
    ∃ names', Grown arena names arena' names' id none := by
  rw [foldChain] at hfold
  split at hfold
  · split at hfold
    · cases hfold
    · exact (scoped_blockChain h hfirst hsteps (Option.some.inj hfold)).1
    · exact scoped_climbChain h hfirst hsteps hfold
  · exact scoped_climbChain h hfirst hsteps hfold

end Chains

theorem Written.fits {es : List ExpressionId} {ds : List DeclarationId} {form : ExpressionForm}
    (h : Written es ds form) (hes : ∀ id ∈ es, names[id]? = some none)
    (hds : ∀ d ∈ ds, ∃ declaration, arena.declarations[d]? = some declaration ∧
      names[valueOf declaration]? = some none) : Fits arena names none form where
  var name he hmade := absurd hmade (h.var name he)
  parts _ part hpart := .inl (hes part (h.parts part hpart))
  block declarations result he := by
    subst he
    refine ⟨none, ?_, .inl (hes result (h.parts result List.mem_cons_self))⟩
    have hlinked : ∀ {more : List DeclarationId}, (∀ d ∈ more, d ∈ ds) → Linked arena names none more none := by
      intro more hmore
      induction more with
      | nil => exact .nil none
      | cons d more ih =>
        obtain ⟨declaration, hd, hvalue⟩ := hds d (hmore d List.mem_cons_self)
        exact .cons hd (.inl hvalue) (fun _ (he : none = some _) => nomatch he)
          (ih fun b hb => hmore b (List.mem_cons_of_mem _ hb))
    exact hlinked h.declared

/-- **Lowering gives what it uses no name that folding makes up.** -/
theorem Lowered.scoped {es : List ExpressionId} {ds : List DeclarationId} (h : Lowered table arena es ds) :
    ∃ names, Scoped arena names ∧ (∀ id ∈ es, names[id]? = some none) ∧
      ∀ d ∈ ds, ∃ declaration, arena.declarations[d]? = some declaration ∧
        names[valueOf declaration]? = some none := by
  induction h with
  | empty => exact ⟨[], ⟨rfl, nofun, nofun⟩, nofun, nofun⟩
  | pattern _ p hp ih =>
    obtain ⟨names, hs, hes, hds⟩ := ih
    exact ⟨names, hs.pattern hp, hes, hds⟩
  | @declaration arena es ds _ d hd ih =>
    obtain ⟨names, hs, hes, hds⟩ := ih
    refine ⟨names, hs.declaration d, hes, fun b hb => ?_⟩
    rcases List.mem_cons.mp hb with rfl | hb
    · exact ⟨d, List.getElem?_concat_length, hes _ hd⟩
    · obtain ⟨declaration, hb, hvalue⟩ := hds b hb
      exact ⟨declaration, kept (extends_declaration arena d).declarations hb, hvalue⟩
  | expression _ e he ih =>
    obtain ⟨names, hs, hes, hds⟩ := ih
    have hgrown := hs.expression (he.fits hes hds)
    refine ⟨_, hgrown.fits, fun id hid => ?_, fun d hd => ?_⟩
    · rcases List.mem_cons.mp hid with rfl | hid
      · exact hgrown.name
      · exact kept hgrown.names (hes id hid)
    · obtain ⟨declaration, hd, hvalue⟩ := hds d hd
      exact ⟨declaration, hd, kept hgrown.names hvalue⟩
  | @overwritten arena es ds _ id hid e he ih =>
    obtain ⟨names, hs, hes, hds⟩ := ih
    refine ⟨names, ⟨by simp [hs.length], fun id' e' mine he' hmine => ?_, hs.pins⟩, hes, hds⟩
    by_cases hsame : id' = id
    · subst hsame
      obtain rfl := Option.some.inj ((hes id' hid).symm.trans hmine)
      rw [List.getElem?_set_self (hs.length ▸ (List.getElem?_eq_some_iff.mp hmine).1)] at he'
      obtain rfl := Option.some.inj he'
      exact he.fits hes hds
    · rw [List.getElem?_set_ne (Ne.symm hsame)] at he'
      refine Fits.mono ?_ ?_ List.prefix_rfl (hs.fits id' e' mine he' hmine)
      · exact List.prefix_rfl
      · exact List.prefix_rfl
  | @part arena es ds _ id part e hid he hblock hpart ih =>
    obtain ⟨names, hs, hes, hds⟩ := ih
    refine ⟨names, hs, fun id' hid' => ?_, hds⟩
    rcases List.mem_cons.mp hid' with rfl | hid'
    · rcases (hs.fits id e none he (hes id hid)).parts hblock id' hpart with hm | hm
      · exact hm
      · exact hm
    · exact hes id' hid'
  | folded _ hfirst hsteps hfold ih =>
    obtain ⟨names, hs, hes, hds⟩ := ih
    obtain ⟨names', hgrown⟩ := scoped_foldChain hs (hes _ hfirst) (fun step hs => hes _ (hsteps step hs)) hfold
    refine ⟨names', hgrown.fits, fun id hid => ?_, fun d hd => ?_⟩
    · rcases List.mem_cons.mp hid with rfl | hid
      · exact hgrown.name
      · exact kept hgrown.names (hes id hid)
    · obtain ⟨declaration, hd, hvalue⟩ := hds d hd
      exact ⟨declaration, kept hgrown.kept.declarations hd, kept hgrown.names hvalue⟩

end Scoped

end Blot.Operators
