import Blot.Operators.Freshness

/-!
# The fold of a long chain against climbing

A chain of many operators of one level that associate to the left is folded to a block of bindings.  Its bindings have
names of their own, and put in place they give the nested applications that climbing makes.
-/

namespace Blot.Operators

open Support Support.Climbing AstArena FixityTable

/-! ### Names -/

theorem intermediate_index {span span' : Span} {index index' : ℕ}
    (h : intermediate span index = intermediate span' index') : index = index' := by
  have hlist := congrArg String.toList h
  simp only [intermediate, String.toList_append, List.append_cancel_left_eq, List.append_assoc] at hlist
  have hdollar : ∀ r : List Char, Closes (fun c => ¬ c.isDigit) ("$".toList ++ r) := fun r =>
    closes_append (s := "$") rfl
  obtain ⟨-, hstop⟩ := nat_unique hlist (hdollar _) (hdollar _)
  obtain ⟨-, hindex⟩ := nat_unique (List.append_cancel_left hstop) (hdollar _) (hdollar _)
  have hlast : (toString index).toList ++ [] = (toString index').toList ++ [] := by
    simpa using List.append_cancel_left hindex
  exact (nat_unique hlast closes_nil closes_nil).1

theorem Numbered.mem {names : List String} {index : ℕ} (h : Numbered index names) {name : String} (hn : name ∈ names) :
    ∃ span later, index ≤ later ∧ name = intermediate span later := by
  induction names generalizing index with
  | nil => cases hn
  | cons first rest ih =>
    obtain ⟨⟨span, hfirst⟩, hrest⟩ := h
    rcases List.mem_cons.mp hn with rfl | hn
    · exact ⟨span, index, Nat.le_refl _, hfirst⟩
    · obtain ⟨span', later, hle, hname⟩ := ih hrest hn
      exact ⟨span', later, Nat.le_of_succ_le hle, hname⟩

theorem Numbered.nodup {names : List String} {index : ℕ} (h : Numbered index names) : names.Nodup := by
  induction names generalizing index with
  | nil => exact List.nodup_nil
  | cons first rest ih =>
    obtain ⟨⟨span, hfirst⟩, hrest⟩ := h
    refine List.nodup_cons.mpr ⟨fun hmem => ?_, ih hrest⟩
    obtain ⟨span', later, hle, hlater⟩ := hrest.mem hmem
    have hsame := intermediate_index (hfirst.symm.trans hlater)
    omega

def boundName (arena : AstArena) (d : DeclarationId) : Option String :=
  match arena.declarations[d]? with
  | some (.binding _ p _) =>
    match arena.patterns[p]? with
    | some (.name name) => some name
    | _ => none
  | _ => none

def boundNames (arena : AstArena) (declarations : List DeclarationId) : List String :=
  declarations.filterMap (boundName arena)

theorem boundNames_of_lets {arena : AstArena} {declarations : List DeclarationId} {names : List String}
    (h : List.Forall₂ (Lets arena) declarations names) : boundNames arena declarations = names := by
  induction h with
  | nil => rfl
  | @cons d name _ _ hlets _ ih =>
    obtain ⟨p, v, hd, hp⟩ := hlets
    have hname : boundName arena d = some name := by simp only [boundName, hd, hp]
    rw [boundNames, List.filterMap_cons_some hname]
    exact congrArg (name :: ·) ih

/-! ### Which chains are flat -/

/-- The operators are known, associate to the left and are of one level. -/
def Flat (table : FixityTable) (steps : List (ChainStep ExpressionId)) (precedence : ℕ) : Prop :=
  ∀ step ∈ steps, ∃ fixity, table.infixes step.operator = some fixity ∧ fixity.associativity = .left ∧
    fixity.precedence = precedence

/-- The chain is folded by the loop for long chains. -/
def TakenFlat (table : FixityTable) (steps : List (ChainStep ExpressionId)) : Prop :=
  maxDirectOperatorChain ≤ steps.length ∧ table.flatLeftChain steps none true = .ok true

variable {table : FixityTable}

theorem flatLeftChain_of_flat {precedence : ℕ} : ∀ {steps : List (ChainStep ExpressionId)},
    Flat table steps precedence → table.flatLeftChain steps (some precedence) true = .ok true
  | [], _ => rfl
  | step :: steps, h => by
    obtain ⟨fixity, hstep, hleft, hprecedence⟩ := h step List.mem_cons_self
    have hrest := flatLeftChain_of_flat fun s hs => h s (List.mem_cons_of_mem _ hs)
    rw [flatLeftChain, lookup, hstep]
    simpa [hleft, hprecedence] using hrest

/-- The loop is taken for the long chains that are flat, and for no others. -/
theorem takenFlat_iff {steps : List (ChainStep ExpressionId)} :
    TakenFlat table steps ↔ maxDirectOperatorChain ≤ steps.length ∧ ∃ precedence, Flat table steps precedence := by
  refine and_congr_right fun hlong => ?_
  cases steps with
  | nil => cases hlong
  | cons step steps =>
    constructor
    · intro h
      rw [flatLeftChain, lookup] at h
      cases hstep : table.infixes step.operator with
      | none =>
        rw [hstep] at h
        cases h
      | some fixity =>
        rw [hstep] at h
        obtain ⟨hleft, hrest⟩ := (flatLeftChain_ok h).2 rfl
        refine ⟨fixity.precedence, fun s hs => ?_⟩
        rcases List.mem_cons.mp hs with rfl | hs
        · exact ⟨fixity, hstep, by simpa using hleft, rfl⟩
        · exact hrest s hs
    · rintro ⟨precedence, h⟩
      obtain ⟨fixity, hstep, hleft, hprecedence⟩ := h step List.mem_cons_self
      have hrest := flatLeftChain_of_flat fun s hs => h s (List.mem_cons_of_mem _ hs)
      rw [flatLeftChain, lookup, hstep]
      simpa [hleft, hprecedence] using hrest

/-! ### The fold -/

/-- The operands of a chain. -/
def Chain.operands (chain : Chain) : List ExpressionId := chain.first :: chain.steps.map (·.right)

/-- What the loop for long chains makes of a chain agrees with what climbing makes of it. -/
structure FlatAgrees (table : FixityTable) (chain : Chain) : Prop where
  /-- The fold is a block of one binding for each step.  Their names are distinct and not free in the operands. -/
  fresh : ∀ id arena, Folds table chain id arena → ∃ declarations result span,
    arena.expressions[id]? = some ⟨.block declarations result, span⟩ ∧
    (boundNames arena declarations).length = chain.steps.length ∧ (boundNames arena declarations).Nodup ∧
    ∀ name ∈ boundNames arena declarations, ∀ operand ∈ chain.operands, ¬ FreeIn arena operand name
  /-- With the bindings put in place it is the tree of climbing. -/
  same : ∃ id arena folded climbed e, Folds table chain id arena ∧
    table.climbChain chain.first chain.steps chain.arena = some (.ok (folded, climbed)) ∧
    chain.reading arena id = some e ∧ chain.reading climbed folded = some e

theorem folds_flat {chain : Chain} (h : TakenFlat table chain.steps) :
    table.foldChain chain.first chain.steps chain.arena =
      some (table.blockChain chain.first chain.steps chain.arena) := by
  rw [foldChain, if_pos h.1, h.2]

/-- What the loop takes, climbing takes, to the same tree. -/
theorem climbs_of_takenFlat {chain : Chain} (h : TakenFlat table chain.steps) :
    ∃ id arena folded climbed e, Folds table chain id arena ∧
      table.climbChain chain.first chain.steps chain.arena = some (.ok (folded, climbed)) ∧
      chain.reading arena id = some e ∧ chain.reading climbed folded = some e := by
  obtain ⟨-, precedence, hflat⟩ := takenFlat_iff.mp h
  obtain ⟨id, arena, hblock, -⟩ := blockChain_reads chain.first_lt chain.steps_given fun step hs => by
    obtain ⟨fixity, hstep, -⟩ := hflat step hs
    rw [hstep]
    rfl
  have hfolds : Folds table chain id arena := (folds_flat h).trans (congrArg some hblock)
  obtain ⟨tree, hclimbs, hread⟩ := climbs_of_folds hfolds
  have hmade : Compiles table _ _ (table.climbChain chain.first chain.steps chain.arena) :=
    climbChain_compiles chain.first_lt chain.steps_given
  rw [show fold _ _ (Source.Expr.operand _ _) (chain.steps.map _) = some (.ok (tree, [])) from hclimbs] at hmade
  obtain ⟨folded, climbed, hclimb, hreads⟩ := hmade
  exact ⟨id, arena, folded, climbed, _, hfolds, hclimb, hread, hreads.read _ (Nat.lt_succ_self _)⟩

/-- **The loop for long chains agrees with climbing**: it takes the chains of many steps that are flat, which climbing
takes too, and what it makes of operands that lowering built is what climbing makes, under fresh names. -/
theorem long_chains_agree (table : FixityTable) (chain : Chain) {es : List ExpressionId} {ds : List DeclarationId}
    (hlowered : Lowered table chain.arena es ds) (hoperands : ∀ operand ∈ chain.operands, operand ∈ es) :
    (TakenFlat table chain.steps ↔
      maxDirectOperatorChain ≤ chain.steps.length ∧ ∃ precedence, Flat table chain.steps precedence) ∧
    (TakenFlat table chain.steps → FlatAgrees table chain) := by
  refine ⟨takenFlat_iff, fun h => ⟨fun id arena hfolds => ?_, climbs_of_takenFlat h⟩⟩
  obtain ⟨names, hscoped, hes, -⟩ := hlowered.scoped
  have hplain : ∀ operand ∈ chain.operands, names[operand]? = some none := fun operand ho =>
    hes operand (hoperands operand ho)
  have hblock : table.blockChain chain.first chain.steps chain.arena = .ok (id, arena) :=
    Option.some.inj ((folds_flat h).symm.trans hfolds)
  obtain ⟨⟨names', hgrown⟩, declarations, result, span, made, hid, hlets, hnumbered, hlength⟩ :=
    scoped_blockChain hscoped (hplain chain.first List.mem_cons_self)
      (fun step hs => hplain step.right (List.mem_cons_of_mem _ (List.mem_map_of_mem hs))) hblock
  have hnames := boundNames_of_lets hlets
  refine ⟨declarations, result, span, hid, ?_, ?_, fun name hname operand ho hfree => ?_⟩
  · rw [hnames, hlength]
  · rw [hnames]
    exact hnumbered.nodup
  · rw [hnames] at hname
    obtain ⟨span', index, -, rfl⟩ := hnumbered.mem hname
    cases (kept hgrown.names (hplain operand ho)).symm.trans (hgrown.fits.free hfree (intermediate_made span' index))

/-- `infixl 30 (+) = f` -/
def plusTable : FixityTable where
  infixes operator := if operator = "+" then some (levelled "+" .left) else none

/-- `() + () + ..` -/
def longChain : Chain where
  arena := ⟨[⟨.unit, ⟨0, 2⟩⟩], [], []⟩
  first := 0
  steps := List.replicate 64 ⟨"+", 0, ⟨2, 7⟩⟩
  first_lt := by decide
  steps_given := by unfold Given; decide

theorem longChain_taken : TakenFlat plusTable longChain.steps := by
  refine takenFlat_iff.mpr ⟨Nat.le_of_eq List.length_replicate.symm, 30, fun step hs => ?_⟩
  rw [List.eq_of_mem_replicate hs]
  exact ⟨levelled "+" .left, rfl, rfl, rfl⟩

theorem longChain_lowered : Lowered plusTable longChain.arena [0] [] :=
  .expression .empty ⟨.unit, ⟨0, 2⟩⟩ ⟨nofun, nofun, nofun⟩

/-- A long chain whose first operand is a long chain, which starts at the same place. -/
theorem nested_long_chains_agree : ∃ (chain : Chain) (declarations : List DeclarationId) (result : ExpressionId)
    (span : Span), chain.arena.expressions[chain.first]? = some ⟨.block declarations result, span⟩ ∧
      FlatAgrees plusTable longChain ∧ FlatAgrees plusTable chain := by
  have hoperands : ∀ operand ∈ longChain.operands, operand ∈ [0] := by
    intro operand ho
    rcases List.mem_cons.mp ho with rfl | ho
    · exact List.mem_cons_self
    · obtain ⟨step, hs, rfl⟩ := List.mem_map.mp ho
      rw [List.eq_of_mem_replicate hs]
      exact List.mem_cons_self
  have hinner := (long_chains_agree plusTable longChain longChain_lowered hoperands).2 longChain_taken
  obtain ⟨id, arena, -, -, -, hfolds, -⟩ := climbs_of_takenFlat longChain_taken
  obtain ⟨declarations, result, span, hid, -⟩ := hinner.fresh id arena hfolds
  have hlt := (List.getElem?_eq_some_iff.mp hid).1
  let chain : Chain := ⟨arena, id, longChain.steps, hlt, fun step hs => by
    rw [List.eq_of_mem_replicate hs]
    exact Nat.zero_lt_of_lt hlt⟩
  have hlowered : Lowered plusTable chain.arena [id, 0] [] :=
    .folded longChain_lowered List.mem_cons_self (fun step hs => by rw [List.eq_of_mem_replicate hs]; simp) hfolds
  refine ⟨chain, declarations, result, span, hid, hinner,
    (long_chains_agree plusTable chain hlowered fun operand ho => ?_).2 longChain_taken⟩
  rcases List.mem_cons.mp ho with rfl | ho
  · exact List.mem_cons_self
  · obtain ⟨step, hs, rfl⟩ := List.mem_map.mp ho
    rw [List.eq_of_mem_replicate hs]
    exact List.mem_cons_of_mem _ List.mem_cons_self

end Blot.Operators
