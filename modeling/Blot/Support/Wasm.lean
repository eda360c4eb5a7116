import Mathlib.Algebra.Order.Ring.Nat

/-!
# A fragment of WebAssembly

Functions of one `i32` result over `i32` locals, loads of bytes and structured control without block results.

* `Instruction`, `Code` — the instructions of a body as they are listed, and as they nest;
* `decode_encode` — a listed body nests in one way;
* `exec`, `invoke` — the meaning of a body, and of a call; the addresses that are read are recorded;
* `Runs` — a run comes to an end, reads inside a set of addresses, and satisfies a condition: a rule for each
  instruction, and `runs_loop` for loops with a measure.
-/

namespace Blot.Support.Wasm

/-! ### Instructions -/

/-- An instruction without control. -/
inductive Op where
  | localGet (index : ℕ)
  | localSet (index : ℕ)
  | i32Const (value : UInt32)
  | i32Eqz
  | i32Add
  | i32Sub
  | i32Eq
  | i32Ne
  | i32LtU
  | i32GtU
  | i32LeU
  | i32GeU
  | i32Load8U (offset : ℕ)
  | select

/-- An instruction of a body as it is listed. -/
inductive Instruction where
  | op (op : Op)
  | block
  | loop_
  | if_
  | else_
  | end_
  | br (depth : ℕ)
  | brIf (depth : ℕ)
  | return_

namespace Instruction

abbrev localGet (index : ℕ) : Instruction := .op (.localGet index)
abbrev localSet (index : ℕ) : Instruction := .op (.localSet index)
abbrev i32Const (value : UInt32) : Instruction := .op (.i32Const value)
abbrev i32Eqz : Instruction := .op .i32Eqz
abbrev i32Add : Instruction := .op .i32Add
abbrev i32Sub : Instruction := .op .i32Sub
abbrev i32Eq : Instruction := .op .i32Eq
abbrev i32Ne : Instruction := .op .i32Ne
abbrev i32LtU : Instruction := .op .i32LtU
abbrev i32GtU : Instruction := .op .i32GtU
abbrev i32LeU : Instruction := .op .i32LeU
abbrev i32GeU : Instruction := .op .i32GeU
abbrev i32Load8U (offset : ℕ) : Instruction := .op (.i32Load8U offset)
abbrev select : Instruction := .op .select

end Instruction

inductive Code where
  | done
  | op (op : Op) (rest : Code)
  | block (body rest : Code)
  | loop (body rest : Code)
  | ifThen (yes rest : Code)
  | ifElse (yes no rest : Code)
  | br (depth : ℕ) (rest : Code)
  | brIf (depth : ℕ) (rest : Code)
  | ret (rest : Code)

namespace Code

def ops (list : List Op) (rest : Code) : Code := list.foldr .op rest

/-- The instructions of a body, without the last `end`. -/
def encode : Code → List Instruction
  | .done => []
  | .op step rest => .op step :: encode rest
  | .block body rest => .block :: encode body ++ .end_ :: encode rest
  | .loop body rest => .loop_ :: encode body ++ .end_ :: encode rest
  | .ifThen yes rest => .if_ :: encode yes ++ .end_ :: encode rest
  | .ifElse yes no rest => .if_ :: encode yes ++ .else_ :: encode no ++ .end_ :: encode rest
  | .br depth rest => .br depth :: encode rest
  | .brIf depth rest => .brIf depth :: encode rest
  | .ret rest => .return_ :: encode rest

def append : Code → Code → Code
  | .done, tail => tail
  | .op step rest, tail => .op step (append rest tail)
  | .block body rest, tail => .block body (append rest tail)
  | .loop body rest, tail => .loop body (append rest tail)
  | .ifThen yes rest, tail => .ifThen yes (append rest tail)
  | .ifElse yes no rest, tail => .ifElse yes no (append rest tail)
  | .br depth rest, tail => .br depth (append rest tail)
  | .brIf depth rest, tail => .brIf depth (append rest tail)
  | .ret rest, tail => .ret (append rest tail)

theorem append_done (code : Code) : code.append .done = code := by
  induction code with
  | done => rfl
  | op step rest ih => exact congrArg (Code.op step) ih
  | block body rest _ ih => exact congrArg (Code.block body) ih
  | loop body rest _ ih => exact congrArg (Code.loop body) ih
  | ifThen yes rest _ ih => exact congrArg (Code.ifThen yes) ih
  | ifElse yes no rest _ _ ih => exact congrArg (Code.ifElse yes no) ih
  | br depth rest ih => exact congrArg (Code.br depth) ih
  | brIf depth rest ih => exact congrArg (Code.brIf depth) ih
  | ret rest ih => exact congrArg Code.ret ih

end Code

/-- A sequence that is read from its end: one that `end` closes, or one that `else` does. -/
inductive Closed where
  | atEnd (code : Code)
  | atElse (code : Code)

def Closed.map (f : Code → Code) : Closed → Closed
  | .atEnd code => .atEnd (f code)
  | .atElse code => .atElse (f code)

def decodeStep : Instruction → List Closed → Option (List Closed)
  | .end_, open_ => some (.atEnd .done :: open_)
  | .else_, open_ => some (.atElse .done :: open_)
  | .op op, code :: open_ => some (code.map (.op op) :: open_)
  | .block, .atEnd body :: code :: open_ => some (code.map (.block body) :: open_)
  | .loop_, .atEnd body :: code :: open_ => some (code.map (.loop body) :: open_)
  | .if_, .atEnd yes :: code :: open_ => some (code.map (.ifThen yes) :: open_)
  | .if_, .atElse yes :: .atEnd no :: code :: open_ => some (code.map (.ifElse yes no) :: open_)
  | .br depth, code :: open_ => some (code.map (.br depth) :: open_)
  | .brIf depth, code :: open_ => some (code.map (.brIf depth) :: open_)
  | .return_, code :: open_ => some (code.map .ret :: open_)
  | _, _ => none

def decodeOpen : List Instruction → Option (List Closed)
  | [] => some []
  | instruction :: rest => (decodeOpen rest).bind (decodeStep instruction)

def decode (body : List Instruction) : Option Code :=
  match decodeOpen body with
  | some [.atEnd code] => some code
  | _ => none

theorem decodeOpen_encode (code : Code) {list : List Instruction} {closed : Closed} {open_ : List Closed}
    (h : decodeOpen list = some (closed :: open_)) :
    decodeOpen (code.encode ++ list) = some (closed.map code.append :: open_) := by
  -- One sequence inside another is read to its own end first.
  have hinner : ∀ {inner : Code} {list : List Instruction} {open_ : List Closed}, decodeOpen list = some open_ →
      (∀ {list : List Instruction} {closed : Closed} {open_ : List Closed}, decodeOpen list = some (closed :: open_) →
        decodeOpen (inner.encode ++ list) = some (closed.map inner.append :: open_)) →
      decodeOpen (inner.encode ++ .end_ :: list) = some (.atEnd inner :: open_) := by
    intro inner list open_ hlist ih
    have hdone : decodeOpen (.end_ :: list) = some (.atEnd .done :: open_) := by
      unfold decodeOpen
      rw [hlist]
      rfl
    have hread := ih hdone
    rwa [Closed.map, Code.append_done] at hread
  induction code generalizing list closed open_ with
  | done =>
    rw [Code.encode, List.nil_append, h]
    cases closed <;> rfl
  | op op rest ih | br depth rest ih | brIf depth rest ih | ret rest ih =>
    have hread := ih h
    rw [Code.encode, List.cons_append, decodeOpen, hread]
    cases closed <;> rfl
  | block body rest ihbody ih | loop body rest ihbody ih | ifThen yes rest ihbody ih =>
    have hread := hinner (ih h) ihbody
    rw [Code.encode, List.append_assoc, List.cons_append, List.cons_append, decodeOpen, hread]
    cases closed <;> rfl
  | ifElse yes no rest ihyes ihno ih =>
    have hno := hinner (ih h) ihno
    have helse : decodeOpen (.else_ :: (no.encode ++ .end_ :: (rest.encode ++ list))) =
        some (.atElse .done :: .atEnd no :: closed.map rest.append :: open_) := by
      rw [decodeOpen, hno]
      rfl
    have hread := ihyes helse
    rw [Closed.map, Code.append_done] at hread
    have hlist : (Code.ifElse yes no rest).encode ++ list =
        .if_ :: (yes.encode ++ .else_ :: (no.encode ++ .end_ :: (rest.encode ++ list))) := by
      simp [Code.encode]
    rw [hlist, decodeOpen, hread]
    cases closed <;> rfl

/-- **A listed body nests as it was written.** -/
theorem decode_encode (code : Code) : decode (code.encode ++ [.end_]) = some code := by
  have hread := @decodeOpen_encode code [.end_] (.atEnd .done) [] rfl
  rw [Closed.map, Code.append_done] at hread
  rw [decode, hread]

/-! ### Execution -/

/-- A linear memory: an address is an `i32`. -/
structure Memory where
  bytes : List UInt8
  bounded : bytes.length ≤ 2 ^ 32

def Memory.Holds (memory : Memory) (pointer : UInt32) (bytes : List UInt8) : Prop :=
  ∃ before after, memory.bytes = before ++ bytes ++ after ∧ before.length = pointer.toNat

theorem Memory.Holds.le {memory : Memory} {pointer : UInt32} {bytes : List UInt8} (h : memory.Holds pointer bytes) :
    pointer.toNat + bytes.length ≤ 2 ^ 32 := by
  obtain ⟨before, after, hbytes, hlength⟩ := h
  have hbounded := memory.bounded
  rw [hbytes, List.length_append, List.length_append, hlength] at hbounded
  omega

theorem Memory.Holds.byte {memory : Memory} {pointer : UInt32} {bytes : List UInt8} (h : memory.Holds pointer bytes)
    {i : ℕ} (hi : i < bytes.length) : memory.bytes[pointer.toNat + i]? = some bytes[i] := by
  obtain ⟨before, after, hbytes, hlength⟩ := h
  rw [hbytes, List.append_assoc, List.getElem?_append_right (by omega), List.getElem?_append_left (by omega),
    ← hlength, Nat.add_sub_cancel_left, List.getElem?_eq_getElem hi]

/-- The locals, the operands, the last one first, and the addresses that have been read, the last one first. -/
structure State where
  locals : List UInt32
  stack : List UInt32
  reads : List ℕ

namespace State

def push (s : State) (value : UInt32) : State := { s with stack := value :: s.stack }

def binary (f : UInt32 → UInt32 → UInt32) (s : State) : Option State :=
  match s.stack with
  | b :: a :: rest => some { s with stack := f a b :: rest }
  | _ => none

def enter (s : State) : State := { s with stack := [] }

def leave (s outer : State) : State := { s with stack := outer.stack }

end State

def truth (holds : Bool) : UInt32 := if holds then 1 else 0

/-- One instruction; `none` is a trap. -/
def Op.run (memory : Memory) : Op → State → Option State
  | .localGet index, s => s.locals[index]?.map s.push
  | .localSet index, s =>
    match s.stack with
    | value :: rest => if index < s.locals.length then some ⟨s.locals.set index value, rest, s.reads⟩ else none
    | [] => none
  | .i32Const value, s => some (s.push value)
  | .i32Eqz, s =>
    match s.stack with
    | a :: rest => some { s with stack := truth (a = 0) :: rest }
    | [] => none
  | .i32Add, s => s.binary (· + ·)
  | .i32Sub, s => s.binary (· - ·)
  | .i32Eq, s => s.binary fun a b => truth (a = b)
  | .i32Ne, s => s.binary fun a b => truth (a ≠ b)
  | .i32LtU, s => s.binary fun a b => truth (a < b)
  | .i32GtU, s => s.binary fun a b => truth (a > b)
  | .i32LeU, s => s.binary fun a b => truth (a ≤ b)
  | .i32GeU, s => s.binary fun a b => truth (a ≥ b)
  | .i32Load8U offset, s =>
    match s.stack with
    | address :: rest =>
      match memory.bytes[address.toNat + offset]? with
      | some byte => some ⟨s.locals, byte.toUInt32 :: rest, (address.toNat + offset) :: s.reads⟩
      | none => none
    | [] => none
  | .select, s =>
    match s.stack with
    | condition :: b :: a :: rest => some { s with stack := (if condition = 0 then b else a) :: rest }
    | _ => none

/-- How a sequence ends: at its end, at a branch to a label outside, with the result of the function, or with a trap. -/
inductive Outcome where
  | next
  | br (depth : ℕ)
  | ret (value : UInt32)
  | trap

/-- A sequence; `none` is that the fuel has run out. -/
def exec (memory : Memory) : ℕ → Code → State → Option (Outcome × State)
  | 0, _, _ => none
  | _ + 1, .done, s => some (.next, s)
  | fuel + 1, .op step rest, s =>
    match step.run memory s with
    | some s' => exec memory fuel rest s'
    | none => some (.trap, s)
  | fuel + 1, .block body rest, s =>
    match exec memory fuel body s.enter with
    | some (.next, s') => exec memory fuel rest (s'.leave s)
    | some (.br 0, s') => exec memory fuel rest (s'.leave s)
    | some (.br (depth + 1), s') => some (.br depth, s')
    | result => result
  | fuel + 1, .loop body rest, s =>
    match exec memory fuel body s.enter with
    | some (.next, s') => exec memory fuel rest (s'.leave s)
    | some (.br 0, s') => exec memory fuel (.loop body rest) (s'.leave s)
    | some (.br (depth + 1), s') => some (.br depth, s')
    | result => result
  | fuel + 1, .ifThen yes rest, s =>
    match s.stack with
    | condition :: operands =>
      exec memory fuel (.block (if condition = 0 then .done else yes) rest) { s with stack := operands }
    | [] => some (.trap, s)
  | fuel + 1, .ifElse yes no rest, s =>
    match s.stack with
    | condition :: operands =>
      exec memory fuel (.block (if condition = 0 then no else yes) rest) { s with stack := operands }
    | [] => some (.trap, s)
  | _ + 1, .br depth _, s => some (.br depth, s)
  | fuel + 1, .brIf depth rest, s =>
    match s.stack with
    | condition :: operands =>
      if condition = 0 then exec memory fuel rest { s with stack := operands }
      else some (.br depth, { s with stack := operands })
    | [] => some (.trap, s)
  | _ + 1, .ret _, s =>
    match s.stack with
    | value :: _ => some (.ret value, s)
    | [] => some (.trap, s)

structure Function where
  locals : ℕ
  body : List Instruction

/-- A call: the result, or a trap, and the addresses that were read; `none` is that the fuel has run out. -/
def invoke (memory : Memory) (fuel : ℕ) (function : Function) (arguments : List UInt32) :
    Option (Option UInt32 × List ℕ) :=
  match decode function.body with
  | some code =>
    match exec memory fuel code ⟨arguments ++ List.replicate function.locals 0, [], []⟩ with
    | some (.next, s) => some (s.stack.head?, s.reads)
    | some (.br 0, s) => some (s.stack.head?, s.reads)
    | some (.ret value, s) => some (some value, s.reads)
    | some (_, s) => some (none, s.reads)
    | none => none
  | none => some (none, [])

/-! ### Runs -/

/-- With enough fuel the sequence comes to an end, having read addresses of `inside` only, so that `Q` holds. -/
def Runs (memory : Memory) (inside : ℕ → Prop) (code : Code) (s : State) (Q : Outcome → State → Prop) : Prop :=
  ∃ enough outcome s', (∀ fuel, enough ≤ fuel → exec memory fuel code s = some (outcome, s')) ∧
    (∀ a ∈ s'.reads, a ∈ s.reads ∨ inside a) ∧ Q outcome s'

section Rules

variable {memory : Memory} {inside : ℕ → Prop} {body rest yes no : Code} {s s' : State} {Q R : Outcome → State → Prop}

theorem exec_op {step : Op} {fuel : ℕ} : exec memory (fuel + 1) (.op step rest) s =
    match step.run memory s with
    | some s' => exec memory fuel rest s'
    | none => some (.trap, s) := rfl

theorem exec_block {fuel : ℕ} : exec memory (fuel + 1) (.block body rest) s =
    match exec memory fuel body s.enter with
    | some (.next, s') => exec memory fuel rest (s'.leave s)
    | some (.br 0, s') => exec memory fuel rest (s'.leave s)
    | some (.br (depth + 1), s') => some (.br depth, s')
    | result => result := rfl

theorem exec_loop {fuel : ℕ} : exec memory (fuel + 1) (.loop body rest) s =
    match exec memory fuel body s.enter with
    | some (.next, s') => exec memory fuel rest (s'.leave s)
    | some (.br 0, s') => exec memory fuel (.loop body rest) (s'.leave s)
    | some (.br (depth + 1), s') => some (.br depth, s')
    | result => result := rfl

theorem exec_ifThen {fuel : ℕ} {condition : UInt32} {operands : List UInt32} (h : s.stack = condition :: operands) :
    exec memory (fuel + 1) (.ifThen yes rest) s =
      exec memory fuel (.block (if condition = 0 then .done else yes) rest) ⟨s.locals, operands, s.reads⟩ := by
  obtain ⟨locals, stack, reads⟩ := s
  subst h
  rfl

theorem exec_ifElse {fuel : ℕ} {condition : UInt32} {operands : List UInt32} (h : s.stack = condition :: operands) :
    exec memory (fuel + 1) (.ifElse yes no rest) s =
      exec memory fuel (.block (if condition = 0 then no else yes) rest) ⟨s.locals, operands, s.reads⟩ := by
  obtain ⟨locals, stack, reads⟩ := s
  subst h
  rfl

theorem exec_brIf {fuel depth : ℕ} {condition : UInt32} {operands : List UInt32} (h : s.stack = condition :: operands) :
    exec memory (fuel + 1) (.brIf depth rest) s =
      if condition = 0 then exec memory fuel rest ⟨s.locals, operands, s.reads⟩
      else some (.br depth, ⟨s.locals, operands, s.reads⟩) := by
  obtain ⟨locals, stack, reads⟩ := s
  subst h
  rfl

theorem exec_ret {fuel : ℕ} {value : UInt32} {operands : List UInt32} (h : s.stack = value :: operands) :
    exec memory (fuel + 1) (.ret rest) s = some (.ret value, s) := by
  obtain ⟨locals, stack, reads⟩ := s
  subst h
  rfl

theorem run_load {offset : ℕ} {address : UInt32} {operands : List UInt32} {byte : UInt8}
    (h : s.stack = address :: operands) (hbyte : memory.bytes[address.toNat + offset]? = some byte) :
    Op.run memory (.i32Load8U offset) s =
      some ⟨s.locals, byte.toUInt32 :: operands, (address.toNat + offset) :: s.reads⟩ := by
  obtain ⟨locals, stack, reads⟩ := s
  subst h
  show (match memory.bytes[address.toNat + offset]? with
    | some byte => some (State.mk locals (byte.toUInt32 :: operands) ((address.toNat + offset) :: reads))
    | none => none) = _
  rw [hbyte]

/-- With one more unit of fuel the sequence ends. -/
theorem Runs.ends {code : Code} {o : Outcome} (enough : ℕ)
    (hexec : ∀ fuel, enough ≤ fuel → exec memory (fuel + 1) code s = some (o, s'))
    (hreads : ∀ a ∈ s'.reads, a ∈ s.reads ∨ inside a) (h : Q o s') : Runs memory inside code s Q := by
  refine ⟨enough + 1, o, s', fun fuel hfuel => ?_, hreads, h⟩
  obtain ⟨fuel, rfl⟩ := Nat.exists_eq_succ_of_ne_zero (show fuel ≠ 0 by omega)
  exact hexec fuel (by omega)

theorem Runs.after {code : Code} (enough steps : ℕ) (h : Runs memory inside rest s' Q)
    (hexec : ∀ fuel, enough ≤ fuel → exec memory (fuel + steps) code s = exec memory fuel rest s')
    (hreads : ∀ a ∈ s'.reads, a ∈ s.reads ∨ inside a) : Runs memory inside code s Q := by
  obtain ⟨enough', o, s'', hexec', hreads', hq⟩ := h
  refine ⟨enough + enough' + steps, o, s'', fun fuel hfuel => ?_, fun a ha => (hreads' a ha).elim (hreads a) .inr, hq⟩
  obtain ⟨fuel, rfl⟩ := Nat.exists_eq_add_of_le' (show steps ≤ fuel by omega)
  rw [hexec fuel (by omega)]
  exact hexec' fuel (by omega)

theorem runs_done (h : Q .next s) : Runs memory inside .done s Q :=
  .ends 0 (fun _ _ => rfl) (fun _ => .inl) h

theorem runs_br {depth : ℕ} (h : Q (.br depth) s) : Runs memory inside (.br depth rest) s Q :=
  .ends 0 (fun _ _ => rfl) (fun _ => .inl) h

theorem runs_ret {value : UInt32} {operands : List UInt32} (hstack : s.stack = value :: operands)
    (h : Q (.ret value) s) : Runs memory inside (.ret rest) s Q :=
  .ends 0 (fun _ _ => exec_ret hstack) (fun _ => .inl) h

theorem runs_load {offset : ℕ} {address : UInt32} {operands : List UInt32} {byte : UInt8}
    (hstack : s.stack = address :: operands) (hbyte : memory.bytes[address.toNat + offset]? = some byte)
    (hinside : inside (address.toNat + offset))
    (h : Runs memory inside rest ⟨s.locals, byte.toUInt32 :: operands, (address.toNat + offset) :: s.reads⟩ Q) :
    Runs memory inside (.op (.i32Load8U offset) rest) s Q := by
  refine h.after 0 1 (fun fuel _ => ?_) fun a ha => ?_
  · rw [exec_op, run_load hstack hbyte]
  · rcases List.mem_cons.mp ha with rfl | ha
    · exact .inr hinside
    · exact .inl ha

/-- Instructions without control, one after the other. -/
def runOps (memory : Memory) : List Op → State → Option State
  | [], s => some s
  | step :: rest, s =>
    match step.run memory s with
    | some s' => runOps memory rest s'
    | none => none

theorem exec_ops {list : List Op} (h : runOps memory list s = some s') (fuel : ℕ) :
    exec memory (fuel + list.length) (.ops list rest) s = exec memory fuel rest s' := by
  induction list generalizing s with
  | nil =>
    obtain rfl := Option.some.inj h
    rfl
  | cons step list ih =>
    rw [runOps] at h
    cases hstep : step.run memory s with
    | none =>
      rw [hstep] at h
      cases h
    | some s'' =>
      rw [hstep] at h
      rw [List.length_cons, ← Nat.add_assoc, Code.ops, List.foldr_cons, exec_op, hstep]
      exact ih h

/-- Instructions that read no memory. -/
theorem runs_ops {list : List Op} (hrun : runOps memory list s = some s') (hreads : s'.reads = s.reads)
    (h : Runs memory inside rest s' Q) : Runs memory inside (.ops list rest) s Q :=
  h.after 0 list.length (fun fuel _ => exec_ops hrun fuel) fun _ ha => .inl (hreads ▸ ha)

/-! ### Control -/

/-- What holds after a labelled sequence: `again` where it branches to its label, `after` at its end. -/
def sequel (again after : State → Prop) (Q : Outcome → State → Prop) : Outcome → State → Prop
  | .next, s => after s
  | .br 0, s => again s
  | .br (depth + 1), s => Q (.br depth) s
  | .ret value, s => Q (.ret value) s
  | .trap, s => Q .trap s

theorem runs_block (h : Runs memory inside body s.enter (sequel (fun s' => Runs memory inside rest (s'.leave s) Q)
    (fun s' => Runs memory inside rest (s'.leave s) Q) Q)) : Runs memory inside (.block body rest) s Q := by
  obtain ⟨enough, o, s', hexec, hreads, hq⟩ := h
  match o with
  | .next | .br 0 => exact hq.after enough 1 (fun fuel hfuel => by rw [exec_block, hexec fuel hfuel]) hreads
  | .br (_ + 1) | .ret _ | .trap =>
    exact .ends enough (fun fuel hfuel => by rw [exec_block, hexec fuel hfuel]) hreads hq

/-- **Loops**: the invariant holds at the start of each round, and its measure falls from one round to the next. -/
theorem runs_loop (I : ℕ → State → Prop) (measure : ℕ) (hstart : I measure s)
    (hround : ∀ k s, I k s → Runs memory inside body s.enter
      (sequel (fun s' => ∃ k' < k, I k' (s'.leave s)) (fun s' => Runs memory inside rest (s'.leave s) Q) Q)) :
    Runs memory inside (.loop body rest) s Q := by
  induction measure using Nat.strongRecOn generalizing s with
  | ind k ih =>
    obtain ⟨enough, o, s', hexec, hreads, hq⟩ := hround k s hstart
    match o with
    | .next => exact hq.after enough 1 (fun fuel hfuel => by rw [exec_loop, hexec fuel hfuel]) hreads
    | .br 0 =>
      obtain ⟨k', hlt, hI⟩ := hq
      exact (ih k' hlt hI).after enough 1 (fun fuel hfuel => by rw [exec_loop, hexec fuel hfuel]) hreads
    | .br (_ + 1) | .ret _ | .trap =>
      exact .ends enough (fun fuel hfuel => by rw [exec_loop, hexec fuel hfuel]) hreads hq

/-! ### Conditions -/

theorem truth_eq_zero {p : Prop} [Decidable p] : truth p = 0 ↔ ¬ p := by
  unfold truth
  by_cases hp : p <;> simp [hp]

section Condition

variable {p : Prop} [Decidable p] {operands : List UInt32}

theorem runs_brIf {depth : ℕ} (hstack : s.stack = truth p :: operands)
    (hyes : p → Q (.br depth) ⟨s.locals, operands, s.reads⟩)
    (hno : ¬ p → Runs memory inside rest ⟨s.locals, operands, s.reads⟩ Q) :
    Runs memory inside (.brIf depth rest) s Q := by
  by_cases hp : p
  · refine .ends 0 ?_ ?_ (hyes hp)
    · intro fuel _
      rw [exec_brIf hstack, if_neg (mt truth_eq_zero.mp (not_not_intro hp))]
    · exact fun _ => .inl
  · refine (hno hp).after 0 1 (fun fuel _ => ?_) fun _ => .inl
    rw [exec_brIf hstack, if_pos (truth_eq_zero.mpr hp)]

theorem runs_branch {code : Code} (hyes : p → Runs memory inside yes ⟨s.locals, [], s.reads⟩
      (sequel (fun s' => Runs memory inside rest ⟨s'.locals, operands, s'.reads⟩ Q)
        (fun s' => Runs memory inside rest ⟨s'.locals, operands, s'.reads⟩ Q) Q))
    (hno : ¬ p → Runs memory inside no ⟨s.locals, [], s.reads⟩
      (sequel (fun s' => Runs memory inside rest ⟨s'.locals, operands, s'.reads⟩ Q)
        (fun s' => Runs memory inside rest ⟨s'.locals, operands, s'.reads⟩ Q) Q))
    (hexec : ∀ fuel, exec memory (fuel + 1) code s =
      exec memory fuel (.block (if truth p = 0 then no else yes) rest) ⟨s.locals, operands, s.reads⟩) :
    Runs memory inside code s Q := by
  have hblock : Runs memory inside (.block (if truth p = 0 then no else yes) rest)
      ⟨s.locals, operands, s.reads⟩ Q := by
    refine runs_block ?_
    by_cases hp : p
    · rw [if_neg (mt truth_eq_zero.mp (not_not_intro hp))]
      exact hyes hp
    · rw [if_pos (truth_eq_zero.mpr hp)]
      exact hno hp
  exact hblock.after 0 1 (fun fuel _ => hexec fuel) fun _ => .inl

theorem runs_ifThen (hstack : s.stack = truth p :: operands)
    (hyes : p → Runs memory inside yes ⟨s.locals, [], s.reads⟩
      (sequel (fun s' => Runs memory inside rest ⟨s'.locals, operands, s'.reads⟩ Q)
        (fun s' => Runs memory inside rest ⟨s'.locals, operands, s'.reads⟩ Q) Q))
    (hno : ¬ p → Runs memory inside rest ⟨s.locals, operands, s.reads⟩ Q) :
    Runs memory inside (.ifThen yes rest) s Q :=
  runs_branch hyes (fun hp => runs_done (hno hp)) fun _ => exec_ifThen hstack

theorem runs_ifElse (hstack : s.stack = truth p :: operands)
    (hyes : p → Runs memory inside yes ⟨s.locals, [], s.reads⟩
      (sequel (fun s' => Runs memory inside rest ⟨s'.locals, operands, s'.reads⟩ Q)
        (fun s' => Runs memory inside rest ⟨s'.locals, operands, s'.reads⟩ Q) Q))
    (hno : ¬ p → Runs memory inside no ⟨s.locals, [], s.reads⟩
      (sequel (fun s' => Runs memory inside rest ⟨s'.locals, operands, s'.reads⟩ Q)
        (fun s' => Runs memory inside rest ⟨s'.locals, operands, s'.reads⟩ Q) Q)) :
    Runs memory inside (.ifElse yes no rest) s Q :=
  runs_branch hyes hno fun _ => exec_ifElse hstack

end Condition

end Rules

end Blot.Support.Wasm
