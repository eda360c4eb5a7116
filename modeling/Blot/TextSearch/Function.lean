import Blot.Support.Wasm

/-!
# The byte search of the backend (`text_search.rs`)

* `function` — the function as it is emitted;
* `searchCode` — its body as it nests, with a name for each loop;
* `decode_function` — it is the body of the function.
-/

namespace Blot.TextSearch

open Blot.Support.Wasm

/-! ### The emitted instructions -/

namespace Local

def text : ℕ := 0
def textLen : ℕ := 1
def query : ℕ := 2
def queryLen : ℕ := 3
def start : ℕ := 4
def suffix : ℕ := 5
def candidate : ℕ := 6
def offset : ℕ := 7
def period : ℕ := 8
def critical : ℕ := 9
def savedPeriod : ℕ := 10
def memory : ℕ := 11
def memoryAfterShift : ℕ := 12
def index : ℕ := 13
def leftByte : ℕ := 14
def rightByte : ℕ := 15

end Local

/-- The offset of `BYTE` -/
def byte : ℕ := 0

def compareAt : List Instruction :=
  [.localGet Local.query, .localGet Local.index, .i32Add, .i32Load8U byte,
    .localGet Local.text, .localGet Local.start, .i32Add, .localGet Local.index, .i32Add, .i32Load8U byte]

def maximalSuffix (reverse : Bool) : List Instruction :=
  [.i32Const (-1), .localSet Local.suffix,
    .i32Const 0, .localSet Local.candidate,
    .i32Const 1, .localSet Local.offset,
    .i32Const 1, .localSet Local.period,
    .block, .loop_,
    .localGet Local.offset, .localGet Local.queryLen, .localGet Local.candidate, .i32Sub, .i32GeU, .brIf 1,
    .localGet Local.query, .localGet Local.candidate, .i32Add, .localGet Local.offset, .i32Add, .i32Load8U byte,
    .localSet Local.leftByte,
    .localGet Local.query, .localGet Local.suffix, .i32Add, .localGet Local.offset, .i32Add, .i32Load8U byte,
    .localSet Local.rightByte,
    .localGet Local.leftByte, .localGet Local.rightByte,
    if reverse then .i32GtU else .i32LtU,
    .if_,
    .localGet Local.candidate, .localGet Local.offset, .i32Add, .localSet Local.candidate,
    .i32Const 1, .localSet Local.offset,
    .localGet Local.candidate, .localGet Local.suffix, .i32Sub, .localSet Local.period,
    .else_,
    .localGet Local.leftByte, .localGet Local.rightByte, .i32Eq,
    .if_,
    .localGet Local.offset, .localGet Local.period, .i32Eq,
    .if_,
    .localGet Local.candidate, .localGet Local.period, .i32Add, .localSet Local.candidate,
    .i32Const 1, .localSet Local.offset,
    .else_,
    .localGet Local.offset, .i32Const 1, .i32Add, .localSet Local.offset,
    .end_,
    .else_,
    .localGet Local.candidate, .localSet Local.suffix,
    .localGet Local.candidate, .i32Const 1, .i32Add, .localSet Local.candidate,
    .i32Const 1, .localSet Local.offset,
    .i32Const 1, .localSet Local.period,
    .end_, .end_,
    .br 0, .end_, .end_]

/-- `function`: five parameters, the text, its length, the query, its length and the start; eleven further locals. -/
def function : Function where
  locals := 11
  body :=
    [.localGet Local.queryLen, .i32Eqz, .if_, .localGet Local.start, .return_, .end_,
      .localGet Local.queryLen, .localGet Local.textLen, .localGet Local.start, .i32Sub, .i32GtU,
      .if_, .i32Const (-1), .return_, .end_] ++
    maximalSuffix false ++
    [.localGet Local.suffix, .i32Const 1, .i32Add, .localSet Local.critical,
      .localGet Local.period, .localSet Local.savedPeriod] ++
    maximalSuffix true ++
    [.localGet Local.suffix, .i32Const 1, .i32Add, .localGet Local.critical, .i32GtU,
      .if_, .localGet Local.suffix, .i32Const 1, .i32Add, .localSet Local.critical,
      .else_, .localGet Local.savedPeriod, .localSet Local.period, .end_,
      .i32Const 0, .localSet Local.index,
      .block, .loop_,
      .localGet Local.index, .localGet Local.critical, .i32GeU, .brIf 1,
      .localGet Local.query, .localGet Local.index, .i32Add, .i32Load8U byte,
      .localGet Local.query, .localGet Local.period, .i32Add, .localGet Local.index, .i32Add, .i32Load8U byte,
      .i32Ne, .brIf 1,
      .localGet Local.index, .i32Const 1, .i32Add, .localSet Local.index,
      .br 0, .end_, .end_,
      .localGet Local.index, .localGet Local.critical, .i32Eq,
      .if_,
      .localGet Local.queryLen, .localGet Local.period, .i32Sub, .localSet Local.memoryAfterShift,
      .else_,
      .localGet Local.critical,
      .localGet Local.queryLen, .localGet Local.critical, .i32Sub, .i32Const 1, .i32Add,
      .localGet Local.critical,
      .localGet Local.queryLen, .localGet Local.critical, .i32Sub, .i32Const 1, .i32Add,
      .i32GtU, .select, .localSet Local.period,
      .end_,
      .block, .loop_,
      .localGet Local.start, .localGet Local.textLen, .localGet Local.queryLen, .i32Sub, .i32GtU, .brIf 1,
      .localGet Local.critical, .localGet Local.memory,
      .localGet Local.critical, .localGet Local.memory, .i32GtU, .select, .localSet Local.index,
      .block, .loop_,
      .localGet Local.index, .localGet Local.queryLen, .i32GeU, .brIf 1] ++
    compareAt ++
    [.i32Ne, .brIf 1,
      .localGet Local.index, .i32Const 1, .i32Add, .localSet Local.index,
      .br 0, .end_, .end_,
      .localGet Local.index, .localGet Local.queryLen, .i32LtU,
      .if_,
      .localGet Local.start,
      .localGet Local.index, .localGet Local.critical, .i32Sub, .i32Const 1, .i32Add,
      .i32Add, .localSet Local.start,
      .i32Const 0, .localSet Local.memory,
      .br 1, .end_,
      .localGet Local.critical, .localSet Local.index,
      .block, .loop_,
      .localGet Local.index, .localGet Local.memory, .i32LeU,
      .if_, .localGet Local.start, .return_, .end_,
      .localGet Local.index, .i32Const 1, .i32Sub, .localSet Local.index] ++
    compareAt ++
    [.i32Ne, .brIf 1,
      .br 0, .end_, .end_,
      .localGet Local.start, .localGet Local.period, .i32Add, .localSet Local.start,
      .localGet Local.memoryAfterShift, .localSet Local.memory,
      .br 0, .end_, .end_,
      .i32Const (-1), .end_]

/-! ### The body as it nests -/

/-- The comparison of `compare_at`: the bytes of the query and of the text at the index. -/
def compareCode (rest : Code) : Code :=
  .ops [.localGet Local.query, .localGet Local.index, .i32Add] <| .op (.i32Load8U byte) <|
  .ops [.localGet Local.text, .localGet Local.start, .i32Add, .localGet Local.index, .i32Add] <|
  .op (.i32Load8U byte) rest

def loseCode : Code :=
  .ops [.localGet Local.candidate, .localGet Local.offset, .i32Add, .localSet Local.candidate, .i32Const 1,
    .localSet Local.offset, .localGet Local.candidate, .localGet Local.suffix, .i32Sub, .localSet Local.period] .done

def agreeCode : Code :=
  .ops [.localGet Local.offset, .localGet Local.period, .i32Eq] <|
  .ifElse
    (.ops [.localGet Local.candidate, .localGet Local.period, .i32Add, .localSet Local.candidate, .i32Const 1,
      .localSet Local.offset] .done)
    (.ops [.localGet Local.offset, .i32Const 1, .i32Add, .localSet Local.offset] .done)
    .done

def winCode : Code :=
  .ops [.localGet Local.candidate, .localSet Local.suffix, .localGet Local.candidate, .i32Const 1, .i32Add,
    .localSet Local.candidate, .i32Const 1, .localSet Local.offset, .i32Const 1, .localSet Local.period] .done

/-- A round of `maximal_suffix`. -/
def scanRound (reverse : Bool) : Code :=
  .ops [.localGet Local.offset, .localGet Local.queryLen, .localGet Local.candidate, .i32Sub, .i32GeU] <| .brIf 1 <|
  .ops [.localGet Local.query, .localGet Local.candidate, .i32Add, .localGet Local.offset, .i32Add] <|
  .op (.i32Load8U byte) <|
  .ops [.localSet Local.leftByte, .localGet Local.query, .localGet Local.suffix, .i32Add, .localGet Local.offset,
    .i32Add] <|
  .op (.i32Load8U byte) <|
  .ops [.localSet Local.rightByte, .localGet Local.leftByte, .localGet Local.rightByte,
    if reverse then .i32GtU else .i32LtU] <|
  .ifElse loseCode
    (.ops [.localGet Local.leftByte, .localGet Local.rightByte, .i32Eq] <| .ifElse agreeCode winCode .done) <|
  .br 0 .done

def maximalSuffixCode (reverse : Bool) (rest : Code) : Code :=
  .ops [.i32Const (-1), .localSet Local.suffix, .i32Const 0, .localSet Local.candidate, .i32Const 1,
    .localSet Local.offset, .i32Const 1, .localSet Local.period] <|
  .block (.loop (scanRound reverse) .done) rest

def testRound : Code :=
  .ops [.localGet Local.index, .localGet Local.critical, .i32GeU] <| .brIf 1 <|
  .ops [.localGet Local.query, .localGet Local.index, .i32Add] <| .op (.i32Load8U byte) <|
  .ops [.localGet Local.query, .localGet Local.period, .i32Add, .localGet Local.index, .i32Add] <|
  .op (.i32Load8U byte) <|
  .ops [.i32Ne] <| .brIf 1 <|
  .ops [.localGet Local.index, .i32Const 1, .i32Add, .localSet Local.index] <| .br 0 .done

/-- The critical position, the shift and the memory, from the two greatest suffixes. -/
def planCode (rest : Code) : Code :=
  .ops [.localGet Local.suffix, .i32Const 1, .i32Add, .localGet Local.critical, .i32GtU] <|
  .ifElse (.ops [.localGet Local.suffix, .i32Const 1, .i32Add, .localSet Local.critical] .done)
    (.ops [.localGet Local.savedPeriod, .localSet Local.period] .done) <|
  .ops [.i32Const 0, .localSet Local.index] <|
  .block (.loop testRound .done) <|
  .ops [.localGet Local.index, .localGet Local.critical, .i32Eq] <|
  .ifElse (.ops [.localGet Local.queryLen, .localGet Local.period, .i32Sub, .localSet Local.memoryAfterShift] .done)
    (.ops [.localGet Local.critical, .localGet Local.queryLen, .localGet Local.critical, .i32Sub, .i32Const 1, .i32Add,
      .localGet Local.critical, .localGet Local.queryLen, .localGet Local.critical, .i32Sub, .i32Const 1, .i32Add,
      .i32GtU, .select, .localSet Local.period] .done) rest

def rightRound : Code :=
  .ops [.localGet Local.index, .localGet Local.queryLen, .i32GeU] <| .brIf 1 <|
  compareCode <| .ops [.i32Ne] <| .brIf 1 <|
  .ops [.localGet Local.index, .i32Const 1, .i32Add, .localSet Local.index] <| .br 0 .done

def leftRound : Code :=
  .ops [.localGet Local.index, .localGet Local.memory, .i32LeU] <|
  .ifThen (.ops [.localGet Local.start] <| .ret .done) <|
  .ops [.localGet Local.index, .i32Const 1, .i32Sub, .localSet Local.index] <|
  compareCode <| .ops [.i32Ne] <| .brIf 1 <| .br 0 .done

def searchRound : Code :=
  .ops [.localGet Local.start, .localGet Local.textLen, .localGet Local.queryLen, .i32Sub, .i32GtU] <| .brIf 1 <|
  .ops [.localGet Local.critical, .localGet Local.memory, .localGet Local.critical, .localGet Local.memory, .i32GtU,
    .select, .localSet Local.index] <|
  .block (.loop rightRound .done) <|
  .ops [.localGet Local.index, .localGet Local.queryLen, .i32LtU] <|
  .ifThen (.ops [.localGet Local.start, .localGet Local.index, .localGet Local.critical, .i32Sub, .i32Const 1, .i32Add,
    .i32Add, .localSet Local.start, .i32Const 0, .localSet Local.memory] <| .br 1 .done) <|
  .ops [.localGet Local.critical, .localSet Local.index] <|
  .block (.loop leftRound .done) <|
  .ops [.localGet Local.start, .localGet Local.period, .i32Add, .localSet Local.start,
    .localGet Local.memoryAfterShift, .localSet Local.memory] <| .br 0 .done

def searchCode : Code :=
  .ops [.localGet Local.queryLen, .i32Eqz] <| .ifThen (.ops [.localGet Local.start] <| .ret .done) <|
  .ops [.localGet Local.queryLen, .localGet Local.textLen, .localGet Local.start, .i32Sub, .i32GtU] <|
  .ifThen (.ops [.i32Const (-1)] <| .ret .done) <|
  maximalSuffixCode false <|
  .ops [.localGet Local.suffix, .i32Const 1, .i32Add, .localSet Local.critical, .localGet Local.period,
    .localSet Local.savedPeriod] <|
  maximalSuffixCode true <|
  planCode <|
  .block (.loop searchRound .done) <|
  .ops [.i32Const (-1)] .done

set_option maxRecDepth 2000 in
theorem decode_function : decode function.body = some searchCode := by
  have hbody : function.body = searchCode.encode ++ [.end_] := rfl
  rw [hbody, decode_encode]

end Blot.TextSearch
