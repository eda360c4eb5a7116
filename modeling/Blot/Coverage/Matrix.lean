import Mathlib.Data.String.Basic
import Blot.Support.Ascending
import Blot.Support.Table
import Blot.Typecheck.Ty

/-!
# Exhaustiveness (`typecheck.rs`)

The arms of a case are the rows of a matrix, its columns the types of the values to match. A column is specialised by
its type: by the named literals of a range, by the cases of a variant, by the fields of a record.
-/

namespace Blot.Coverage

open Support Typecheck

/-- `Pattern`, with the patterns that it is made of in place of their positions in the arena -/
inductive Pattern where
  | name (name : String)
  | wildcard
  | pin (name : String)
  | int (value : ℤ)
  | float (value : Float)
  | text (value : String)
  | unit
  | tuple (elements : List Pattern)
  | array (elements : List Pattern)
  | constructor (name : String) (payload : Option Pattern)
  | shape (fields : List (String × Pattern))

inductive CoveragePattern where
  | any
  | refutable
  | unit
  | int (value : ℤ)
  | text (value : String)
  | constructor (name : String) (payload : Option CoveragePattern)
  | tuple (elements : List CoveragePattern)
  | shape (fields : List (String × CoveragePattern))

abbrev CoverageRow := List CoveragePattern

mutual
/-- `coverage_pattern`; of the fields of one name the last is kept. -/
def coveragePattern : Pattern → CoveragePattern
  | .name _ | .wildcard => .any
  | .pin _ | .float _ | .array _ => .refutable
  | .int value => .int value
  | .text value => .text value
  | .unit => .unit
  | .constructor name payload => .constructor name (coveragePayload payload)
  | .tuple elements => .tuple (coveragePatterns elements)
  | .shape fields => .shape (Table.extend [] (coverageFields fields))
def coveragePatterns : List Pattern → List CoveragePattern
  | [] => []
  | pattern :: rest => coveragePattern pattern :: coveragePatterns rest
def coverageFields : List (String × Pattern) → List (String × CoveragePattern)
  | [] => []
  | (name, pattern) :: rest => (name, coveragePattern pattern) :: coverageFields rest
def coveragePayload : Option Pattern → Option CoveragePattern
  | none => none
  | some pattern => some (coveragePattern pattern)
end

/-! ### Specialised rows -/

def defaultRows (rows : List CoverageRow) : List CoverageRow :=
  rows.filterMap fun
    | .any :: tail => some tail
    | _ => none

def specializeUnit (rows : List CoverageRow) : List CoverageRow :=
  rows.filterMap fun
    | .any :: tail | .unit :: tail => some tail
    | _ => none

def firstInt : CoverageRow → Option ℤ
  | .int value :: _ => some value
  | _ => none

def firstText : CoverageRow → Option String
  | .text value :: _ => some value
  | _ => none

/-- The rows that name an integer (`literals`). -/
def intRows (rows : List CoverageRow) (value : ℤ) : List CoverageRow :=
  (rows.filter fun row => firstInt row = some value).map List.tail

/-- The rows that name a text (`literals`). -/
def textRows (rows : List CoverageRow) (value : String) : List CoverageRow :=
  (rows.filter fun row => firstText row = some value).map List.tail

def rowsWithDefaults (defaults specific : List CoverageRow) : List CoverageRow := defaults ++ specific

def caseRows (rows : List CoverageRow) (name : String) : List CoverageRow :=
  (defaultRows rows).map (.any :: ·) ++ rows.filterMap fun
    | .constructor found payload :: tail => if found = name then some (payload.getD .unit :: tail) else none
    | _ => none

def isTuple (fields : List (String × Ty)) : Bool := fields.zipIdx.all fun p => p.1.1 = toString p.2

def elements (fields : List (String × Ty)) : CoveragePattern → Option (List CoveragePattern)
  | .any => some (fields.map fun _ => .any)
  | .tuple elements => if isTuple fields ∧ elements.length = fields.length then some elements else none
  | .shape patterns => some (fields.map fun field => (patterns.lookup field.1).getD .any)
  | _ => none

def recordRows (fields : List (String × Ty)) (rows : List CoverageRow) : List CoverageRow :=
  rows.filterMap fun
    | pattern :: tail => (elements fields pattern).map (· ++ tail)
    | [] => none

/-! ### The matrix -/

/-- `coverage_integer_range`; `covers` decides the remaining columns. -/
def coverageIntegerRange (covers : List CoverageRow → Bool) (rows : List CoverageRow) (low high : Option Scalar) :
    Bool :=
  match low, high with
  | some (.int low), some (.int high) =>
    if high < low then true
    else
      let named := (Ascending.ofList (rows.filterMap firstInt)).elements.filter fun value => low ≤ value ∧ value ≤ high
      (named.all fun value => covers (rowsWithDefaults (defaultRows rows) (intRows rows value))) &&
        (high - low + 1 = (named.length : ℤ) || covers (defaultRows rows))
  | _, _ => covers (defaultRows rows)

/-- `coverage_text_values`: a text that comes twice finds no rows of its own the second time. -/
def coverageTextValues (covers : List CoverageRow → Bool) (rows : List CoverageRow) (values : List String) : Bool :=
  values.zipIdx.all fun (value, index) =>
    covers (rowsWithDefaults (defaultRows rows) (if value ∈ values.take index then [] else textRows rows value))

def singleInt : Ty → Option ℤ
  | .range .int (some (.int low)) (some (.int high)) => if low = high then some low else none
  | _ => none

def singleText : Ty → Option String
  | .range .text (some (.text low)) (some (.text high)) => if low = high then some low else none
  | _ => none

theorem sizeOf_append (types more : List Ty) : sizeOf (types ++ more) + 1 = sizeOf types + sizeOf more := by
  induction types with
  | nil =>
    show sizeOf more + 1 = 1 + sizeOf more
    omega
  | cons type types ih =>
    simp only [List.cons_append, List.cons.sizeOf_spec]
    omega

def isBottom : Ty → Bool
  | .bottom => true
  | _ => false

def columns (fields : List (String × Ty)) : List Ty := fields.map Prod.snd

theorem sizeOf_columns (fields : List (String × Ty)) : sizeOf (columns fields) ≤ sizeOf fields := by
  unfold columns
  induction fields with
  | nil => exact le_rfl
  | cons field fields ih =>
    obtain ⟨name, type⟩ := field
    simp only [List.map_cons, List.cons.sizeOf_spec, Prod.mk.sizeOf_spec]
    omega

/-- `coverage_matrix`, with `coverage_variant`, `coverage_record` and `coverage_union` -/
def coverageMatrix (rows : List CoverageRow) : List Ty → Bool
  | [] => !rows.isEmpty
  | type :: rest =>
    if rows.isEmpty then isBottom type
    else
      match type with
      | .qualified _ body => coverageMatrix rows (body :: rest)
      | .bottom => true
      | .unit => coverageMatrix (specializeUnit rows) rest
      | .range .int low high => coverageIntegerRange (coverageMatrix · rest) rows low high
      | .variant cases isOpen =>
        (!isOpen || coverageMatrix (defaultRows rows) rest) &&
          cases.attach.all fun c => coverageMatrix (caseRows rows c.1.1) (c.1.2 :: rest)
      | .record fields => coverageMatrix (recordRows fields rows) (columns fields ++ rest)
      | .union members =>
        match members.mapM singleInt with
        | some integers => (Ascending.ofList integers).elements.all fun value =>
            coverageMatrix (rowsWithDefaults (defaultRows rows) (intRows rows value)) rest
        | none =>
          match members.mapM singleText with
          | some texts => coverageTextValues (coverageMatrix · rest) rows texts
          | none => members.attach.all fun m => coverageMatrix rows (m.1 :: rest)
      | type =>
        match singleText type with
        | some text => coverageTextValues (coverageMatrix · rest) rows [text]
        | none => coverageMatrix (defaultRows rows) rest
termination_by types => sizeOf types
decreasing_by
  all_goals simp only [List.cons.sizeOf_spec, Ty.qualified.sizeOf_spec, Ty.record.sizeOf_spec]
  all_goals try omega
  · have hcase := List.sizeOf_lt_of_mem c.2
    have hpair : sizeOf c.1 = 1 + sizeOf c.1.1 + sizeOf c.1.2 := by
      obtain ⟨⟨name, payload⟩, hc⟩ := c
      rfl
    simp only [Ty.variant.sizeOf_spec]
    omega
  · have happend := sizeOf_append (columns fields) rest
    have hfields := sizeOf_columns fields
    omega
  · have hmember := List.sizeOf_lt_of_mem m.2
    simp only [Ty.union.sizeOf_spec]
    omega

theorem coverageMatrix_nil (rows : List CoverageRow) : coverageMatrix rows [] = !rows.isEmpty := by
  rw [coverageMatrix]

/-- `patterns_cover`, of the patterns of the arms -/
def patternsCover (arms : List Pattern) (type : Ty) : Bool :=
  coverageMatrix (arms.map fun pattern => [coveragePattern pattern]) [type]

end Blot.Coverage
