import Mathlib.Data.Int.Interval
import Blot.Support.Checks
import Blot.Eval.Value
import Blot.Coverage.Matrix

/-!
# What exhaustive arms match (`match_pattern`)

* `matchPattern` — `match_pattern`;
* `HasType` — which values a type has: an open variant has any other tag, a record has at least the fields of its type;
* `CoversAt` — what the columns of the matrix read of a value;
* `patternsCover_exact` — exhaustive arms match every value exactly when every value that slips through an arm is
  matched by another one.
-/

namespace Blot.Coverage

open Support Typecheck
open Eval (Value)

variable {X : Type}

/-! ### Matching -/

abbrev Names (X : Type) := String → Option (Value X)

def asTuple (value : Value X) (arity : ℕ) : Option (List (Value X)) :=
  match value with
  | .shape fields => if fields.length = arity then (List.range arity).mapM fun i => fields.lookup (toString i) else none
  | _ => none

def arrayValues : Value X → Option (List (Value X))
  | .array values => some values
  | .emptyArray _ => some []
  | _ => none

mutual
/-- `match_pattern`: whether the value matches, and the names that the pattern binds; `equal` compares with pinned
values. -/
def matchPattern (equal : Value X → Value X → Bool) (pattern : Pattern) (value : Value X) (names : Names X) :
    Bool × Names X :=
  match pattern with
  | .wildcard => (true, names)
  | .name name => (true, Function.update names name (some value))
  | .pin name => ((names name).any (equal value), names)
  | .int expected => (match value with | .int found => found = expected | _ => false, names)
  | .float expected => (match value with | .float found => found.toBits = expected.toBits | _ => false, names)
  | .text expected => (match value with | .text found => found = expected | _ => false, names)
  | .unit => (match value with | .unit => true | _ => false, names)
  | .constructor name payload =>
    match value with
    | .tag found inner => if found = name then matchPayload equal payload inner names else (false, names)
    | _ => (false, names)
  | .array elements =>
    match arrayValues value with
    | some values => if elements.length = values.length then matchAll equal elements values names else (false, names)
    | none => (false, names)
  | .tuple elements =>
    match asTuple value elements.length with
    | some values => matchAll equal elements values names
    | none => (false, names)
  | .shape fields =>
    match value with
    | .shape values => matchFields equal fields values names
    | _ => (false, names)
termination_by structural pattern
def matchPayload (equal : Value X → Value X → Bool) (payload : Option Pattern) (inner : Option (Value X))
    (names : Names X) : Bool × Names X :=
  match payload, inner with
  | none, none => (true, names)
  | some pattern, some value => matchPattern equal pattern value names
  | _, _ => (false, names)
termination_by structural payload
def matchAll (equal : Value X → Value X → Bool) (patterns : List Pattern) (values : List (Value X)) (names : Names X) :
    Bool × Names X :=
  match patterns, values with
  | pattern :: patterns, value :: values =>
    match matchPattern equal pattern value names with
    | (true, names) => matchAll equal patterns values names
    | (false, names) => (false, names)
  | _, _ => (true, names)
termination_by structural patterns
def matchFields (equal : Value X → Value X → Bool) (fields : List (String × Pattern)) (values : List (String × Value X))
    (names : Names X) : Bool × Names X :=
  match fields with
  | [] => (true, names)
  | (name, pattern) :: rest =>
    match values.lookup name with
    | some value =>
      match matchPattern equal pattern value names with
      | (true, names) => matchFields equal rest values names
      | (false, names) => (false, names)
    | none => (false, names)
termination_by structural fields
end

def Matches (equal : Value X → Value X → Bool) (names : Names X) (pattern : Pattern) (value : Value X) : Prop :=
  (matchPattern equal pattern value names).1 = true

/-! ### The values of a type -/

/-- A form that the matrix does not look into: its values may be any. -/
def Opaque : Ty → Prop
  | .qualified _ _ | .unit | .record _ | .variant _ _ | .union _ | .bottom => False
  | .range .int _ _ | .range .text _ _ => False
  | _ => True

/-- The values of a type. A constructor without a payload carries `Unit`. -/
inductive HasType : Value X → Ty → Prop where
  | opaqueForm {value : Value X} {type : Ty} (h : Opaque type) : HasType value type
  | qualified {value : Value X} {requirements : List (MemberRequirement Ty)} {body : Ty} (h : HasType value body) :
    HasType value (.qualified requirements body)
  | unit : HasType .unit .unit
  | int {value : ℤ} {low high : Option Scalar} (hlow : ∀ l, low = some (.int l) → l ≤ value)
    (hhigh : ∀ h, high = some (.int h) → value ≤ h) : HasType (.int value) (.range .int low high)
  | text {value : String} {low high : Option Scalar} (hlow : ∀ l, low = some (.text l) → l ≤ value)
    (hhigh : ∀ h, high = some (.text h) → value ≤ h) : HasType (.text value) (.range .text low high)
  | case {name : String} {inner : Option (Value X)} {cases : List (String × Ty)} {isOpen : Bool} {type : Ty}
    (hcase : (name, type) ∈ cases) (h : HasType (inner.getD .unit) type) :
      HasType (.tag name inner) (.variant cases isOpen)
  | otherTag {name : String} {inner : Option (Value X)} {cases : List (String × Ty)}
      (hname : name ∉ cases.map Prod.fst) :
    HasType (.tag name inner) (.variant cases true)
  | record {fields : List (String × Ty)} {values : List (String × Value X)} (found : String → Value X)
    (hfound : ∀ field ∈ fields, values.lookup field.1 = some (found field.1))
    (h : ∀ field ∈ fields, HasType (found field.1) field.2) : HasType (.shape values) (.record fields)
  | union {value : Value X} {members : List Ty} {member : Ty} (hmember : member ∈ members) (h : HasType value member) :
    HasType value (.union members)

/-! ### What the columns read -/

/-- A pattern reads all of a record: a tuple has its number of fields, a shape names fields of the type. -/
def ReadsAll (fields : List (String × Ty)) (values : List (String × Value X)) : CoveragePattern → Prop
  | .tuple elements => values.length = elements.length
  | .shape patterns => patterns.map Prod.fst ⊆ fields.map Prod.fst
  | _ => True

/-- The matrix takes a value of a type to match a pattern. Where `whole` is set, nothing of the pattern is passed over:
a payload is there exactly when the pattern names it, and records are read in full. -/
inductive CoversAt (whole : Bool) : CoveragePattern → Ty → Value X → Prop where
  | any (type : Ty) (value : Value X) : CoversAt whole .any type value
  | unit : CoversAt whole .unit .unit .unit
  | int (value : ℤ) (type : Ty) : CoversAt whole (.int value) type (.int value)
  | text (value : String) (type : Ty) : CoversAt whole (.text value) type (.text value)
  | qualified {pattern : CoveragePattern} {requirements : List (MemberRequirement Ty)} {body : Ty} {value : Value X}
    (h : CoversAt whole pattern body value) : CoversAt whole pattern (.qualified requirements body) value
  | union {pattern : CoveragePattern} {members : List Ty} {member : Ty} {value : Value X} (hmember : member ∈ members)
    (h : CoversAt whole pattern member value) : CoversAt whole pattern (.union members) value
  | constructor {name : String} {payload : Option CoveragePattern} {cases : List (String × Ty)} {isOpen : Bool}
      {type : Ty}
    {inner : Option (Value X)} (hcase : (name, type) ∈ cases) (hwhole : whole = true → payload.isSome = inner.isSome)
    (h : CoversAt whole (payload.getD .unit) type (inner.getD .unit)) :
    CoversAt whole (.constructor name payload) (.variant cases isOpen) (.tag name inner)
  | record {pattern : CoveragePattern} {fields : List (String × Ty)} {parts : List CoveragePattern}
    {values : List (String × Value X)} (found : String → Value X) (hparts : elements fields pattern = some parts)
    (hfound : ∀ field ∈ fields, values.lookup field.1 = some (found field.1))
    (hwhole : whole = true → ReadsAll fields values pattern)
    (h : ∀ field part, (field, part) ∈ fields.zip parts → CoversAt whole part field.2 (found field.1)) :
    CoversAt whole pattern (.record fields) (.shape values)

/-- The matrix takes the values of the columns to match a row. -/
inductive RowCovers : CoverageRow → List Ty → List (Value X) → Prop where
  | nil : RowCovers [] [] []
  | cons {pattern : CoveragePattern} {row : CoverageRow} {type : Ty} {types : List Ty} {value : Value X}
    {values : List (Value X)} (h : CoversAt false pattern type value) (hrow : RowCovers row types values) :
    RowCovers (pattern :: row) (type :: types) (value :: values)

section Rows

variable {rows : List CoverageRow} {row : CoverageRow}

theorem mem_defaultRows (h : row ∈ defaultRows rows) : .any :: row ∈ rows := by
  obtain ⟨original, hmem, heq⟩ := List.mem_filterMap.1 h
  split at heq
  · obtain rfl := Option.some.inj heq
    exact hmem
  · cases heq

theorem mem_specializeUnit (h : row ∈ specializeUnit rows) : .any :: row ∈ rows ∨ .unit :: row ∈ rows := by
  obtain ⟨original, hmem, heq⟩ := List.mem_filterMap.1 h
  split at heq
  · obtain rfl := Option.some.inj heq
    exact .inl hmem
  · obtain rfl := Option.some.inj heq
    exact .inr hmem
  · cases heq

theorem mem_intRows {value : ℤ} (h : row ∈ intRows rows value) : .int value :: row ∈ rows := by
  obtain ⟨original, hmem, rfl⟩ := List.mem_map.1 h
  obtain ⟨hmem, hfirst⟩ := List.mem_filter.1 hmem
  match original with
  | .int found :: tail =>
    obtain rfl := Option.some.inj (of_decide_eq_true hfirst)
    exact hmem

theorem mem_textRows {value : String} (h : row ∈ textRows rows value) : .text value :: row ∈ rows := by
  obtain ⟨original, hmem, rfl⟩ := List.mem_map.1 h
  obtain ⟨hmem, hfirst⟩ := List.mem_filter.1 hmem
  match original with
  | .text found :: tail =>
    obtain rfl := Option.some.inj (of_decide_eq_true hfirst)
    exact hmem

theorem mem_caseRows {name : String} (h : row ∈ caseRows rows name) : ∃ tail,
    (row = .any :: tail ∧ .any :: tail ∈ rows) ∨
      ∃ payload, row = Option.getD payload .unit :: tail ∧ .constructor name payload :: tail ∈ rows := by
  rcases List.mem_append.1 h with h | h
  · obtain ⟨tail, htail, rfl⟩ := List.mem_map.1 h
    exact ⟨tail, .inl ⟨rfl, mem_defaultRows htail⟩⟩
  · obtain ⟨original, hmem, heq⟩ := List.mem_filterMap.1 h
    split at heq
    · next found payload tail =>
      split at heq
      · next hname =>
        obtain rfl := hname
        obtain rfl := Option.some.inj heq
        exact ⟨tail, .inr ⟨payload, rfl, hmem⟩⟩
      · cases heq
    · cases heq

theorem mem_recordRows {fields : List (String × Ty)} (h : row ∈ recordRows fields rows) : ∃ pattern parts tail,
    elements fields pattern = some parts ∧ row = parts ++ tail ∧ pattern :: tail ∈ rows := by
  obtain ⟨original, hmem, heq⟩ := List.mem_filterMap.1 h
  split at heq
  · next pattern tail =>
    obtain ⟨parts, hparts, rfl⟩ := Option.map_eq_some_iff.1 heq
    exact ⟨pattern, parts, tail, hparts, rfl, hmem⟩
  · cases heq

/-- The fields of a record are as many columns. -/
theorem length_elements {fields : List (String × Ty)} {pattern : CoveragePattern} {parts : List CoveragePattern}
    (h : elements fields pattern = some parts) : parts.length = fields.length := by
  unfold elements at h
  split at h
  · obtain rfl := Option.some.inj h
    exact List.length_map _
  · split at h
    · next hlength =>
      obtain rfl := Option.some.inj h
      exact hlength.2
    · cases h
  · obtain rfl := Option.some.inj h
    exact List.length_map _
  · cases h

/-- All rows have as many patterns as there are columns. -/
def Wide (rows : List CoverageRow) (types : List Ty) : Prop := ∀ row ∈ rows, row.length = types.length

section Widths

variable {type : Ty} {rest : List Ty}

theorem Wide.default (h : Wide rows (type :: rest)) : Wide (defaultRows rows) rest := fun _ hrow =>
  Nat.succ.inj (h _ (mem_defaultRows hrow))

theorem Wide.specializeUnit (h : Wide rows (type :: rest)) : Wide (specializeUnit rows) rest := by
  intro row hrow
  rcases mem_specializeUnit hrow with hmem | hmem
  · exact Nat.succ.inj (h _ hmem)
  · exact Nat.succ.inj (h _ hmem)

theorem Wide.withDefaults {specific : List CoverageRow} (h : Wide rows (type :: rest))
    (hspecific : Wide specific rest) :
    Wide (rowsWithDefaults (defaultRows rows) specific) rest :=
  List.forall_mem_append.2 ⟨h.default, hspecific⟩

theorem Wide.int (h : Wide rows (type :: rest)) (value : ℤ) : Wide (intRows rows value) rest := fun _ hrow =>
  Nat.succ.inj (h _ (mem_intRows hrow))

theorem Wide.text (h : Wide rows (type :: rest)) (value : String) : Wide (textRows rows value) rest := fun _ hrow =>
  Nat.succ.inj (h _ (mem_textRows hrow))

theorem Wide.case (h : Wide rows (type :: rest)) (name : String) (payload : Ty) :
    Wide (caseRows rows name) (payload :: rest) := by
  intro row hrow
  obtain ⟨tail, ⟨rfl, hmem⟩ | ⟨payload, rfl, hmem⟩⟩ := mem_caseRows hrow
  · exact h _ hmem
  · have hlength := h _ hmem
    exact hlength

theorem Wide.record {fields : List (String × Ty)} (h : Wide rows (type :: rest)) :
    Wide (recordRows fields rows) (columns fields ++ rest) := by
  intro row hrow
  obtain ⟨pattern, parts, tail, hparts, rfl, hmem⟩ := mem_recordRows hrow
  have htail : tail.length = rest.length := Nat.succ.inj (h _ hmem)
  rw [List.length_append, List.length_append, length_elements hparts, htail]
  unfold columns
  rw [List.length_map]

end Widths

end Rows

/-! ### Soundness of the matrix -/

/-- Some row takes the values to match. -/
def SomeRow (rows : List CoverageRow) (types : List Ty) (values : List (Value X)) : Prop :=
  ∃ row ∈ rows, RowCovers row types values

section Sound

variable {rows : List CoverageRow} {rest types : List Ty} {type : Ty} {value : Value X} {values : List (Value X)}

/-- What all rows of a specialised matrix read comes from the rows of the matrix. -/
theorem SomeRow.of_default (h : SomeRow (defaultRows rows) rest values) :
    SomeRow rows (type :: rest) (value :: values) := by
  obtain ⟨row, hrow, hcovers⟩ := h
  exact ⟨.any :: row, mem_defaultRows hrow, .cons (.any type value) hcovers⟩

theorem SomeRow.of_unit (h : SomeRow (specializeUnit rows) rest values) :
    SomeRow rows (.unit :: rest) (Value.unit :: values) := by
  obtain ⟨row, hrow, hcovers⟩ := h
  rcases mem_specializeUnit hrow with hmem | hmem
  · exact ⟨.any :: row, hmem, .cons (.any _ _) hcovers⟩
  · exact ⟨.unit :: row, hmem, .cons .unit hcovers⟩

theorem SomeRow.of_withDefaults {specific : List CoverageRow}
    (h : SomeRow (rowsWithDefaults (defaultRows rows) specific) rest values)
    (hspecific : ∀ row ∈ specific, ∃ pattern, pattern :: row ∈ rows ∧ CoversAt false pattern type value) :
    SomeRow rows (type :: rest) (value :: values) := by
  obtain ⟨row, hrow, hcovers⟩ := h
  rcases List.mem_append.1 hrow with hrow | hrow
  · exact SomeRow.of_default ⟨row, hrow, hcovers⟩
  · obtain ⟨pattern, hmem, hcover⟩ := hspecific row hrow
    exact ⟨pattern :: row, hmem, .cons hcover hcovers⟩

theorem SomeRow.of_int {n : ℤ} (h : SomeRow (rowsWithDefaults (defaultRows rows) (intRows rows n)) rest values) :
    SomeRow rows (type :: rest) (Value.int n :: values) :=
  h.of_withDefaults fun _ hrow => ⟨.int n, mem_intRows hrow, .int n type⟩

theorem SomeRow.of_text {text : String} {seen : Prop} [Decidable seen]
    (h : SomeRow (rowsWithDefaults (defaultRows rows) (if seen then [] else textRows rows text)) rest values) :
    SomeRow rows (type :: rest) (Value.text text :: values) := by
  refine h.of_withDefaults fun row hrow => ?_
  split at hrow
  · exact absurd hrow List.not_mem_nil
  · exact ⟨.text text, mem_textRows hrow, .text text type⟩

theorem SomeRow.of_case {name : String} {inner : Option (Value X)} {cases : List (String × Ty)} {isOpen : Bool}
    (hcase : (name, type) ∈ cases) (h : SomeRow (caseRows rows name) (type :: rest) (inner.getD .unit :: values)) :
    SomeRow rows (.variant cases isOpen :: rest) (Value.tag name inner :: values) := by
  obtain ⟨row, hrow, hcovers⟩ := h
  obtain ⟨tail, ⟨rfl, hmem⟩ | ⟨payload, rfl, hmem⟩⟩ := mem_caseRows hrow
  · obtain ⟨⟩ | ⟨-, hcovers⟩ := hcovers
    exact ⟨_, hmem, .cons (.any _ _) hcovers⟩
  · obtain ⟨⟩ | ⟨hcover, hcovers⟩ := hcovers
    exact ⟨_, hmem, .cons (.constructor hcase nofun hcover) hcovers⟩

theorem RowCovers.split {found : String → Value X} {fields : List (String × Ty)} {parts tail : List CoveragePattern}
    (hlength : parts.length = fields.length)
    (h : RowCovers (parts ++ tail) (columns fields ++ rest) (fields.map (fun field => found field.1) ++ values)) :
    (∀ field part, (field, part) ∈ fields.zip parts → CoversAt false part field.2 (found field.1)) ∧
      RowCovers tail rest values := by
  induction fields generalizing parts with
  | nil =>
    obtain rfl := List.length_eq_zero_iff.1 hlength
    exact ⟨fun field part hmem => absurd hmem List.not_mem_nil, h⟩
  | cons field fields ih =>
    match parts with
    | part :: parts =>
      obtain ⟨⟩ | ⟨hcover, hcovers⟩ := h
      obtain ⟨hparts, htail⟩ := ih (Nat.succ.inj hlength) hcovers
      refine ⟨fun field' part' hmem => ?_, htail⟩
      rcases List.mem_cons.1 hmem with heq | hmem
      · obtain ⟨rfl, rfl⟩ := Prod.mk.inj heq
        exact hcover
      · exact hparts field' part' hmem

theorem SomeRow.of_record {fields : List (String × Ty)} {entries : List (String × Value X)} {found : String → Value X}
    (hfound : ∀ field ∈ fields, entries.lookup field.1 = some (found field.1))
    (h : SomeRow (recordRows fields rows) (columns fields ++ rest)
      (fields.map (fun field => found field.1) ++ values)) :
    SomeRow rows (.record fields :: rest) (Value.shape entries :: values) := by
  obtain ⟨row, hrow, hcovers⟩ := h
  obtain ⟨pattern, parts, tail, hparts, rfl, hmem⟩ := mem_recordRows hrow
  obtain ⟨hfields, htail⟩ := hcovers.split (length_elements hparts)
  exact ⟨pattern :: tail, hmem, .cons (.record found hparts hfound nofun hfields) htail⟩

theorem SomeRow.of_qualified {requirements : List (MemberRequirement Ty)}
    (h : SomeRow rows (type :: rest) (value :: values)) :
    SomeRow rows (.qualified requirements type :: rest) (value :: values) := by
  obtain ⟨row, hmem, ⟨⟩ | ⟨hcover, hcovers⟩⟩ := h
  exact ⟨_, hmem, .cons (.qualified hcover) hcovers⟩

theorem SomeRow.of_member {members : List Ty} (hmember : type ∈ members)
    (h : SomeRow rows (type :: rest) (value :: values)) : SomeRow rows (.union members :: rest) (value :: values) := by
  obtain ⟨row, hmem, ⟨⟩ | ⟨hcover, hcovers⟩⟩ := h
  exact ⟨_, hmem, .cons (.union hmember hcover) hcovers⟩

theorem mem_of_length_eq {named : List ℤ} {low high n : ℤ} (hnodup : named.Nodup)
    (hrange : ∀ m ∈ named, low ≤ m ∧ m ≤ high) (hlength : high - low + 1 = (named.length : ℤ)) (hlow : low ≤ n)
    (hhigh : n ≤ high) : n ∈ named := by
  have hsub : named.toFinset ⊆ Finset.Icc low high := fun m hm =>
    Finset.mem_Icc.2 (hrange m (List.mem_toFinset.1 hm))
  have hcard : (Finset.Icc low high).card ≤ named.toFinset.card := by
    rw [Int.card_Icc, List.toFinset_card_of_nodup hnodup]
    omega
  have heq := Finset.eq_of_subset_of_card_le hsub hcard
  exact List.mem_toFinset.1 (heq ▸ Finset.mem_Icc.2 ⟨hlow, hhigh⟩)

theorem someRow_of_integerRange {covers : List CoverageRow → Bool} {low high : Option Scalar} {n : ℤ}
    (hwide : Wide rows (.range .int low high :: rest))
    (hcovers : ∀ rows', Wide rows' rest → covers rows' = true → SomeRow rows' rest values)
    (hlow : ∀ l, low = some (.int l) → l ≤ n) (hhigh : ∀ h, high = some (.int h) → n ≤ h)
    (h : coverageIntegerRange covers rows low high = true) :
    SomeRow rows (.range .int low high :: rest) (Value.int n :: values) := by
  unfold coverageIntegerRange at h
  split at h
  · next low high =>
    have hlow := hlow low rfl
    have hhigh := hhigh high rfl
    rw [if_neg (by omega)] at h
    obtain ⟨hnamed, hrest⟩ := Bool.and_eq_true_iff.1 h
    by_cases hn : n ∈ (Ascending.ofList (rows.filterMap firstInt)).elements.filter fun v => low ≤ v ∧ v ≤ high
    · exact SomeRow.of_int (hcovers _ (hwide.withDefaults (hwide.int n)) (List.all_eq_true.1 hnamed n hn))
    · rcases Bool.or_eq_true_iff.1 hrest with hlength | hdefault
      · refine absurd (mem_of_length_eq ?_ (fun m hm => ?_) (of_decide_eq_true hlength) hlow hhigh) hn
        · exact ((Ascending.ofList _).ascending.imp fun h => ne_of_lt h).filter _
        · exact of_decide_eq_true (List.mem_filter.1 hm).2
      · exact SomeRow.of_default (hcovers _ hwide.default hdefault)
  · exact SomeRow.of_default (hcovers _ hwide.default h)

theorem someRow_of_textValues {covers : List CoverageRow → Bool} {texts : List String} {text : String}
    (hwide : Wide rows (type :: rest))
    (hcovers : ∀ rows', Wide rows' rest → covers rows' = true → SomeRow rows' rest values) (htext : text ∈ texts)
    (h : coverageTextValues covers rows texts = true) : SomeRow rows (type :: rest) (Value.text text :: values) := by
  obtain ⟨i, hi⟩ := List.mem_iff_getElem?.1 htext
  have hmem : (text, i) ∈ texts.zipIdx := List.mem_zipIdx_iff_getElem?.2 hi
  have hcover := List.all_eq_true.1 h (text, i) hmem
  refine SomeRow.of_text (hcovers _ (hwide.withDefaults ?_) hcover)
  split
  · exact fun row hrow => absurd hrow List.not_mem_nil
  · exact hwide.text text

theorem eq_int_of_singleInt {n : ℤ} (h : singleInt type = some n) (hvalue : HasType value type) : value = .int n := by
  unfold singleInt at h
  split at h
  · next low high =>
    split at h
    · next heq =>
      obtain rfl := Option.some.inj h
      obtain rfl := heq
      cases hvalue with
      | opaqueForm hform => exact absurd hform id
      | int hlow hhigh => rw [le_antisymm (hhigh low rfl) (hlow low rfl)]
    · cases h
  · cases h

theorem eq_text_of_singleText {text : String} (h : singleText type = some text) (hvalue : HasType value type) :
    value = .text text := by
  unfold singleText at h
  split at h
  · next low high =>
    split at h
    · next heq =>
      obtain rfl := Option.some.inj h
      obtain rfl := heq
      cases hvalue with
      | opaqueForm hform => exact absurd hform id
      | text hlow hhigh => rw [le_antisymm (hhigh low rfl) (hlow low rfl)]
    · cases h
  · cases h

theorem isBottom_of_isEmpty (h : coverageMatrix rows (type :: rest) = true) (hrows : rows.isEmpty = true) :
    isBottom type = true := by
  unfold coverageMatrix at h
  rwa [if_pos hrows] at h

theorem coverageMatrix_of_opaqueForm (hform : Opaque type) (hrows : ¬ rows.isEmpty = true) :
    coverageMatrix rows (type :: rest) = coverageMatrix (defaultRows rows) rest := by
  cases type with
  | range domain low high =>
    cases domain with
    | int => exact absurd hform id
    | text => exact absurd hform id
    | _ =>
      rw [coverageMatrix, if_neg hrows]
      · rfl
      all_goals simp
  | qualified requirements body => exact absurd hform id
  | unit => exact absurd hform id
  | record fields => exact absurd hform id
  | variant cases isOpen => exact absurd hform id
  | union members => exact absurd hform id
  | bottom => exact absurd hform id
  | _ =>
    rw [coverageMatrix, if_neg hrows]
    · rfl
    all_goals simp

theorem coverageMatrix_text {low high : Option Scalar} (hrows : ¬ rows.isEmpty = true) :
    coverageMatrix rows (.range .text low high :: rest) =
      match singleText (.range .text low high) with
      | some text => coverageTextValues (coverageMatrix · rest) rows [text]
      | none => coverageMatrix (defaultRows rows) rest := by
  rw [coverageMatrix, if_neg hrows]
  all_goals first | rfl | simp

/-- **The matrix is sound**: when it covers its columns, some row takes any values of their types to match. -/
theorem coverageMatrix_sound (types : List Ty) (rows : List CoverageRow) (values : List (Value X))
    (hwide : Wide rows types) (htyped : List.Forall₂ HasType values types) (h : coverageMatrix rows types = true) :
    SomeRow rows types values := by
  induction hsize : sizeOf types using Nat.strong_induction_on generalizing types rows values with
  | _ size ih =>
    subst hsize
    have ih : ∀ types' rows' values', sizeOf types' < sizeOf types → Wide rows' types' →
        List.Forall₂ HasType values' types' → coverageMatrix rows' types' = true → SomeRow rows' types' values' :=
      fun types' rows' values' hlt hwide' htyped' h' => ih _ hlt types' rows' values' hwide' htyped' h' rfl
    cases htyped with
    | nil =>
      rw [coverageMatrix_nil] at h
      cases rows with
      | nil => cases h
      | cons row rows =>
        obtain rfl := List.length_eq_zero_iff.1 (hwide row List.mem_cons_self)
        exact ⟨[], List.mem_cons_self, .nil⟩
    | @cons value type values rest hvalue hvalues =>
      have hrest : ∀ rows', Wide rows' rest → coverageMatrix rows' rest = true → SomeRow rows' rest values :=
        fun rows' hwide' h' => ih rest rows' values (by simp only [List.cons.sizeOf_spec]; omega) hwide' hvalues h'
      by_cases hrows : rows.isEmpty = true
      · -- no rows: the type has no values
        have hbottom := isBottom_of_isEmpty h hrows
        cases hvalue with
        | opaqueForm hform =>
          cases type with
          | bottom => exact absurd hform id
          | _ => cases hbottom
        | _ => cases hbottom
      cases hvalue with
      | opaqueForm hform =>
        rw [coverageMatrix_of_opaqueForm hform hrows] at h
        exact SomeRow.of_default (hrest _ hwide.default h)
      | qualified hbody =>
        rw [coverageMatrix, if_neg hrows] at h
        refine SomeRow.of_qualified (ih _ rows _ ?_ hwide (.cons hbody hvalues) h)
        simp only [List.cons.sizeOf_spec, Ty.qualified.sizeOf_spec]
        omega
      | unit =>
        rw [coverageMatrix, if_neg hrows] at h
        exact SomeRow.of_unit (hrest _ hwide.specializeUnit h)
      | int hlow hhigh =>
        rw [coverageMatrix, if_neg hrows] at h
        exact someRow_of_integerRange hwide hrest hlow hhigh h
      | @text text low high hlow hhigh =>
        rw [coverageMatrix_text hrows] at h
        split at h
        · next single hsingle =>
          have hvalue : HasType (Value.text text : Value X) (.range .text low high) := .text hlow hhigh
          obtain rfl := Value.text.inj (eq_text_of_singleText hsingle hvalue)
          exact someRow_of_textValues hwide hrest List.mem_cons_self h
        · exact SomeRow.of_default (hrest _ hwide.default h)
      | @case name inner cases isOpen payload hcase hinner =>
        rw [coverageMatrix, if_neg hrows] at h
        have hcovers := List.all_eq_true.1 (Bool.and_eq_true_iff.1 h).2 ⟨(name, payload), hcase⟩ (List.mem_attach _ _)
        refine SomeRow.of_case hcase (ih _ _ _ ?_ (hwide.case name payload) (.cons hinner hvalues) hcovers)
        have hlt : sizeOf payload < sizeOf cases := Ty.sizeOf_lt_of_mem_row (List.mem_map_of_mem hcase)
        simp only [List.cons.sizeOf_spec, Ty.variant.sizeOf_spec]
        omega
      | otherTag hname =>
        rw [coverageMatrix, if_neg hrows] at h
        exact SomeRow.of_default (hrest _ hwide.default (Bool.and_eq_true_iff.1 h).1)
      | @record fields entries found hfound hfields =>
        rw [coverageMatrix, if_neg hrows] at h
        refine SomeRow.of_record hfound (ih _ _ _ ?_ hwide.record ?_ h)
        · have happend := sizeOf_append (columns fields) rest
          have hcolumns := sizeOf_columns fields
          simp only [List.cons.sizeOf_spec, Ty.record.sizeOf_spec]
          omega
        · refine List.rel_append ?_ hvalues
          unfold columns
          exact List.forall₂_map_left_iff.2 (List.forall₂_map_right_iff.2 (List.forall₂_same.2 hfields))
      | @union value members member hmember hvalue =>
        rw [coverageMatrix, if_neg hrows] at h
        split at h
        · next integers hintegers =>
          obtain ⟨n, hn, hsingle⟩ := exists_of_mapM hintegers member hmember
          obtain rfl := eq_int_of_singleInt hsingle hvalue
          have hcovers := List.all_eq_true.1 h n (Ascending.mem_ofList.2 hn)
          exact SomeRow.of_int (hrest _ (hwide.withDefaults (hwide.int n)) hcovers)
        · split at h
          · next texts htexts =>
            obtain ⟨text, htext, hsingle⟩ := exists_of_mapM htexts member hmember
            obtain rfl := eq_text_of_singleText hsingle hvalue
            exact someRow_of_textValues hwide hrest htext h
          · have hcovers := List.all_eq_true.1 h ⟨member, hmember⟩ (List.mem_attach _ _)
            refine SomeRow.of_member hmember (ih _ rows _ ?_ hwide (.cons hvalue hvalues) hcovers)
            have hlt := List.sizeOf_lt_of_mem hmember
            simp only [List.cons.sizeOf_spec, Ty.union.sizeOf_spec]
            omega

end Sound

/-! ### What is read in full is matched -/

theorem coveragePatterns_eq_map (patterns : List Pattern) :
    coveragePatterns patterns = patterns.map coveragePattern := by
  induction patterns with
  | nil => rfl
  | cons pattern patterns ih =>
    rw [coveragePatterns, ih]
    rfl

theorem coverageFields_eq_map (fields : List (String × Pattern)) :
    coverageFields fields = fields.map fun field => (field.1, coveragePattern field.2) := by
  induction fields with
  | nil => rfl
  | cons field fields ih =>
    obtain ⟨name, pattern⟩ := field
    rw [coverageFields, ih]
    rfl

mutual
/-- No shape names a field twice. -/
def Pattern.Distinct : Pattern → Prop
  | .tuple elements => DistinctAll elements
  | .constructor _ payload => DistinctPayload payload
  | .shape fields => (fields.map Prod.fst).Nodup ∧ DistinctFields fields
  | _ => True
def DistinctAll : List Pattern → Prop
  | [] => True
  | pattern :: rest => pattern.Distinct ∧ DistinctAll rest
def DistinctPayload : Option Pattern → Prop
  | none => True
  | some pattern => pattern.Distinct
def DistinctFields : List (String × Pattern) → Prop
  | [] => True
  | (_, pattern) :: rest => pattern.Distinct ∧ DistinctFields rest
end

section Inversion

variable {whole : Bool} {type : Ty} {value : Value X}

def LeafOf : CoveragePattern → Value X → Prop
  | .refutable, _ => False
  | .unit, value => value = .unit
  | .int n, value => value = .int n
  | .text text, value => value = .text text
  | _, _ => True

theorem CoversAt.leafOf {pattern : CoveragePattern} (h : CoversAt whole pattern type value) : LeafOf pattern value := by
  induction h with
  | any => trivial
  | unit => rfl
  | int => rfl
  | text => rfl
  | qualified _ ih => exact ih
  | union _ _ ih => exact ih
  | constructor => trivial
  | @record pattern _ _ _ found hparts =>
    cases pattern with
    | refutable => cases hparts
    | unit => cases hparts
    | int value => cases hparts
    | text value => cases hparts
    | _ => trivial

theorem CoversAt.constructor_cases {name : String} {payload : Option CoveragePattern}
    (h : CoversAt whole (.constructor name payload) type value) : ∃ inner payloadType, value = .tag name inner ∧
      (whole = true → payload.isSome = inner.isSome) ∧
      CoversAt whole (payload.getD .unit) payloadType (Option.getD inner .unit) := by
  generalize hp : CoveragePattern.constructor name payload = pattern at h
  induction h with
  | constructor hcase hwhole h =>
    obtain ⟨rfl, rfl⟩ := CoveragePattern.constructor.inj hp
    exact ⟨_, _, rfl, hwhole, h⟩
  | qualified _ ih => exact ih hp
  | union _ _ ih => exact ih hp
  | record found hparts =>
    subst hp
    cases hparts
  | _ => cases hp

/-- A tuple or a shape takes records to match only. -/
theorem CoversAt.record_cases {pattern : CoveragePattern} (h : CoversAt whole pattern type value)
    (hp : (∃ elements, pattern = .tuple elements) ∨ ∃ patterns, pattern = .shape patterns) :
    ∃ (fields : List (String × Ty)) (parts : List CoveragePattern) (values : List (String × Value X))
      (found : String → Value X), value = .shape values ∧ elements fields pattern = some parts ∧
      (∀ field ∈ fields, values.lookup field.1 = some (found field.1)) ∧
        (whole = true → ReadsAll fields values pattern) ∧
      ∀ field part, (field, part) ∈ fields.zip parts → CoversAt whole part field.2 (found field.1) := by
  induction h with
  | qualified _ ih => exact ih hp
  | union _ _ ih => exact ih hp
  | record found hparts hfound hwhole h => exact ⟨_, _, _, found, rfl, hparts, hfound, hwhole, h⟩
  | _ => rcases hp with ⟨_, heq⟩ | ⟨_, heq⟩ <;> cases heq

end Inversion

section Whole

variable {equal : Value X → Value X → Bool}

theorem name_of_isTuple {fields : List (String × Ty)} (h : isTuple fields = true) {i : ℕ} (hi : i < fields.length) :
    fields[i].1 = toString i :=
  of_decide_eq_true (List.all_eq_true.1 h (fields[i], i) (List.mem_zipIdx_iff_getElem?.2 (List.getElem?_eq_getElem hi)))

theorem asTuple_shape {fields : List (String × Ty)} {values : List (String × Value X)} {found : String → Value X}
    (htuple : isTuple fields = true) (hfound : ∀ field ∈ fields, values.lookup field.1 = some (found field.1))
    (hlength : values.length = fields.length) :
    asTuple (.shape values) fields.length = some ((List.range fields.length).map fun i => found (toString i)) := by
  unfold asTuple
  dsimp only
  rw [if_pos hlength]
  refine mapM_eq_some_map fun i hi => ?_
  have hlt := List.mem_range.1 hi
  rw [← name_of_isTuple htuple hlt]
  exact hfound _ (List.getElem_mem hlt)

theorem parts_of_tuple {fields : List (String × Ty)} {patterns parts : List CoveragePattern}
    (h : elements fields (.tuple patterns) = some parts) :
    isTuple fields = true ∧ patterns.length = fields.length ∧ parts = patterns := by
  unfold elements at h
  dsimp only at h
  split at h
  · next hcond => exact ⟨hcond.1, hcond.2, (Option.some.inj h).symm⟩
  · cases h

theorem mem_zip_map {A B : Type} (f : A → B) {a : A} {l : List A} (h : a ∈ l) : (a, f a) ∈ l.zip (l.map f) := by
  induction l with
  | nil => cases h
  | cons b l ih =>
    rw [List.map_cons, List.zip_cons_cons]
    rcases List.mem_cons.1 h with rfl | h
    · exact List.mem_cons_self
    · exact List.mem_cons_of_mem _ (ih h)

theorem extend_coverageFields {fields : List (String × Pattern)} (h : (fields.map Prod.fst).Nodup) :
    Table.extend [] (coverageFields fields) = fields.map fun field => (field.1, coveragePattern field.2) := by
  rw [coverageFields_eq_map, Table.extend_of_nodup, List.nil_append]
  rw [List.nil_append, List.map_map]
  exact h

mutual
/-- **A value that a pattern reads in full is matched.** -/
theorem matches_of_whole (pattern : Pattern) (hdistinct : pattern.Distinct) {type : Ty} {value : Value X}
    (h : CoversAt true (coveragePattern pattern) type value) (names : Names X) : Matches equal names pattern value := by
  match pattern with
  | .name name => rfl
  | .wildcard => rfl
  | .pin name => exact absurd h.leafOf id
  | .float expected => exact absurd h.leafOf id
  | .array elements => exact absurd h.leafOf id
  | .int n =>
    obtain rfl : value = .int n := h.leafOf
    exact decide_eq_true rfl
  | .text text =>
    obtain rfl : value = .text text := h.leafOf
    exact decide_eq_true rfl
  | .unit =>
    obtain rfl : value = .unit := h.leafOf
    rfl
  | .constructor name payload =>
    obtain ⟨inner, type', rfl, hwhole, hpayload⟩ := h.constructor_cases
    unfold Matches
    rw [matchPattern, if_pos rfl]
    exact matches_payload payload hdistinct (hwhole rfl) hpayload names
  | .tuple patterns =>
    obtain ⟨fields, parts, values, found, rfl, hparts, hfound, hwhole, hcovers⟩ := h.record_cases (.inl ⟨_, rfl⟩)
    obtain ⟨htuple, hlength, rfl⟩ := parts_of_tuple hparts
    have harity : patterns.length = fields.length := by rw [← hlength, coveragePatterns_eq_map, List.length_map]
    have hvalues : values.length = fields.length := (hwhole rfl).trans hlength
    unfold Matches
    rw [matchPattern, harity, asTuple_shape htuple hfound hvalues]
    refine matches_all patterns hdistinct (List.forall₂_of_length_eq_of_get ?_ fun i hi hi' => ?_) names
    · rw [List.length_map, List.length_range, harity]
    · have hfield : i < fields.length := harity ▸ hi
      have hpart : i < (coveragePatterns patterns).length := hlength ▸ hfield
      have hmem : (fields[i], (coveragePatterns patterns)[i]) ∈ fields.zip (coveragePatterns patterns) :=
        List.mem_iff_getElem?.2 ⟨i, List.getElem?_zip_eq_some.2
          ⟨List.getElem?_eq_getElem hfield, List.getElem?_eq_getElem hpart⟩⟩
      have hname := name_of_isTuple htuple hfield
      refine ⟨fields[i].2, ?_⟩
      have hcover := hcovers _ _ hmem
      simp only [List.get_eq_getElem, List.getElem_map, List.getElem_range, ← hname]
      simpa only [coveragePatterns_eq_map, List.getElem_map] using hcover
  | .shape fields =>
    obtain ⟨types, parts, values, found, rfl, hparts, hfound, hwhole, hcovers⟩ := h.record_cases (.inr ⟨_, rfl⟩)
    obtain rfl := Option.some.inj hparts
    unfold Matches
    rw [matchPattern]
    refine matches_fields fields hdistinct.2 (fun name pattern hmem => ?_) names
    have hread : ReadsAll types values (.shape (Table.extend [] (coverageFields fields))) := hwhole rfl
    rw [extend_coverageFields hdistinct.1] at hread hcovers
    have hentry : (name, coveragePattern pattern) ∈ fields.map fun field => (field.1, coveragePattern field.2) :=
      List.mem_map.2 ⟨(name, pattern), hmem, rfl⟩
    have hnodup : ((fields.map fun field => (field.1, coveragePattern field.2)).map Prod.fst).Nodup := by
      rw [List.map_map]
      exact hdistinct.1
    obtain ⟨⟨label, type⟩, htype, rfl⟩ := List.mem_map.1 (hread (List.mem_map_of_mem hentry))
    have hpart := Table.lookup_of_mem hnodup hentry
    refine ⟨type, found label, hfound _ htype, hcovers (label, type) (coveragePattern pattern) ?_⟩
    have hzip := mem_zip_map (fun field : String × Ty =>
      ((fields.map fun field => (field.1, coveragePattern field.2)).lookup field.1).getD .any) htype
    rwa [hpart] at hzip
termination_by structural pattern
theorem matches_payload (payload : Option Pattern) (hdistinct : DistinctPayload payload) {type : Ty}
    {inner : Option (Value X)} (hwhole : (coveragePayload payload).isSome = inner.isSome)
    (h : CoversAt true ((coveragePayload payload).getD .unit) type (inner.getD .unit)) (names : Names X) :
    (matchPayload equal payload inner names).1 = true := by
  match payload, inner with
  | none, none => rfl
  | some pattern, some value => exact matches_of_whole pattern hdistinct h names
  | none, some value => cases hwhole
  | some pattern, none => cases hwhole
termination_by structural payload
theorem matches_all (patterns : List Pattern) (hdistinct : DistinctAll patterns) {values : List (Value X)}
    (h : List.Forall₂ (fun pattern value => ∃ type, CoversAt true (coveragePattern pattern) type value) patterns values)
    (names : Names X) : (matchAll equal patterns values names).1 = true := by
  match patterns, values with
  | [], [] => rfl
  | pattern :: patterns, value :: values =>
    obtain ⟨⟨type, hcovers⟩, hrest⟩ := List.forall₂_cons.1 h
    have hmatches : Matches equal names pattern value := matches_of_whole pattern hdistinct.1 hcovers names
    unfold Matches at hmatches
    rw [matchAll]
    cases hresult : matchPattern equal pattern value names with
    | mk matched names' =>
      rw [hresult] at hmatches
      obtain rfl : matched = true := hmatches
      exact matches_all patterns hdistinct.2 hrest names'
termination_by structural patterns
theorem matches_fields (fields : List (String × Pattern)) (hdistinct : DistinctFields fields)
    {values : List (String × Value X)}
    (h : ∀ name pattern, (name, pattern) ∈ fields →
      ∃ type value, values.lookup name = some value ∧ CoversAt true (coveragePattern pattern) type value)
    (names : Names X) : (matchFields equal fields values names).1 = true := by
  match fields with
  | [] => rfl
  | (name, pattern) :: rest =>
    obtain ⟨type, value, hlookup, hcovers⟩ := h name pattern List.mem_cons_self
    have hmatches : Matches equal names pattern value := matches_of_whole pattern hdistinct.1 hcovers names
    unfold Matches at hmatches
    rw [matchFields, hlookup]
    dsimp only
    cases hresult : matchPattern equal pattern value names with
    | mk matched names' =>
      rw [hresult] at hmatches
      obtain rfl : matched = true := hmatches
      exact matches_fields rest hdistinct.2 (fun name' pattern' hmem => h name' pattern' (List.mem_cons_of_mem _ hmem))
        names'
termination_by structural fields
end

/-- An arm takes a value of the type to match. -/
def Takes (whole : Bool) (type : Ty) (pattern : Pattern) (value : Value X) : Prop :=
  CoversAt whole (coveragePattern pattern) type value

/-- An arm takes a value to match but does not read all of it: a tuple or a shape passes over fields, or a payload is
there that is not named, or named and not there. -/
def Slips (type : Ty) (pattern : Pattern) (value : Value X) : Prop :=
  Takes false type pattern value ∧ ¬ (pattern.Distinct ∧ Takes true type pattern value)

theorem exists_takes {arms : List Pattern} {type : Ty} {value : Value X} (h : patternsCover arms type = true)
    (hvalue : HasType value type) : ∃ pattern ∈ arms, Takes false type pattern value := by
  have hwide : Wide (arms.map fun pattern => [coveragePattern pattern]) [type] :=
    List.forall_mem_map.2 fun pattern hpattern => rfl
  obtain ⟨row, hrow, hcovers⟩ := coverageMatrix_sound [type] _ [value] hwide (.cons hvalue .nil) h
  obtain ⟨pattern, hpattern, rfl⟩ := List.mem_map.1 hrow
  obtain ⟨⟩ | ⟨hcover, -⟩ := hcovers
  exact ⟨pattern, hpattern, hcover⟩

/-- **Exhaustive arms** match every value of the type exactly when every value that slips through one of them is matched
by some arm. -/
theorem patternsCover_exact (equal : Value X → Value X → Bool) (arms : List Pattern) (type : Ty)
    (h : patternsCover arms type = true) :
    (∀ value names, HasType value type → ∃ pattern ∈ arms, Matches equal names pattern value) ↔
      ∀ value names, HasType value type → ∀ pattern ∈ arms, Slips type pattern value →
        ∃ other ∈ arms, Matches equal names other value := by
  constructor
  · intro hall value names hvalue pattern _ _
    exact hall value names hvalue
  · intro hslips value names hvalue
    obtain ⟨pattern, hpattern, htakes⟩ := exists_takes h hvalue
    by_cases hwhole : pattern.Distinct ∧ Takes true type pattern value
    · exact ⟨pattern, hpattern, matches_of_whole pattern hwhole.1 hwhole.2 names⟩
    · exact hslips value names hvalue pattern hpattern ⟨htakes, hwhole⟩

end Whole

/-! ### Arms that let values slip -/

/-- The integers. -/
def integers : Ty := .range .int none none

def pair : Ty := .record [("0", integers), ("1", integers)]

/-- A pair is taken apart by `(x, y)`, but it may have more fields than two. -/
theorem patternsCover_pair : patternsCover [.tuple [.name "x", .name "y"]] pair = true := by
  have hparts : recordRows [("0", integers), ("1", integers)] [[coveragePattern (.tuple [.name "x", .name "y"])]] =
      [[.any, .any]] := rfl
  unfold patternsCover pair
  rw [List.map_cons, List.map_nil, coverageMatrix, if_neg (by simp), hparts, columns, List.map_cons, List.map_cons,
    List.map_nil, List.cons_append, List.cons_append, List.nil_append, integers]
  rw [coverageMatrix, if_neg (by simp)]
  show coverageMatrix [[.any]] [integers] = true
  unfold integers
  rw [coverageMatrix, if_neg (by simp)]
  show coverageMatrix [[]] [] = true
  rw [coverageMatrix_nil]
  rfl

theorem patternsCover_exact_pair :
    (∀ (value : Value Unit) names, HasType value pair →
      ∃ pattern ∈ [Pattern.tuple [.name "x", .name "y"]], Matches (fun _ _ => false) names pattern value) ↔
    ∀ (value : Value Unit) names, HasType value pair → ∀ pattern ∈ [Pattern.tuple [.name "x", .name "y"]],
      Slips pair pattern value →
        ∃ other ∈ [Pattern.tuple [.name "x", .name "y"]], Matches (fun _ _ => false) names other value :=
  patternsCover_exact (fun _ _ => false) [.tuple [.name "x", .name "y"]] pair patternsCover_pair

/-- A constructor without a payload carries `Unit`. -/
theorem patternsCover_none : patternsCover [.constructor "None" none] (.variant [("None", .unit)] false) = true := by
  have hrows : caseRows [[coveragePattern (.constructor "None" none)]] "None" = [[.unit]] := rfl
  unfold patternsCover
  rw [List.map_cons, List.map_nil, coverageMatrix, if_neg (by simp), Bool.not_false, Bool.true_or, Bool.true_and,
    List.all_eq_true]
  rintro ⟨c, hc⟩ -
  obtain rfl := List.mem_singleton.1 hc
  rw [hrows, coverageMatrix, if_neg (by simp)]
  show coverageMatrix [[]] [] = true
  rw [coverageMatrix_nil]
  rfl

/-- A triple is a value of a pair, and `#None ()` one of `#None`; neither is matched by the arms that cover the type. -/
theorem patternsCover_unsound :
    (patternsCover [.tuple [.name "x", .name "y"]] pair = true ∧
      HasType (Value.shape [("0", .int 1), ("1", .int 2), ("2", .int 3)] : Value Unit) pair ∧
      ∀ equal names, ¬ ∃ pattern ∈ [Pattern.tuple [.name "x", .name "y"]],
        Matches equal names pattern (Value.shape [("0", .int 1), ("1", .int 2), ("2", .int 3)] : Value Unit)) ∧
    (patternsCover [.constructor "None" none] (.variant [("None", .unit)] false) = true ∧
      HasType (Value.tag "None" (some .unit) : Value Unit) (.variant [("None", .unit)] false) ∧
      ∀ equal names, ¬ ∃ pattern ∈ [Pattern.constructor "None" none],
        Matches equal names pattern (Value.tag "None" (some .unit) : Value Unit)) := by
  refine ⟨⟨patternsCover_pair, ?_, ?_⟩, patternsCover_none, .case List.mem_cons_self .unit, ?_⟩
  · refine .record (fun name => if name = "0" then .int 1 else .int 2) ?_ ?_
    · intro field hfield
      rcases List.mem_cons.1 hfield with rfl | hfield
      · rfl
      · obtain rfl := List.mem_singleton.1 hfield
        rfl
    · intro field hfield
      rcases List.mem_cons.1 hfield with rfl | hfield
      · exact .int nofun nofun
      · obtain rfl := List.mem_singleton.1 hfield
        exact .int nofun nofun
  · rintro equal names ⟨pattern, hpattern, hmatches⟩
    obtain rfl := List.mem_singleton.1 hpattern
    cases hmatches
  · rintro equal names ⟨pattern, hpattern, hmatches⟩
    obtain rfl := List.mem_singleton.1 hpattern
    cases hmatches

end Blot.Coverage
