import Blot.Support.Attempt
import Blot.Support.Checks
import Mathlib.Algebra.Order.Ring.Nat

/-!
# Frames between the host and the compiler (`host_transport.rs`)

* `Decoder` — how a frame is read;
* `Takes` — a reader takes the values of a format from their bytes, and nothing else.
-/

namespace Blot.Transport

open Blot.Support

/-! ### Bytes -/

/-- `to_le_bytes` of a `u32`; what is above 32 bits is dropped. -/
def toLeBytes (value : ℕ) : List UInt8 :=
  [UInt8.ofNat value, UInt8.ofNat (value / 2 ^ 8), UInt8.ofNat (value / 2 ^ 16), UInt8.ofNat (value / 2 ^ 24)]

def fromLeBytes : List UInt8 → ℕ
  | [] => 0
  | byte :: rest => byte.toNat + 2 ^ 8 * fromLeBytes rest

theorem fromLeBytes_eq_iff {code : List UInt8} {value : ℕ} (h : code.length = 4) :
    fromLeBytes code = value ↔ value < 2 ^ 32 ∧ code = toLeBytes value := by
  obtain ⟨a, b, c, d, rfl⟩ : ∃ a b c d, code = [a, b, c, d] := by
    match code, h with
    | [a, b, c, d], _ => exact ⟨a, b, c, d, rfl⟩
  have ha := a.toNat_lt
  have hb := b.toNat_lt
  have hc := c.toNat_lt
  have hd := d.toNat_lt
  simp only [fromLeBytes, toLeBytes, List.cons.injEq, and_true, ← UInt8.toNat_inj, UInt8.toNat_ofNat']
  omega

/-- `as_bytes` -/
def utf8 (text : String) : List UInt8 := text.toByteArray.data.toList

def fromUtf8 (bytes : List UInt8) : Option String := String.fromUTF8? ⟨bytes.toArray⟩

theorem fromUtf8_eq_some {bytes : List UInt8} {text : String} : fromUtf8 bytes = some text ↔ bytes = utf8 text := by
  unfold fromUtf8 String.fromUTF8? utf8
  constructor
  · intro h
    split at h
    · cases h
      rfl
    · cases h
  · rintro rfl
    exact dif_pos text.isValidUTF8

/-! ### Readers -/

/-- `Decoder`; the bytes are a part of the linear memory. -/
structure Decoder where
  bytes : List UInt8
  offset : ℕ
  fits : bytes.length < 2 ^ 32
  within : offset ≤ bytes.length

/-- A frame of which nothing is read. -/
def Decoder.start (bytes : List UInt8) (fits : bytes.length < 2 ^ 32) : Decoder := ⟨bytes, 0, fits, Nat.zero_le _⟩

abbrev Read (α : Type) := Attempt Decoder String α

/-- What is still to be read. -/
def Decoder.ahead (d : Decoder) : List UInt8 := d.bytes.drop d.offset

/-- The next bytes, with the message for an end that is no `usize`, and that for an end outside the frame. -/
def slice (length : ℕ) (overflow missing : String) : Read (List UInt8) := fun d =>
  if 2 ^ 32 ≤ d.offset + length then (.error overflow, d)
  else if h : d.offset + length ≤ d.bytes.length then
    (.ok (d.ahead.take length), { d with offset := d.offset + length, within := h })
  else (.error missing, d)

/-- **A reader of a format**: it takes a value from bytes that stand for it, up to their end. -/
def Takes {α : Type} (read : Read α) (format : α → List UInt8 → Prop) : Prop :=
  ∀ d value d', read d = (.ok value, d') ↔
    d'.bytes = d.bytes ∧ ∃ code, format value code ∧ d.ahead = code ++ d'.ahead

section Takes

variable {α β : Type} {read : Read α} {format : α → List UInt8 → Prop}

theorem Decoder.eq_iff {d d' : Decoder} : d = d' ↔ d.bytes = d'.bytes ∧ d.ahead = d'.ahead := by
  refine ⟨fun h => h ▸ ⟨rfl, rfl⟩, fun ⟨hbytes, hahead⟩ => ?_⟩
  obtain ⟨bytes, offset, fits, within⟩ := d
  obtain ⟨bytes', offset', fits', within'⟩ := d'
  obtain rfl : bytes = bytes' := hbytes
  have hlength := congrArg List.length hahead
  simp only [Decoder.ahead, List.length_drop] at hlength
  obtain rfl : offset = offset' := by omega
  rfl

/-- There is a decoder behind any bytes that stand next. -/
theorem Decoder.exists_after {d : Decoder} {code rest : List UInt8} (h : d.ahead = code ++ rest) :
    ∃ d' : Decoder, d'.bytes = d.bytes ∧ d'.ahead = rest := by
  have hlength := congrArg List.length h
  have hwithin := d.within
  simp only [Decoder.ahead, List.length_drop, List.length_append] at hlength
  refine ⟨⟨d.bytes, d.offset + code.length, d.fits, by omega⟩, rfl, ?_⟩
  rw [Decoder.ahead, ← List.drop_drop, ← Decoder.ahead, h, List.drop_left]

theorem Takes.run (h : Takes read format) {value : α} {code rest : List UInt8} {d : Decoder} (hvalue : format value code)
    (hahead : d.ahead = code ++ rest) : ∃ d', read d = (.ok value, d') ∧ d'.bytes = d.bytes ∧ d'.ahead = rest := by
  obtain ⟨d', hbytes, hrest⟩ := Decoder.exists_after hahead
  exact ⟨d', (h d value d').2 ⟨hbytes, code, hvalue, by rw [hrest, hahead]⟩, hbytes, hrest⟩

theorem takes_slice (length : ℕ) (overflow missing : String) :
    Takes (slice length overflow missing) fun value code => value = code ∧ code.length = length := by
  intro d value d'
  unfold slice
  have hfits := d.fits
  have hahead : d.ahead.length = d.bytes.length - d.offset := List.length_drop
  have hwithin := d.within
  split
  · refine ⟨fun h => (by cases h), fun ⟨_, code, ⟨_, hlength⟩, h⟩ => ?_⟩
    have := congrArg List.length h
    rw [List.length_append] at this
    omega
  · split
    · next hend =>
      rw [Prod.mk.injEq, Except.ok.injEq, Decoder.eq_iff]
      have hrest : (Decoder.ahead { d with offset := d.offset + length, within := hend }) = d.ahead.drop length := by
        rw [Decoder.ahead, Decoder.ahead, List.drop_drop]
      constructor
      · rintro ⟨rfl, hbytes, h⟩
        refine ⟨hbytes.symm, _, ⟨rfl, ?_⟩, ?_⟩
        · rw [List.length_take]
          omega
        · rw [← h, hrest, List.take_append_drop]
      · rintro ⟨hbytes, code, ⟨rfl, rfl⟩, h⟩
        refine ⟨?_, hbytes.symm, ?_⟩
        · rw [h, List.take_left]
        · rw [hrest, h, List.drop_left]
    · next hend =>
      refine ⟨fun h => (by cases h), fun ⟨_, code, ⟨_, hlength⟩, h⟩ => ?_⟩
      have := congrArg List.length h
      rw [List.length_append] at this
      omega

theorem takes_pure (a : α) : Takes (pure a) fun value code => value = a ∧ code = [] := by
  intro d value d'
  rw [Attempt.pure_run, Prod.mk.injEq, Except.ok.injEq, Decoder.eq_iff]
  constructor
  · rintro ⟨rfl, hbytes, h⟩
    exact ⟨hbytes.symm, [], ⟨rfl, rfl⟩, h⟩
  · rintro ⟨hbytes, _, ⟨rfl, rfl⟩, h⟩
    exact ⟨rfl, hbytes.symm, h⟩

theorem takes_stop (message : String) : Takes (Attempt.stop message : Read α) fun _ _ => False := by
  intro d value d'
  refine ⟨fun h => (by cases h), fun ⟨_, _, h, _⟩ => h.elim⟩

/-- **Readers in sequence** take formats in sequence. -/
theorem Takes.bind {next : α → Read β} {format' : α → β → List UInt8 → Prop} (h : Takes read format)
    (hnext : ∀ a, Takes (next a) (format' a)) :
    Takes (read >>= next) fun b code => ∃ a first rest, format a first ∧ format' a b rest ∧ code = first ++ rest := by
  intro d value d'
  rw [Attempt.bind_run]
  constructor
  · intro hrun
    split at hrun
    · next a d₁ hfirst =>
      obtain ⟨hbytes, first, hfirst, hahead⟩ := (h d a d₁).1 hfirst
      obtain ⟨hbytes', rest, hrest, hahead'⟩ := (hnext a d₁ value d').1 hrun
      exact ⟨hbytes'.trans hbytes, _, ⟨a, first, rest, hfirst, hrest, rfl⟩, by rw [hahead, hahead', List.append_assoc]⟩
    · cases hrun
  · rintro ⟨hbytes, _, ⟨a, first, rest, hfirst, hrest, rfl⟩, hahead⟩
    rw [List.append_assoc] at hahead
    obtain ⟨d₁, hrun, hbytes', hahead'⟩ := h.run hfirst hahead
    rw [hrun]
    exact (hnext a d₁ value d').2 ⟨hbytes.trans hbytes'.symm, rest, hrest, hahead'⟩

theorem Takes.congr {format' : α → List UInt8 → Prop} (h : Takes read format)
    (hformat : ∀ value code, format value code ↔ format' value code) : Takes read format' := by
  intro d value d'
  simp only [← hformat]
  exact h d value d'

end Takes

/-! ### The decoder -/

def maxRecords : ℕ := 1000000

def frameMagic : ℕ := 0x33544c42

def frameSchema : ℕ := 3

namespace Decoder

/-- The number in the next four bytes. -/
def word (overflow missing : String) : Read ℕ := do
  let code ← slice 4 overflow missing
  pure (fromLeBytes code)

def u32 (label : String) : Read ℕ :=
  word s!"compiler ABI {label} offset overflow" s!"compiler ABI frame omitted {label}"

def count (label : String) : Read ℕ := do
  let count ← u32 s!"{label} count"
  if maxRecords < count then .stop s!"compiler ABI {label} count {count} exceeds the limit" else pure count

/-- `bytes` -/
def takeBytes (label : String) : Read (List UInt8) := do
  let length ← u32 s!"{label} byte length"
  slice length s!"compiler ABI {label} offset overflow" s!"compiler ABI frame truncated {label}"

/-- `string`; `explain` is what the standard library says of bytes that are not UTF-8. -/
def string (explain : List UInt8 → String) (label : String) : Read String := do
  let code ← takeBytes label
  match fromUtf8 code with
  | some text => pure text
  | none => .stop s!"compiler ABI {label} is not UTF-8: {explain code}"

/-- The digits of `{:#010x}`. -/
def hexDigits (value : ℕ) : String := String.ofList ((Nat.toDigits 16 value).leftpad 8 '0')

/-- `frame`, past the construction of the decoder -/
def frame : Read Unit := do
  let magic ← u32 "frame magic"
  if magic ≠ frameMagic then .stop s!"unknown compiler ABI frame magic 0x{hexDigits magic}"
  else do
    let schema ← u32 "frame schema"
    if schema ≠ frameSchema then .stop s!"compiler ABI frame schema is {schema}, expected {frameSchema}" else pure ()

/-- `finish`, of a frame that the host or the compiler reads -/
def finish (kind : String) : Read Unit := fun d =>
  if d.offset ≠ d.bytes.length then
    (.error s!"compiler {kind} frame has {d.bytes.length - d.offset} trailing bytes", d)
  else (.ok (), d)

/-- What a frame that is read to its end holds. -/
def whole {α : Type} (kind : String) (read : Read α) (frame : List UInt8) (fits : frame.length < 2 ^ 32) :
    Except String α :=
  (do
    let value ← read
    finish kind
    pure value : Read α) (start frame fits) |>.1

/-- A loop that reads so many elements. -/
def times {α : Type} (read : Read α) : ℕ → Read (List α)
  | 0 => pure []
  | n + 1 => do
    let value ← read
    let rest ← times read n
    pure (value :: rest)

end Decoder

/-- `Encoder::bytes` -/
def encodeBytes (value : List UInt8) : List UInt8 := toLeBytes value.length ++ value

/-- `Encoder::string` -/
def encodeString (value : String) : List UInt8 := encodeBytes (utf8 value)

def header : List UInt8 := toLeBytes frameMagic ++ toLeBytes frameSchema

section Formats

variable {α : Type} (explain : List UInt8 → String) (label : String)

/-- **What is read to its end is in the format.** -/
theorem Takes.whole {kind : String} {read : Read α} {format : α → List UInt8 → Prop} (h : Takes read format)
    {frame : List UInt8} {fits : frame.length < 2 ^ 32} {value : α} :
    Decoder.whole kind read frame fits = .ok value ↔ format value frame := by
  have hfinish : ∀ d, Decoder.finish kind d = if d.ahead = [] then (.ok (), d)
      else (.error s!"compiler {kind} frame has {d.bytes.length - d.offset} trailing bytes", d) := by
    intro d
    have := d.within
    simp only [Decoder.finish, Decoder.ahead, List.drop_eq_nil_iff]
    split <;> split <;> first | rfl | omega
  unfold Decoder.whole
  constructor
  · intro hrun
    rw [Attempt.bind_run] at hrun
    split at hrun
    · next a d hread =>
      obtain ⟨_, code, hformat, hahead⟩ := (h _ _ _).1 hread
      rw [Attempt.bind_run, hfinish] at hrun
      by_cases hnil : d.ahead = []
      · rw [if_pos hnil] at hrun
        cases hrun
        rw [hnil, List.append_nil] at hahead
        obtain rfl : frame = code := hahead
        exact hformat
      · rw [if_neg hnil] at hrun
        cases hrun
    · cases hrun
  · intro hformat
    obtain ⟨last, hread, -, hend⟩ := h.run (d := .start frame fits) hformat (List.append_nil _).symm
    rw [Attempt.bind_run_ok hread, Attempt.bind_run, hfinish, if_pos hend]
    rfl

theorem takes_word (overflow missing : String) :
    Takes (Decoder.word overflow missing) fun value code => value < 2 ^ 32 ∧ code = toLeBytes value := by
  refine ((takes_slice _ _ _).bind fun code => takes_pure _).congr fun value code => ?_
  constructor
  · rintro ⟨_, first, _, ⟨rfl, hlength⟩, ⟨rfl, rfl⟩, rfl⟩
    rw [List.append_nil]
    exact (fromLeBytes_eq_iff hlength).1 rfl
  · rintro ⟨hvalue, rfl⟩
    exact ⟨_, _, [], ⟨rfl, rfl⟩, ⟨((fromLeBytes_eq_iff rfl).2 ⟨hvalue, rfl⟩).symm, rfl⟩, (List.append_nil _).symm⟩

theorem takes_u32 : Takes (Decoder.u32 label) fun value code => value < 2 ^ 32 ∧ code = toLeBytes value :=
  takes_word _ _

theorem Takes.guard {β : Type} {read : Read α} {next : α → Read β} {format : α → List UInt8 → Prop}
    {format' : α → β → List UInt8 → Prop} {bad : α → Prop} [DecidablePred bad] {message : α → String}
    (h : Takes read format) (hnext : ∀ a, Takes (next a) (format' a)) :
    Takes (read >>= fun a => if bad a then .stop (message a) else next a) fun b code =>
      ∃ a first rest, format a first ∧ (¬ bad a ∧ format' a b rest) ∧ code = first ++ rest := by
  refine h.bind fun a => ?_
  split
  · next hbad => exact (takes_stop _).congr fun _ _ => ⟨False.elim, fun h => h.1 hbad⟩
  · next hbad => exact (hnext a).congr fun _ _ => ⟨fun h => ⟨hbad, h⟩, fun h => h.2⟩

theorem takes_count : Takes (Decoder.count label) fun value code => value ≤ maxRecords ∧ code = toLeBytes value := by
  refine ((takes_u32 s!"{label} count").guard fun count => takes_pure count).congr fun value code => ?_
  have hmax : maxRecords < 2 ^ 32 := by decide
  constructor
  · rintro ⟨_, _, _, ⟨_, rfl⟩, ⟨hle, rfl, rfl⟩, rfl⟩
    exact ⟨by omega, List.append_nil _⟩
  · rintro ⟨hle, rfl⟩
    exact ⟨value, _, [], ⟨by omega, rfl⟩, ⟨by omega, rfl, rfl⟩, (List.append_nil _).symm⟩

theorem Takes.prefixed {read : Read ℕ} (h : Takes read fun value code => value < 2 ^ 32 ∧ code = toLeBytes value)
    (overflow missing : String) : Takes (read >>= fun length => slice length overflow missing)
      fun value code => value.length < 2 ^ 32 ∧ code = encodeBytes value := by
  refine (h.bind fun length => takes_slice length _ _).congr fun value code => ?_
  constructor
  · rintro ⟨_, _, _, ⟨hlength, rfl⟩, ⟨rfl, rfl⟩, rfl⟩
    exact ⟨hlength, rfl⟩
  · rintro ⟨hlength, rfl⟩
    exact ⟨_, _, value, ⟨hlength, rfl⟩, ⟨rfl, rfl⟩, rfl⟩

theorem takes_bytes :
    Takes (Decoder.takeBytes label) fun value code => value.length < 2 ^ 32 ∧ code = encodeBytes value :=
  (takes_u32 _).prefixed _ _

theorem takes_string :
    Takes (Decoder.string explain label) fun value code => (utf8 value).length < 2 ^ 32 ∧ code = encodeString value := by
  have htext : ∀ code, Takes (match fromUtf8 code with
      | some text => pure text
      | none => .stop s!"compiler ABI {label} is not UTF-8: {explain code}" : Read String)
      fun value rest => code = utf8 value ∧ rest = [] := by
    intro code
    simp only [← fromUtf8_eq_some]
    split
    · next text h =>
      refine (takes_pure text).congr fun value rest => ?_
      rw [h, Option.some.injEq, eq_comm]
    · next h => exact (takes_stop _).congr fun value rest => ⟨False.elim, fun hsome => by simp [h] at hsome⟩
  refine ((takes_bytes label).bind htext).congr fun value code => ?_
  constructor
  · rintro ⟨_, _, _, ⟨hlength, rfl⟩, ⟨rfl, rfl⟩, rfl⟩
    exact ⟨hlength, List.append_nil _⟩
  · rintro ⟨hlength, rfl⟩
    exact ⟨_, _, [], ⟨hlength, rfl⟩, ⟨rfl, rfl⟩, (List.append_nil _).symm⟩

/-- **A loop takes one element after the other.** -/
theorem takes_times {read : Read α} {good : α → Prop} {encode : α → List UInt8}
    (h : Takes read fun value code => good value ∧ code = encode value) (n : ℕ) :
    Takes (Decoder.times read n) fun values code =>
      values.length = n ∧ (∀ value ∈ values, good value) ∧ code = values.flatMap encode := by
  induction n with
  | zero =>
    refine (takes_pure []).congr fun values code => ?_
    rw [List.length_eq_zero_iff]
    constructor
    · rintro ⟨rfl, rfl⟩
      simp
    · rintro ⟨rfl, -, rfl⟩
      exact ⟨rfl, rfl⟩
  | succ n ih =>
    refine (h.bind fun value => ih.bind fun rest => takes_pure _).congr fun values code => ?_
    constructor
    · rintro ⟨value, _, _, ⟨hgood, rfl⟩, ⟨rest, _, _, ⟨rfl, hall, rfl⟩, ⟨rfl, rfl⟩, rfl⟩, rfl⟩
      exact ⟨rfl, List.forall_mem_cons.2 ⟨hgood, hall⟩, by rw [List.append_nil, List.flatMap_cons]⟩
    · rintro ⟨hlength, hall, rfl⟩
      obtain ⟨value, rest, rfl⟩ := List.exists_cons_of_length_eq_add_one hlength
      rw [List.forall_mem_cons] at hall
      exact ⟨value, _, _, ⟨hall.1, rfl⟩, ⟨rest, _, [], ⟨by simpa using hlength, hall.2, rfl⟩, ⟨rfl, rfl⟩, rfl⟩,
        by rw [List.append_nil, List.flatMap_cons]⟩

theorem takes_frame : Takes Decoder.frame fun _ code => code = header := by
  refine ((takes_u32 _).guard fun magic => (takes_u32 _).guard fun schema => takes_pure ()).congr fun _ code => ?_
  constructor
  · rintro ⟨magic, _, _, ⟨_, rfl⟩, ⟨hmagic, schema, _, _, ⟨_, rfl⟩, ⟨hschema, _, rfl⟩, rfl⟩, rfl⟩
    rw [not_not.1 hmagic, not_not.1 hschema, List.append_nil]
    rfl
  · rintro rfl
    exact ⟨frameMagic, _, _, ⟨by decide, rfl⟩, ⟨not_not.2 rfl, frameSchema, _, [], ⟨by decide, rfl⟩,
      ⟨not_not.2 rfl, rfl, rfl⟩, rfl⟩, rfl⟩

end Formats

end Blot.Transport
