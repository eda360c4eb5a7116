import Mathlib.Algebra.Order.Group.Nat
import Mathlib.Data.List.Forall2

/-!
# The grammar of MessagePack

A value is a head, its marker with what follows directly, and the values in it.

* `Head` — the heads of the format;
* `Encodes` — the bytes of a value;
* `Forest` — the bytes of several values, each at a depth of its own; `forest_cons` takes the first head away.
-/

namespace Blot.Support.MessagePack

/-- The number that bytes stand for, the most significant one first. -/
def bigEndian (bytes : List UInt8) : ℕ := bytes.foldl (fun n b => n * 256 + b.toNat) 0

/-- A number of so many bytes, read after another. -/
theorem foldl_lt {bytes : List UInt8} {n : ℕ} :
    bytes.foldl (fun n b => n * 256 + b.toNat) n < (n + 1) * 256 ^ bytes.length := by
  induction bytes generalizing n with
  | nil => simp
  | cons b bytes ih =>
    have hb : n * 256 + b.toNat + 1 ≤ (n + 1) * 256 := by
      have hlt := b.toNat_lt
      omega
    calc List.foldl _ (n * 256 + b.toNat) bytes < (n * 256 + b.toNat + 1) * 256 ^ bytes.length := ih
      _ ≤ (n + 1) * 256 * 256 ^ bytes.length := Nat.mul_le_mul_right _ hb
      _ = (n + 1) * 256 ^ (b :: bytes).length := by rw [List.length_cons, Nat.pow_succ']; exact Nat.mul_assoc ..

theorem bigEndian_lt {bytes : List UInt8} : bigEndian bytes < 256 ^ bytes.length := by
  have hlt := @foldl_lt bytes 0
  rwa [Nat.zero_add, Nat.one_mul] at hlt

/-- The markers of the values without a length, and the width of what follows. -/
inductive Scalar : UInt8 → ℕ → Prop
  | positiveFixint {m : UInt8} : m ≤ 0x7f → Scalar m 0
  | nil : Scalar 0xc0 0
  | false : Scalar 0xc2 0
  | true : Scalar 0xc3 0
  | float32 : Scalar 0xca 4
  | float64 : Scalar 0xcb 8
  | uint8 : Scalar 0xcc 1
  | uint16 : Scalar 0xcd 2
  | uint32 : Scalar 0xce 4
  | uint64 : Scalar 0xcf 8
  | int8 : Scalar 0xd0 1
  | int16 : Scalar 0xd1 2
  | int32 : Scalar 0xd2 4
  | int64 : Scalar 0xd3 8
  | negativeFixint {m : UInt8} : 0xe0 ≤ m → Scalar m 0

inductive Sized : List UInt8 → ℕ → Prop
  | fixstr {m : UInt8} : 0xa0 ≤ m → m ≤ 0xbf → Sized [m] (m.toNat - 0xa0)
  | str8 {l : List UInt8} : l.length = 1 → Sized (0xd9 :: l) (bigEndian l)
  | str16 {l : List UInt8} : l.length = 2 → Sized (0xda :: l) (bigEndian l)
  | str32 {l : List UInt8} : l.length = 4 → Sized (0xdb :: l) (bigEndian l)
  | bin8 {l : List UInt8} : l.length = 1 → Sized (0xc4 :: l) (bigEndian l)
  | bin16 {l : List UInt8} : l.length = 2 → Sized (0xc5 :: l) (bigEndian l)
  | bin32 {l : List UInt8} : l.length = 4 → Sized (0xc6 :: l) (bigEndian l)

/-- The headers of extensions up to their type, with the length of the data after it. -/
inductive Extension : List UInt8 → ℕ → Prop
  | fixext1 : Extension [0xd4] 1
  | fixext2 : Extension [0xd5] 2
  | fixext4 : Extension [0xd6] 4
  | fixext8 : Extension [0xd7] 8
  | fixext16 : Extension [0xd8] 16
  | ext8 {l : List UInt8} : l.length = 1 → Extension (0xc7 :: l) (bigEndian l)
  | ext16 {l : List UInt8} : l.length = 2 → Extension (0xc8 :: l) (bigEndian l)
  | ext32 {l : List UInt8} : l.length = 4 → Extension (0xc9 :: l) (bigEndian l)

inductive Elements : List UInt8 → ℕ → Prop
  | fixarray {m : UInt8} : 0x90 ≤ m → m ≤ 0x9f → Elements [m] (m.toNat - 0x90)
  | array16 {l : List UInt8} : l.length = 2 → Elements (0xdc :: l) (bigEndian l)
  | array32 {l : List UInt8} : l.length = 4 → Elements (0xdd :: l) (bigEndian l)

inductive Pairs : List UInt8 → ℕ → Prop
  | fixmap {m : UInt8} : 0x80 ≤ m → m ≤ 0x8f → Pairs [m] (m.toNat - 0x80)
  | map16 {l : List UInt8} : l.length = 2 → Pairs (0xde :: l) (bigEndian l)
  | map32 {l : List UInt8} : l.length = 4 → Pairs (0xdf :: l) (bigEndian l)

/-- The head of a value: how many bytes of data it declares, and how many values follow that are in it.  The keys and
the values of a map follow in turn. -/
inductive Head : List UInt8 → ℕ → ℕ → Prop
  | scalar {m : UInt8} {width : ℕ} {payload : List UInt8} :
      Scalar m width → payload.length = width → Head (m :: payload) 0 0
  | sized {header payload : List UInt8} {length : ℕ} :
      Sized header length → payload.length = length → Head (header ++ payload) length 0
  | extension {header payload : List UInt8} {type : UInt8} {length : ℕ} :
      Extension header length → payload.length = length → Head (header ++ type :: payload) length 0
  | array {header : List UInt8} {count : ℕ} : Elements header count → Head header 0 count
  | map {header : List UInt8} {count : ℕ} : Pairs header count → Head header 0 (2 * count)

inductive Value where
  | node (declared : ℕ) (children : List Value)

mutual
inductive Encodes : List UInt8 → Value → Prop
  | node {head rest : List UInt8} {declared : ℕ} {children : List Value} :
      Head head declared children.length → EncodesAll rest children → Encodes (head ++ rest) (.node declared children)
inductive EncodesAll : List UInt8 → List Value → Prop
  | nil : EncodesAll [] []
  | cons {first rest : List UInt8} {value : Value} {values : List Value} :
      Encodes first value → EncodesAll rest values → EncodesAll (first ++ rest) (value :: values)
end

mutual
def Value.nodes : Value → ℕ
  | .node _ children => nodesAll children + 1
def Value.nodesAll : List Value → ℕ
  | [] => 0
  | value :: values => value.nodes + nodesAll values
end

mutual
def Value.declared : Value → ℕ
  | .node declared children => declared + declaredAll children
def Value.declaredAll : List Value → ℕ
  | [] => 0
  | value :: values => value.declared + declaredAll values
end

mutual
/-- The depth of the deepest value, where this one has depth `0`. -/
def Value.depth : Value → ℕ
  | .node _ children => belowAll children
def Value.belowAll : List Value → ℕ
  | [] => 0
  | value :: values => max (value.depth + 1) (belowAll values)
end

/-! ### Several values -/

section Lists

variable {bytes bytes' : List UInt8} {values values' : List Value} {n : ℕ}

theorem nodesAll_append : Value.nodesAll (values ++ values') = Value.nodesAll values + Value.nodesAll values' := by
  induction values with
  | nil => exact (Nat.zero_add _).symm
  | cons value values ih =>
    change value.nodes + Value.nodesAll (values ++ values') = value.nodes + Value.nodesAll values + _
    rw [ih, Nat.add_assoc]

theorem declaredAll_append :
    Value.declaredAll (values ++ values') = Value.declaredAll values + Value.declaredAll values' := by
  induction values with
  | nil => exact (Nat.zero_add _).symm
  | cons value values ih =>
    change value.declared + Value.declaredAll (values ++ values') = value.declared + Value.declaredAll values + _
    rw [ih, Nat.add_assoc]

theorem belowAll_le : Value.belowAll values ≤ n ↔ ∀ value ∈ values, value.depth + 1 ≤ n := by
  induction values with
  | nil => exact iff_of_true (Nat.zero_le n) nofun
  | cons value values ih =>
    change max (value.depth + 1) (Value.belowAll values) ≤ n ↔ _
    rw [max_le_iff, ih, List.forall_mem_cons]

theorem EncodesAll.append (h : EncodesAll bytes values) (h' : EncodesAll bytes' values') :
    EncodesAll (bytes ++ bytes') (values ++ values') := by
  induction values generalizing bytes with
  | nil =>
    cases h
    exact h'
  | cons value values ih =>
    cases h with
    | cons hfirst hrest =>
      rw [List.append_assoc]
      exact .cons hfirst (ih hrest)

theorem EncodesAll.split (h : EncodesAll bytes (values ++ values')) :
    ∃ first rest, bytes = first ++ rest ∧ EncodesAll first values ∧ EncodesAll rest values' := by
  induction values generalizing bytes with
  | nil => exact ⟨[], bytes, rfl, .nil, h⟩
  | cons value values ih =>
    cases h with
    | @cons one rest _ _ hfirst hrest =>
      obtain ⟨first, rest, rfl, hvalues, hvalues'⟩ := ih hrest
      exact ⟨one ++ first, rest, (List.append_assoc ..).symm, .cons hfirst hvalues, hvalues'⟩

end Lists

/-! ### Values at their depths -/

/-- The bytes are those of values at these depths, none of them with a value below `deepest`; so many values there are
in all, and so many bytes of data are declared. -/
def Forest (deepest : ℕ) (depths : List ℕ) (nodes declared : ℕ) (bytes : List UInt8) : Prop :=
  ∃ values, EncodesAll bytes values ∧ List.Forall₂ (fun d (value : Value) => d + value.depth ≤ deepest) depths values ∧
    Value.nodesAll values = nodes ∧ Value.declaredAll values = declared

/-- Relating a list that starts with copies of one element. -/
theorem forall₂_replicate_append {A B : Type} {R : A → B → Prop} {n : ℕ} {a : A} {as : List A} {bs : List B} :
    List.Forall₂ R (List.replicate n a ++ as) bs ↔
      ∃ first rest, bs = first ++ rest ∧ first.length = n ∧ (∀ b ∈ first, R a b) ∧ List.Forall₂ R as rest := by
  induction n generalizing bs with
  | zero =>
    constructor
    · exact fun h => ⟨[], bs, rfl, rfl, nofun, h⟩
    · rintro ⟨first, rest, rfl, hlength, -, h⟩
      rw [List.length_eq_zero_iff] at hlength
      rwa [hlength]
  | succ n ih =>
    constructor
    · intro h
      cases h with
      | cons hb h =>
        obtain ⟨first, rest, rfl, rfl, hfirst, hrest⟩ := ih.1 h
        exact ⟨_ :: first, rest, rfl, rfl, List.forall_mem_cons.2 ⟨hb, hfirst⟩, hrest⟩
    · rintro ⟨first, rest, rfl, hlength, hfirst, hrest⟩
      cases first with
      | nil => cases hlength
      | cons b first =>
        obtain ⟨hb, hfirst⟩ := List.forall_mem_cons.1 hfirst
        exact .cons hb (ih.2 ⟨first, rest, rfl, Nat.succ.inj hlength, hfirst, hrest⟩)

section Forests

variable {deepest nodes declared d : ℕ} {depths : List ℕ} {bytes : List UInt8}

theorem forest_nil : Forest deepest [] nodes declared bytes ↔ bytes = [] ∧ nodes = 0 ∧ declared = 0 := by
  constructor
  · rintro ⟨values, hbytes, hdepths, rfl, rfl⟩
    cases hdepths
    cases hbytes
    exact ⟨rfl, rfl, rfl⟩
  · rintro ⟨rfl, rfl, rfl⟩
    exact ⟨[], .nil, .nil, rfl, rfl⟩

theorem Forest.length_le (h : Forest deepest depths nodes declared bytes) : depths.length ≤ nodes := by
  obtain ⟨values, -, hdepths, rfl, -⟩ := h
  induction hdepths with
  | nil => exact Nat.le_refl 0
  | @cons _ value _ values _ _ ih =>
    change _ ≤ value.nodes + Value.nodesAll values
    have hone : 1 ≤ value.nodes := by cases value; exact Nat.succ_pos _
    rw [List.length_cons]
    omega

theorem Forest.le_deepest (h : Forest deepest depths nodes declared bytes) : ∀ d ∈ depths, d ≤ deepest := by
  obtain ⟨values, -, hdepths, -, -⟩ := h
  induction hdepths with
  | nil => nofun
  | cons hd _ ih => exact List.forall_mem_cons.2 ⟨(Nat.le_add_right _ _).trans hd, ih⟩

/-- **The first head of a forest**: with it taken away, the values in it come first, one deeper. -/
theorem forest_cons : Forest deepest (d :: depths) nodes declared bytes ↔
    ∃ head own children rest nodes' declared', Head head own children ∧ bytes = head ++ rest ∧ d ≤ deepest ∧
      Forest deepest (List.replicate children (d + 1) ++ depths) nodes' declared' rest ∧
      nodes = nodes' + 1 ∧ declared = own + declared' := by
  constructor
  · rintro ⟨values, hbytes, hdepths, rfl, rfl⟩
    cases hdepths with
    | @cons _ value _ values hd hdepths =>
      cases hbytes with
      | @cons _ rest' _ _ hfirst hrest =>
        cases hfirst with
        | @node head rest own children hhead hchildren =>
          have hbelow : ∀ child ∈ children, d + 1 + child.depth ≤ deepest := by
            intro child hchild
            have hle := belowAll_le.1 (Nat.le_refl (Value.belowAll children)) child hchild
            change d + Value.belowAll children ≤ deepest at hd
            omega
          refine ⟨head, own, children.length, rest ++ rest', _, _, hhead, List.append_assoc .., ?_,
            ⟨children ++ values, hchildren.append hrest, ?_, rfl, rfl⟩, ?_, ?_⟩
          · exact (Nat.le_add_right _ _).trans hd
          · exact forall₂_replicate_append.2 ⟨children, values, rfl, rfl, hbelow, hdepths⟩
          · change Value.nodesAll children + 1 + Value.nodesAll values = _
            rw [nodesAll_append]
            omega
          · change own + Value.declaredAll children + Value.declaredAll values = _
            rw [declaredAll_append, Nat.add_assoc]
  · rintro ⟨head, own, count, rest, _, _, hhead, rfl, hd, ⟨values, hbytes, hdepths, rfl, rfl⟩, rfl, rfl⟩
    obtain ⟨children, values, rfl, hlength, hbelow, hdepths⟩ := forall₂_replicate_append.1 hdepths
    obtain ⟨first, rest, rfl, hchildren, hvalues⟩ := hbytes.split
    have hdepth : d + Value.belowAll children ≤ deepest := by
      have hle : Value.belowAll children ≤ deepest - d := by
        refine belowAll_le.2 fun child hchild => ?_
        have hone := hbelow child hchild
        omega
      omega
    refine ⟨.node own children :: values, ?_, .cons hdepth hdepths, ?_, ?_⟩
    · rw [← List.append_assoc]
      exact .cons (.node (by rwa [hlength]) hchildren) hvalues
    · change Value.nodesAll children + 1 + Value.nodesAll values = _
      rw [nodesAll_append]
      omega
    · change own + Value.declaredAll children + Value.declaredAll values = _
      rw [declaredAll_append, Nat.add_assoc]

theorem forest_root : Forest deepest [0] nodes declared bytes ↔
    ∃ value, Encodes bytes value ∧ value.depth ≤ deepest ∧ value.nodes = nodes ∧ value.declared = declared := by
  constructor
  · rintro ⟨values, hbytes, hdepths, rfl, rfl⟩
    cases hdepths with
    | @cons _ value _ _ hdepth hdepths =>
      cases hdepths
      cases hbytes with
      | cons hfirst hrest =>
        cases hrest
        refine ⟨value, by rwa [List.append_nil], ?_, rfl, rfl⟩
        rwa [Nat.zero_add] at hdepth
  · rintro ⟨value, hbytes, hdepth, rfl, rfl⟩
    refine ⟨[value], ?_, .cons (by rwa [Nat.zero_add]) .nil, rfl, rfl⟩
    rw [← List.append_nil bytes]
    exact .cons hbytes .nil

end Forests

end Blot.Support.MessagePack
