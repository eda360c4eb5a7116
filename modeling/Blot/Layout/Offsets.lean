import Blot.Layout.Elaborate

/-!
# Where the units of an elaborated source come from

A piece of an elaborated source is a unit of the source with its position, or an inserted unit with the offset it was
inserted at.  Pieces are linked: each starts where the one before it stops.
-/

namespace Blot.Layout

open Frontend
open Blot.Support (bind_eq_ok demand_eq_ok)

inductive Origin where
  | kept (index : ℕ)
  | inserted (offset : ℕ)
  deriving DecidableEq

namespace Origin

def start : Origin → ℕ
  | .kept index => index
  | .inserted offset => offset

def stop : Origin → ℕ
  | .kept index => index + 1
  | .inserted offset => offset

theorem start_le_stop (origin : Origin) : origin.start ≤ origin.stop := by
  cases origin with
  | kept index => exact Nat.le_succ index
  | inserted offset => exact Nat.le_refl offset

end Origin

def keptUnit : UInt16 × Origin → Option (UInt16 × ℕ)
  | (unit, .kept index) => some (unit, index)
  | (_, .inserted _) => none

def insertedUnit : UInt16 × Origin → Option (UInt16 × ℕ)
  | (_, .kept _) => none
  | (unit, .inserted offset) => some (unit, offset)

def insertedUnits (insertions : List (ℕ × List UInt16)) : List (UInt16 × ℕ) :=
  insertions.flatMap fun insertion => insertion.2.map fun unit => (unit, insertion.1)

/-- **An elaborated source and its offsets, against where its units come from.** -/
structure Faithful (source : List UInt16) (insertions : List (ℕ × List UInt16)) (layout : LayoutSource)
    (pieces : List (UInt16 × Origin)) : Prop where
  text : layout.source = pieces.map (·.1)
  /-- Without the inserted units the source is left, each unit at its position. -/
  kept : pieces.filterMap keptUnit = source.zipIdx
  inserted : pieces.filterMap insertedUnit = insertedUnits insertions
  length : layout.originalOffsets.length = layout.source.length + 1
  ascending : layout.originalOffsets.Pairwise (· ≤ ·)
  boundaries : ∀ k unit origin, pieces[k]? = some (unit, origin) →
    layout.originalOffsets[k]? = some origin.start ∧ layout.originalOffsets[k + 1]? = some origin.stop

/-! ### Linked pieces -/

def Linked : ℕ → List (UInt16 × Origin) → ℕ → Prop
  | first, [], last => first = last
  | first, piece :: pieces, last => piece.2.start = first ∧ Linked piece.2.stop pieces last

theorem Linked.append : ∀ {first middle last : ℕ} {pieces more : List (UInt16 × Origin)},
    Linked first pieces middle → Linked middle more last → Linked first (pieces ++ more) last
  | _, _, _, [], _, rfl, h => h
  | _, _, _, _ :: _, _, ⟨hstart, hrest⟩, h => ⟨hstart, hrest.append h⟩

theorem Linked.le : ∀ {first last : ℕ} {pieces : List (UInt16 × Origin)}, Linked first pieces last →
    first ≤ last ∧ ∀ piece ∈ pieces, first ≤ piece.2.stop ∧ piece.2.stop ≤ last
  | _, _, [], h => ⟨Nat.le_of_eq h, fun _ hp => nomatch hp⟩
  | first, last, piece :: pieces, ⟨hstart, hrest⟩ => by
    obtain ⟨hle, hall⟩ := hrest.le
    have hfirst : first ≤ piece.2.stop := hstart ▸ piece.2.start_le_stop
    refine ⟨Nat.le_trans hfirst hle, fun other ho => ?_⟩
    rcases List.mem_cons.mp ho with rfl | ho
    · exact ⟨hfirst, hle⟩
    · exact ⟨Nat.le_trans hfirst (hall other ho).1, (hall other ho).2⟩

/-- The offsets of linked pieces. -/
theorem Linked.boundaries : ∀ {first last : ℕ} {pieces : List (UInt16 × Origin)}, Linked first pieces last →
    ∀ k unit origin, pieces[k]? = some (unit, origin) →
      (first :: pieces.map fun piece => piece.2.stop)[k]? = some origin.start ∧
        (first :: pieces.map fun piece => piece.2.stop)[k + 1]? = some origin.stop
  | _, _, [], _, k, _, _, hk => by simp at hk
  | first, _, piece :: pieces, ⟨hstart, hrest⟩, k, unit, origin, hk => by
    cases k with
    | zero =>
      obtain rfl := Option.some.inj hk
      exact ⟨congrArg some hstart.symm, rfl⟩
    | succ k =>
      rw [List.getElem?_cons_succ] at hk
      exact hrest.boundaries k unit origin hk

theorem Linked.ascending : ∀ {first last : ℕ} {pieces : List (UInt16 × Origin)}, Linked first pieces last →
    (first :: pieces.map fun piece => piece.2.stop).Pairwise (· ≤ ·)
  | _, _, [], _ => List.pairwise_singleton _ _
  | first, last, piece :: pieces, ⟨hstart, hrest⟩ => by
    refine List.pairwise_cons.mpr ⟨fun offset ho => ?_, hrest.ascending⟩
    have hfirst : first ≤ piece.2.stop := hstart ▸ piece.2.start_le_stop
    rcases List.mem_cons.mp ho with rfl | ho
    · exact hfirst
    · obtain ⟨other, hother, rfl⟩ := List.mem_map.mp ho
      exact Nat.le_trans hfirst (hrest.le.2 other hother).1

/-! ### The pieces of some insertions -/

/-- The units of the source from a position on, as pieces. -/
def keptPieces : ℕ → List UInt16 → List (UInt16 × Origin)
  | _, [] => []
  | cursor, unit :: rest => (unit, .kept cursor) :: keptPieces (cursor + 1) rest

def piecesFrom (source : List UInt16) : ℕ → List (ℕ × List UInt16) → List (UInt16 × Origin)
  | cursor, [] => keptPieces cursor (source.drop cursor)
  | cursor, (offset, text) :: insertions =>
    keptPieces cursor ((source.take offset).drop cursor) ++ text.map (fun unit => (unit, .inserted offset)) ++
      piecesFrom source offset insertions

theorem keptPieces_linked : ∀ (cursor : ℕ) (chunk : List UInt16),
    Linked cursor (keptPieces cursor chunk) (cursor + chunk.length)
  | _, [] => rfl
  | cursor, unit :: rest => by
    refine ⟨rfl, ?_⟩
    rw [List.length_cons, Nat.add_comm rest.length, ← Nat.add_assoc]
    exact keptPieces_linked (cursor + 1) rest

theorem inserted_linked (offset : ℕ) : ∀ text : List UInt16,
    Linked offset (text.map fun unit => (unit, .inserted offset)) offset
  | [] => rfl
  | _ :: text => ⟨rfl, inserted_linked offset text⟩

theorem keptPieces_kept : ∀ (cursor : ℕ) (chunk : List UInt16),
    (keptPieces cursor chunk).filterMap keptUnit = chunk.zipIdx cursor
  | _, [] => rfl
  | cursor, unit :: rest => by
    rw [keptPieces, List.filterMap_cons, keptUnit, keptPieces_kept (cursor + 1) rest, List.zipIdx_cons]

theorem keptPieces_inserted : ∀ (cursor : ℕ) (chunk : List UInt16),
    (keptPieces cursor chunk).filterMap insertedUnit = []
  | _, [] => rfl
  | cursor, unit :: rest => by
    rw [keptPieces, List.filterMap_cons, insertedUnit, keptPieces_inserted (cursor + 1) rest]

theorem inserted_kept (offset : ℕ) : ∀ text : List UInt16,
    (text.map fun unit => ((unit, .inserted offset) : UInt16 × Origin)).filterMap keptUnit = []
  | [] => rfl
  | _ :: text => by
    rw [List.map_cons, List.filterMap_cons, keptUnit, inserted_kept offset text]

theorem inserted_inserted (offset : ℕ) : ∀ text : List UInt16,
    (text.map fun unit => ((unit, .inserted offset) : UInt16 × Origin)).filterMap insertedUnit =
      text.map fun unit => (unit, offset)
  | [] => rfl
  | _ :: text => by
    rw [List.map_cons, List.filterMap_cons, insertedUnit, inserted_inserted offset text, List.map_cons]

theorem keptPieces_keptFrom : ∀ (cursor : ℕ) (chunk : List UInt16),
    keptFrom cursor chunk = (keptPieces cursor chunk).map fun piece => (piece.1, u32 piece.2.stop)
  | _, [] => rfl
  | cursor, unit :: rest => by
    rw [keptFrom, keptPieces, List.map_cons, keptPieces_keptFrom (cursor + 1) rest]
    rfl

section Insert

variable {source : List UInt16}

theorem slice_eq_some {start stop : ℕ} {chunk : List UInt16} (h : slice source start stop = some chunk) :
    start ≤ stop ∧ stop ≤ source.length ∧ chunk = (source.take stop).drop start := by
  unfold slice at h
  split at h
  · rename_i hle
    exact ⟨hle.1, hle.2, (Option.some.inj h).symm⟩
  · cases h

theorem range_ok {start stop : ℕ} {chunk : List UInt16} (h : range source start stop = .ok chunk) :
    start ≤ stop ∧ stop ≤ source.length ∧ chunk = (source.take stop).drop start :=
  slice_eq_some (demand_eq_ok.mp h)

theorem range_of_le {start stop : ℕ} (h : start ≤ stop) (h' : stop ≤ source.length) :
    range source start stop = .ok ((source.take stop).drop start) := by
  unfold range slice
  rw [if_pos ⟨h, h'⟩]
  rfl

/-- Some insertions, and what the loop makes of them. -/
theorem insertFrom_pieces : ∀ {insertions : List (ℕ × List UInt16)} {cursor : ℕ} {made : List Piece},
    insertFrom source cursor insertions = .ok made →
    made = (piecesFrom source cursor insertions).map (fun piece => (piece.1, u32 piece.2.stop)) ∧
      cursor ≤ source.length ∧ Linked cursor (piecesFrom source cursor insertions) source.length ∧
      (piecesFrom source cursor insertions).filterMap keptUnit = (source.drop cursor).zipIdx cursor ∧
      (piecesFrom source cursor insertions).filterMap insertedUnit = insertedUnits insertions
  | [], cursor, made, h => by
    rw [insertFrom] at h
    obtain ⟨rest, hrest, h⟩ := bind_eq_ok.mp h
    cases h
    obtain ⟨hle, -, rfl⟩ := range_ok hrest
    rw [List.take_length]
    refine ⟨keptPieces_keptFrom _ _, hle, ?_, keptPieces_kept _ _, keptPieces_inserted _ _⟩
    have hlink := keptPieces_linked cursor (source.drop cursor)
    rwa [List.length_drop, Nat.add_sub_of_le hle] at hlink
  | (offset, text) :: insertions, cursor, made, h => by
    rw [insertFrom] at h
    split at h
    · rename_i hle
      obtain ⟨chunk, hchunk, h⟩ := bind_eq_ok.mp h
      obtain ⟨rest, hrest, h⟩ := bind_eq_ok.mp h
      cases h
      obtain ⟨-, hoffset, rfl⟩ := range_ok hchunk
      obtain ⟨rfl, -, hlink, hkept, hinserted⟩ := insertFrom_pieces hrest
      refine ⟨?_, Nat.le_trans hle hoffset, ?_, ?_, ?_⟩
      · rw [piecesFrom, List.map_append, List.map_append, keptPieces_keptFrom, List.map_map]
        rfl
      · have hchunk := keptPieces_linked cursor ((source.take offset).drop cursor)
        rw [List.length_drop, List.length_take, Nat.min_eq_left hoffset, Nat.add_sub_of_le hle] at hchunk
        exact (hchunk.append (inserted_linked offset text)).append hlink
      · rw [piecesFrom, List.filterMap_append, List.filterMap_append, keptPieces_kept, inserted_kept,
          List.append_nil, hkept]
        have hsplit : source.drop cursor = (source.take offset).drop cursor ++ source.drop offset := by
          conv_lhs => rw [← List.take_append_drop offset source]
          rw [List.drop_append_of_le_length (by rw [List.length_take, Nat.min_eq_left hoffset]; exact hle)]
        conv_rhs => rw [hsplit]
        rw [List.zipIdx_append, List.length_drop, List.length_take, Nat.min_eq_left hoffset, Nat.add_sub_of_le hle]
      · rw [piecesFrom, List.filterMap_append, List.filterMap_append, keptPieces_inserted, inserted_inserted,
          hinserted]
        rfl
    · cases h

theorem u32_of_le {source : Source} {n : ℕ} (h : n ≤ source.units.length) : u32 n = n := by
  have := source.fits
  exact Nat.mod_eq_of_lt (by omega)

theorem faithful_of_linked {source : Source} {insertions : List (ℕ × List UInt16)} {layout : LayoutSource}
    {pieces : List (UInt16 × Origin)} (hlink : Linked 0 pieces source.units.length)
    (hkept : pieces.filterMap keptUnit = source.units.zipIdx)
    (hinserted : pieces.filterMap insertedUnit = insertedUnits insertions) (htext : layout.source = pieces.map (·.1))
    (hoffsets : layout.originalOffsets = 0 :: pieces.map fun piece => u32 piece.2.stop) :
    Faithful source.units insertions layout pieces := by
  have hexact : layout.originalOffsets = 0 :: pieces.map fun piece => piece.2.stop := by
    rw [hoffsets]
    exact congrArg _ (List.map_congr_left fun piece hp => u32_of_le (hlink.le.2 piece hp).2)
  refine ⟨htext, hkept, hinserted, ?_, ?_, ?_⟩
  · rw [hexact, htext, List.length_cons, List.length_map, List.length_map]
  · rw [hexact]
    exact hlink.ascending
  · rw [hexact]
    exact hlink.boundaries

/-- **`apply_insertions` is faithful.** -/
theorem applyInsertions_faithful {source : Source} {insertions : List (ℕ × List UInt16)} {layout : LayoutSource}
    (h : applyInsertions source.units insertions = .ok layout) :
    ∃ pieces, Faithful source.units insertions layout pieces := by
  obtain ⟨made, hmade, h⟩ := bind_eq_ok.mp h
  cases h
  obtain ⟨rfl, -, hlink, hkept, hinserted⟩ := insertFrom_pieces hmade
  exact ⟨_, faithful_of_linked hlink hkept hinserted List.map_map (congrArg (0 :: ·) List.map_map)⟩

theorem keptPieces_stops : ∀ (cursor : ℕ) (chunk : List UInt16),
    (keptPieces cursor chunk).map (fun piece => piece.2.stop) = List.range' (cursor + 1) chunk.length
  | _, [] => rfl
  | cursor, unit :: rest => by
    rw [keptPieces, List.map_cons, keptPieces_stops (cursor + 1) rest, List.length_cons, List.range'_succ]
    rfl

theorem keptPieces_text : ∀ (cursor : ℕ) (chunk : List UInt16), (keptPieces cursor chunk).map (·.1) = chunk
  | _, [] => rfl
  | cursor, unit :: rest => by rw [keptPieces, List.map_cons, keptPieces_text (cursor + 1) rest]

/-- **`identity` is faithful.** -/
theorem identity_faithful (source : Source) : ∃ pieces, Faithful source.units [] (identity source.units) pieces := by
  have hlink := keptPieces_linked 0 source.units
  rw [Nat.zero_add] at hlink
  refine ⟨keptPieces 0 source.units, faithful_of_linked hlink (keptPieces_kept 0 _) (keptPieces_inserted 0 _)
    (keptPieces_text 0 _).symm ?_⟩
  have hstops : (keptPieces 0 source.units).map (fun piece => u32 piece.2.stop) =
      (List.range' 1 source.units.length).map u32 := by
    rw [← keptPieces_stops 0, List.map_map]
    rfl
  rw [hstops, identity, List.range_eq_range', List.range'_succ]
  rfl

end Insert

end Blot.Layout
