import Blot.Hir.Simplify
import Blot.Suspension.Rewrite
import Mathlib.Data.List.Flatten

/-!
# Parameters that nobody reads

The removal of unused block parameters drops the parameters that are not live, and what is sent to them.  The entry
block keeps its parameters, read or not, and what is sent to them is not looked at.

* `StagedFunction.Needed` — the values that are read, and those that are sent to such parameters;
* `removal_finishes` — the removal is right where no branch to the entry block sends a parameter that is not needed.
-/

namespace Blot.Hir

open Blot.Support

/-! ### What is kept of a list -/

section Kept

variable {A B : Type} (stays : ℕ → Bool)

def keptOf (names : List ℕ) (l : List A) : List A := ((names.zip l).filter fun p => stays p.1).map (·.2)

variable {stays}

theorem keptOf_cons (name : ℕ) (names : List ℕ) (a : A) (l : List A) :
    keptOf stays (name :: names) (a :: l) =
      if stays name then a :: keptOf stays names l else keptOf stays names l := by
  unfold keptOf
  by_cases h : stays name = true <;> simp [h]

theorem mem_keptOf {names : List ℕ} {l : List A} {a : A} (h : a ∈ keptOf stays names l) :
    ∃ name, (name, a) ∈ names.zip l ∧ stays name = true := by
  obtain ⟨⟨name, _⟩, hmem, rfl⟩ := List.mem_map.1 h
  obtain ⟨hzip, hstays⟩ := List.mem_filter.1 hmem
  exact ⟨name, hzip, hstays⟩

theorem keptOf_self (names : List ℕ) : keptOf stays names names = names.filter stays := by
  induction names with
  | nil => rfl
  | cons name names ih => rw [keptOf_cons, ih, List.filter_cons]

theorem keptOf_map (f : A → B) (names : List ℕ) (l : List A) :
    (keptOf stays names l).map f = keptOf stays names (l.map f) := by
  unfold keptOf
  rw [List.zip_map_right, List.filter_map, List.map_map, List.map_map]
  rfl

theorem keptOf_forall₂ {R : A → B → Prop} (names : List ℕ) {l : List A} {l' : List B} (h : List.Forall₂ R l l') :
    List.Forall₂ R (keptOf stays names l) (keptOf stays names l') := by
  induction h generalizing names with
  | nil => cases names <;> exact .nil
  | @cons a b l l' hab _ ih =>
    cases names with
    | nil => exact .nil
    | cons name names =>
      rw [keptOf_cons, keptOf_cons]
      split
      · exact .cons hab (ih names)
      · exact ih names

theorem zip_keptOf {names : List ℕ} {l : List A} (h : names.length = l.length) :
    (names.filter stays).length = (keptOf stays names l).length ∧
      (names.filter stays).zip (keptOf stays names l) = (names.zip l).filter fun p => stays p.1 := by
  induction names generalizing l with
  | nil => exact ⟨rfl, rfl⟩
  | cons name names ih =>
    cases l with
    | nil => cases h
    | cons a l =>
      obtain ⟨hlength, hzip⟩ := ih (l := l) (by simpa using h)
      rw [keptOf_cons]
      by_cases hs : stays name = true
      · simp [hs, hlength, hzip]
      · simp [hs, hlength, hzip]

theorem keptOf_all {names : List ℕ} {l : List A} (h : names.length = l.length) (hall : ∀ v ∈ names, stays v = true) :
    keptOf stays names l = l := by
  induction names generalizing l with
  | nil =>
    cases l with
    | nil => rfl
    | cons a l => cases h
  | cons name names ih =>
    cases l with
    | nil => cases h
    | cons a l =>
      rw [keptOf_cons, if_pos (hall name (by simp)),
        ih (by simpa using h) fun v hv => hall v (List.mem_cons_of_mem _ hv)]

/-- **Places are dropped as their names are.** -/
theorem dropPlaces_eq {P : Type} (name : P → ℕ) (parameters : List P) {l : List A}
    (h : parameters.length = l.length) :
    dropPlaces ((parameters.zipIdx.filter fun entry => !stays (name entry.1)).map (·.2)) l =
      keptOf stays (parameters.map name) l := by
  have hfrom : ∀ k, ((l.zipIdx k).filter fun entry =>
      entry.2 ∉ ((parameters.zipIdx k).filter fun entry => !stays (name entry.1)).map (·.2)).map (·.1) =
        keptOf stays (parameters.map name) l := by
    induction parameters generalizing l with
    | nil =>
      intro k
      cases l with
      | nil => rfl
      | cons a l => cases h
    | cons parameter parameters ih =>
      intro k
      cases l with
      | nil => cases h
      | cons a l =>
        -- the later places are beyond the first
        have hlater : ∀ entry ∈ l.zipIdx (k + 1), entry.2 ≠ k := by
          intro entry hentry
          have hle := List.le_snd_of_mem_zipIdx hentry
          omega
        generalize hplaces : ((parameters.zipIdx (k + 1)).filter fun entry => !stays (name entry.1)).map (·.2) = places
        have hfirst : k ∉ places := by
          intro hk
          obtain ⟨entry, hentry, he⟩ := List.mem_map.1 (hplaces ▸ hk)
          have hle := List.le_snd_of_mem_zipIdx (List.mem_filter.1 hentry).1
          omega
        have hall : (((parameter :: parameters).zipIdx k).filter fun entry => !stays (name entry.1)).map (·.2) =
            if stays (name parameter) then places else k :: places := by
          by_cases hs : stays (name parameter) = true <;> simp [List.zipIdx_cons, hs, ← hplaces]
        have hrest := ih (l := l) (by simpa using h) (k + 1)
        rw [hplaces] at hrest
        rw [hall, List.map_cons, keptOf_cons, ← hrest, List.zipIdx_cons]
        by_cases hs : stays (name parameter) = true
        · rw [if_pos hs, if_pos hs, List.filter_cons_of_pos (by simpa using hfirst), List.map_cons]
        · rw [if_neg hs, if_neg hs, List.filter_cons_of_neg (by simp)]
          congr 1
          refine List.filter_congr fun entry hentry => ?_
          simp [hlater entry hentry]
  exact hfrom 0

theorem lookup_filter {table : Table ℕ A} {v : ℕ} (h : stays v = true) :
    (table.filter fun p => stays p.1).lookup v = table.lookup v := by
  induction table with
  | nil => rfl
  | cons entry table ih =>
    obtain ⟨name, a⟩ := entry
    by_cases hs : stays name = true
    · rw [List.filter_cons_of_pos (by simpa using hs), Table.lookup_cons, Table.lookup_cons, ih]
    · have hne : v ≠ name := by
        rintro rfl
        exact hs h
      rw [List.filter_cons_of_neg (by simpa using hs), ih, Table.lookup_cons, if_neg hne]

end Kept

/-! ### What is needed -/

section Needed

variable {f : StagedFunction}

/-- **The values that are needed**: those that are read for themselves, and those that are sent to a parameter that is
needed. -/
inductive StagedFunction.Needed (f : StagedFunction) : ℕ → Prop where
  | read {v : ℕ} (h : v ∈ f.read) : f.Needed v
  | sent {block target : StagedBlock} {edge : ℕ × List ℕ} {parameter v : ℕ} (hblock : block ∈ f.blocks)
      (hedge : edge ∈ block.terminator.edges) (htarget : target ∈ f.blocks) (hid : target.id = edge.1)
      (hsent : (parameter, v) ∈ target.names.zip edge.2) (h : f.Needed parameter) : f.Needed v

def Sent (incoming : Table ℕ (List ℕ)) (entry : ℕ × ℕ) : Prop := entry.2 ∈ (incoming.lookup entry.1).getD []

theorem sent_insert {incoming : Table ℕ (List ℕ)} {entry entry' : ℕ × ℕ} :
    Sent (incoming.insert entry.1 ((incoming.lookup entry.1).getD [] ++ [entry.2])) entry' ↔
      Sent incoming entry' ∨ entry' = entry := by
  unfold Sent
  rw [Table.lookup_insert]
  split
  · next he => simp [he, Prod.ext_iff]
  · next he => simp [Prod.ext_iff, he]

/-- The arguments of an edge are recorded. -/
theorem recordIncomingArguments_sent {target : ℕ} {arguments : List ℕ} {incoming incoming' : Table ℕ (List ℕ)}
    (h : f.recordIncomingArguments target arguments incoming = .ok incoming') :
    (∀ entry, Sent incoming entry → Sent incoming' entry) ∧
      ∀ block, f.blocks.find? (·.id == target) = some block → ∀ entry ∈ block.names.zip arguments,
        Sent incoming' entry := by
  have hfold : ∀ (entries : List (StagedBlockParameter × ℕ)) (incoming : Table ℕ (List ℕ)) (entry : ℕ × ℕ),
      Sent incoming entry ∨ entry ∈ entries.map (fun p => (p.1.value, p.2)) →
        Sent (entries.foldl (fun incoming p =>
          incoming.insert p.1.value ((incoming.lookup p.1.value).getD [] ++ [p.2])) incoming) entry := by
    intro entries
    induction entries with
    | nil => exact fun incoming entry hentry => hentry.resolve_right (by simp)
    | cons first entries ih =>
      intro incoming entry hentry
      refine ih _ entry ?_
      have hstep : ∀ e, Sent (incoming.insert first.1.value ((incoming.lookup first.1.value).getD [] ++ [first.2])) e ↔
          Sent incoming e ∨ e = (first.1.value, first.2) := fun e =>
        @sent_insert incoming (first.1.value, first.2) e
      rcases hentry with hentry | hentry
      · exact Or.inl ((hstep entry).2 (Or.inl hentry))
      · rcases List.mem_cons.1 hentry with rfl | hentry
        · exact Or.inl ((hstep _).2 (Or.inr rfl))
        · exact Or.inr hentry
  simp only [StagedFunction.recordIncomingArguments, bind_eq_ok, demand_eq_ok, require_eq_ok, pure_eq_ok] at h
  obtain ⟨block, hfind, _, _, rfl⟩ := h
  refine ⟨fun entry hentry => hfold _ incoming entry (Or.inl hentry), fun block' hfind' entry hentry => ?_⟩
  cases hfind.symm.trans hfind'
  refine hfold _ incoming entry (Or.inr ?_)
  rwa [StagedBlock.names, List.zip_map_left] at hentry

theorem recordBlock_sent {incoming incoming' : Table ℕ (List ℕ)} {block : StagedBlock}
    (h : f.recordBlock incoming block = .ok incoming') :
    (∀ entry, Sent incoming entry → Sent incoming' entry) ∧
      ∀ edge ∈ block.terminator.edges, ∀ target, f.blocks.find? (·.id == edge.1) = some target →
        ∀ entry ∈ target.names.zip edge.2, Sent incoming' entry := by
  unfold StagedFunction.recordBlock at h
  cases hterminator : block.terminator with
  | branch target arguments span =>
    simp only [hterminator] at h
    obtain ⟨hkeeps, hsent⟩ := recordIncomingArguments_sent h
    refine ⟨hkeeps, fun edge hedge => ?_⟩
    cases List.mem_singleton.1 hedge
    exact hsent
  | conditional condition consequent consequentArguments alternate alternateArguments span =>
    simp only [hterminator, bind_eq_ok] at h
    obtain ⟨middle, hfirst, hsecond⟩ := h
    obtain ⟨hkeeps, hsent⟩ := recordIncomingArguments_sent hfirst
    obtain ⟨hkeeps', hsent'⟩ := recordIncomingArguments_sent hsecond
    refine ⟨fun entry hentry => hkeeps' entry (hkeeps entry hentry), fun edge hedge => ?_⟩
    simp only [StagedTerminator.edges, List.mem_cons, List.not_mem_nil, or_false] at hedge
    rcases hedge with rfl | rfl
    · exact fun target hfind entry hentry => hkeeps' entry (hsent target hfind entry hentry)
    · exact hsent'
  | switch selector cases fallback span =>
    simp only [hterminator, pure_eq_ok] at h
    subst h
    refine ⟨fun _ hentry => hentry, fun edge hedge target _ entry hentry => ?_⟩
    simp only [StagedTerminator.edges, List.mem_append, List.mem_map, List.mem_singleton] at hedge
    rcases hedge with ⟨c, _, rfl⟩ | rfl <;> simp at hentry
  | «return» value span | trap message span =>
    simp only [hterminator, pure_eq_ok] at h
    subst h
    exact ⟨fun _ hentry => hentry, fun edge hedge => by cases hedge⟩

theorem recordBlocks_sent {incoming : Table ℕ (List ℕ)} (h : f.blocks.foldlM f.recordBlock [] = .ok incoming) :
    ∀ block ∈ f.blocks, ∀ edge ∈ block.terminator.edges, ∀ target, f.blocks.find? (·.id == edge.1) = some target →
      ∀ entry ∈ target.names.zip edge.2, Sent incoming entry := by
  have hfold : ∀ (blocks : List StagedBlock) (before after : Table ℕ (List ℕ)),
      blocks.foldlM f.recordBlock before = .ok after → (∀ entry, Sent before entry → Sent after entry) ∧
        ∀ block ∈ blocks, ∀ edge ∈ block.terminator.edges, ∀ target, f.blocks.find? (·.id == edge.1) = some target →
          ∀ entry ∈ target.names.zip edge.2, Sent after entry := by
    intro blocks
    induction blocks with
    | nil =>
      intro before after h
      cases h
      exact ⟨fun _ hentry => hentry, by simp⟩
    | cons first blocks ih =>
      intro before after h
      obtain ⟨middle, hfirst, hrest⟩ := foldlM_cons_eq_ok.1 h
      obtain ⟨hkeeps, hsent⟩ := recordBlock_sent hfirst
      obtain ⟨hkeeps', hsent'⟩ := ih middle after hrest
      refine ⟨fun entry hentry => hkeeps' entry (hkeeps entry hentry), fun block hblock => ?_⟩
      rcases List.mem_cons.1 hblock with rfl | hblock
      · exact fun edge hedge target hfind entry hentry => hkeeps' entry (hsent edge hedge target hfind entry hentry)
      · exact hsent' block hblock
  exact (hfold f.blocks [] incoming h).2

section Live

variable (hwell : f.WellFormed) {incoming : Table ℕ (List ℕ)}
variable (hincoming : f.blocks.foldlM f.recordBlock [] = .ok incoming) {rounds : ℕ} {live : List ℕ}
variable (hlive : explore (fun value => (incoming.lookup value).getD []) rounds f.read [] = some live)

include hwell hincoming hlive

theorem live_of_sent {block target : StagedBlock} {edge : ℕ × List ℕ} {parameter v : ℕ} (hblock : block ∈ f.blocks)
    (hedge : edge ∈ block.terminator.edges) (htarget : target ∈ f.blocks) (hid : target.id = edge.1)
    (hsent : (parameter, v) ∈ target.names.zip edge.2) (h : parameter ∈ live) : v ∈ live := by
  obtain ⟨_, _, hclosed⟩ := explore_complete hlive
  have hrecorded := recordBlocks_sent hincoming block hblock edge hedge target (hid ▸ find_block hwell.ids htarget)
    (parameter, v) hsent
  exact hclosed parameter h (by simp) hrecorded

/-- **What is needed is live.** -/
theorem live_of_needed {v : ℕ} (h : f.Needed v) : v ∈ live := by
  induction h with
  | read h => exact (explore_complete hlive).2.1 h
  | sent hblock hedge htarget hid hsent _ ih =>
    exact live_of_sent hwell hincoming hlive hblock hedge htarget hid hsent ih

end Live

end Needed

/-! ### The function without the parameters -/

section Trim

variable (f : StagedFunction) (live : List ℕ)

/-- A parameter of a block stays: it is live, or the block is the entry. -/
def StagedFunction.stays (block : StagedBlock) (v : ℕ) : Bool := block.id == f.entryBlock || live.contains v

def StagedFunction.trim (block : StagedBlock) : StagedBlock :=
  { block with
    parameters := keptArguments (f.removedPlaces live) block.id block.parameters
    terminator := block.terminator.keep (f.removedPlaces live) }

def StagedFunction.trimmed : StagedFunction := { f with blocks := f.blocks.map (f.trim live) }

def StagedFunction.Dropped (v : ℕ) : Prop := v ∉ live ∧ ∃ block ∈ f.blocks, block.id ≠ f.entryBlock ∧ v ∈ block.names

variable {f live}

theorem edges_keep (removed : Table ℕ (List ℕ)) (terminator : StagedTerminator) :
    (terminator.keep removed).edges = terminator.edges.map fun e => (e.1, keptArguments removed e.1 e.2) := by
  have hnil : ∀ target, keptArguments removed target ([] : List ℕ) = [] := by
    intro target
    unfold keptArguments
    split <;> rfl
  cases terminator with
  | switch selector cases fallback span =>
    simp [StagedTerminator.keep, StagedTerminator.edges, Function.comp_def, hnil]
  | _ => rfl

theorem reads_keep (removed : Table ℕ (List ℕ)) (terminator : StagedTerminator) :
    (terminator.keep removed).reads = terminator.reads := by
  cases terminator <;> rfl

/-- What a terminator reads: for itself, or to send it on. -/
theorem StagedTerminator.mem_uses {terminator : StagedTerminator} {v : ℕ} (h : v ∈ terminator.uses) :
    v ∈ terminator.reads ∨ ∃ edge ∈ terminator.edges, v ∈ edge.2 := by
  cases terminator with
  | branch target arguments span => exact Or.inr ⟨(target, arguments), by simp [StagedTerminator.edges], h⟩
  | conditional condition consequent consequentArguments alternate alternateArguments span =>
    simp only [StagedTerminator.uses, List.mem_cons, List.mem_append] at h
    rcases h with rfl | h | h
    · exact Or.inl (by simp [StagedTerminator.reads])
    · exact Or.inr ⟨(consequent, consequentArguments), by simp [StagedTerminator.edges], h⟩
    · exact Or.inr ⟨(alternate, alternateArguments), by simp [StagedTerminator.edges], h⟩
  | switch selector cases fallback span => exact Or.inl h
  | «return» value span => exact Or.inl h
  | trap message span => cases h

theorem keptArguments_removed {A : Type} (hids : (f.blocks.map (·.id)).Nodup) {block : StagedBlock}
    (hmem : block ∈ f.blocks) {l : List A} (hlength : block.parameters.length = l.length) :
    keptArguments (f.removedPlaces live) block.id l = keptOf (f.stays live block) block.names l := by
  have hnames : block.names.length = l.length := by simpa [StagedBlock.names] using hlength
  unfold keptArguments
  cases hlookup : (f.removedPlaces live).lookup block.id with
  | some places =>
    obtain ⟨hentry, _⟩ := List.mem_filter.1 (Table.mem_of_lookup hlookup)
    obtain ⟨other, hother, he⟩ := List.mem_map.1 hentry
    obtain ⟨hid, rfl⟩ := Prod.mk.inj he
    obtain ⟨hother, hne⟩ := List.mem_filter.1 hother
    obtain rfl := block_of_id hids hother hmem hid
    have hstays : f.stays live other = fun v => live.contains v := by
      funext v
      have hentry : (other.id == f.entryBlock) = false := by simpa using hne
      simp [StagedFunction.stays, hentry]
    rw [hstays]
    refine Eq.trans ?_ (dropPlaces_eq (·.value) other.parameters hlength)
    simp [StagedBlock.deadPlaces]
  | none =>
    refine (keptOf_all hnames fun v hv => ?_).symm
    by_cases hentry : block.id = f.entryBlock
    · simp [StagedFunction.stays, hentry]
    · by_contra hdead
      have hnot : v ∉ live := fun hlive => hdead (by simp [StagedFunction.stays, hlive])
      obtain ⟨parameter, hparameter, rfl⟩ := List.mem_map.1 hv
      obtain ⟨i, hi, rfl⟩ := List.getElem_of_mem hparameter
      have hplace : i ∈ block.deadPlaces live := by
        refine List.mem_map.2 ⟨(block.parameters[i], i), List.mem_filter.2 ⟨?_, by simpa using hnot⟩, rfl⟩
        exact List.mem_zipIdx_iff_getElem?.2 (List.getElem?_eq_getElem hi)
      have hremoved : (block.id, block.deadPlaces live) ∈ f.removedPlaces live := by
        refine List.mem_filter.2 ⟨List.mem_map.2 ⟨block, List.mem_filter.2 ⟨hmem, by simpa using hentry⟩, rfl⟩, ?_⟩
        simpa using List.ne_nil_of_mem hplace
      simpa using List.lookup_eq_none_iff.1 hlookup _ hremoved

variable (hwell : f.WellFormed) {block : StagedBlock} (hmem : block ∈ f.blocks)

include hwell hmem

theorem names_trim : (f.trim live block).names = block.names.filter (f.stays live block) := by
  show (keptArguments _ block.id block.parameters).map _ = _
  rw [keptArguments_removed hwell.ids hmem rfl, keptOf_map, ← keptOf_self]
  rfl

theorem dropped_of_trim {v : ℕ} (hv : v ∈ block.names) (hnot : v ∉ (f.trim live block).names) : f.Dropped live v := by
  have hstays : f.stays live block v = false := by
    rw [names_trim hwell hmem] at hnot
    by_contra hs
    exact hnot (List.mem_filter.2 ⟨hv, by simpa using hs⟩)
  simp only [StagedFunction.stays, Bool.or_eq_false_iff, beq_eq_false_iff_ne, List.contains_eq_mem,
    decide_eq_false_iff_not] at hstays
  exact ⟨hstays.2, block, hmem, hstays.1, hv⟩

end Trim

/-! ### The trimmed function is well formed -/

/-- **No branch to the entry block sends a parameter that is not needed.** -/
def StagedFunction.RemovalKeeps (f : StagedFunction) : Prop :=
  ∀ seen block, f.Arrives seen block → ∀ edge ∈ block.terminator.edges, edge.1 = f.entryBlock → ∀ v ∈ edge.2,
    (∃ block ∈ f.blocks, block.id ≠ f.entryBlock ∧ v ∈ block.names) → f.Needed v

/-- Live values: those that are read, those that are sent to live parameters, and what is sent to the entry block. -/
structure StagedFunction.Lives (f : StagedFunction) (live : List ℕ) : Prop where
  read : ∀ v ∈ f.read, v ∈ live
  sent : ∀ block ∈ f.blocks, ∀ edge ∈ block.terminator.edges, ∀ target ∈ f.blocks, target.id = edge.1 →
    ∀ entry ∈ target.names.zip edge.2, entry.1 ∈ live → entry.2 ∈ live
  entry : ∀ seen block, f.Arrives seen block → ∀ edge ∈ block.terminator.edges, edge.1 = f.entryBlock →
    ∀ v ∈ edge.2, ¬f.Dropped live v

section Trimmed

variable {f : StagedFunction} {live : List ℕ} (hwell : f.WellFormed) (hlive : f.Lives live)

theorem mem_trimmed {b : StagedBlock} : b ∈ (f.trimmed live).blocks ↔ ∃ a ∈ f.blocks, f.trim live a = b :=
  List.mem_map

include hwell

/-- What is left of an edge. -/
theorem kept_edge {a : StagedBlock} (ha : a ∈ f.blocks) {edge' : ℕ × List ℕ}
    (h : edge' ∈ (f.trim live a).terminator.edges) :
    ∃ edge ∈ a.terminator.edges, ∃ target ∈ f.blocks, target.id = edge.1 ∧ edge'.1 = edge.1 ∧
      target.names.length = edge.2.length ∧ edge'.2 = keptOf (f.stays live target) target.names edge.2 := by
  have hmem := h
  rw [show (f.trim live a).terminator = a.terminator.keep (f.removedPlaces live) from rfl, edges_keep] at hmem
  obtain ⟨edge, hedge, rfl⟩ := List.mem_map.1 hmem
  obtain ⟨target, htarget, hid, hlength⟩ := hwell.edges a ha edge hedge
  refine ⟨edge, hedge, target, htarget, hid, rfl, by simpa [StagedBlock.names] using hlength, ?_⟩
  exact hid ▸ keptArguments_removed hwell.ids htarget hlength

/-- **What is still read is not dropped.** -/
theorem not_dropped (hlive : f.Lives live) {seen : List ℕ} {a : StagedBlock} (ha : f.Arrives seen a) {v : ℕ}
    (hv : v ∈ (f.trim live a).reads) : ¬f.Dropped live v := by
  have hread : v ∈ a.operations.flatMap (·.operands) ++ a.terminator.reads → ¬f.Dropped live v :=
    fun h hD => hD.1 (hlive.read v (List.mem_flatMap.2 ⟨a, ha.mem, h⟩))
  rcases List.mem_append.1 hv with hv | hv
  · exact hread (List.mem_append_left _ hv)
  · rcases StagedTerminator.mem_uses hv with hv | ⟨edge', hedge', hv⟩
    · rw [show (f.trim live a).terminator = a.terminator.keep (f.removedPlaces live) from rfl, reads_keep] at hv
      exact hread (List.mem_append_right _ hv)
    · obtain ⟨edge, hedge, target, htarget, hid, _, _, hkept⟩ := kept_edge hwell ha.mem hedge'
      obtain ⟨name, hzip, hstays⟩ := mem_keptOf (hkept ▸ hv)
      simp only [StagedFunction.stays, Bool.or_eq_true, beq_iff_eq, List.contains_eq_mem, decide_eq_true_eq] at hstays
      rcases hstays with hentry | hname
      · exact hlive.entry seen a ha edge hedge (hid.symm.trans hentry) v (List.of_mem_zip hzip).2
      · exact fun hD => hD.1 (hlive.sent a ha.mem edge hedge target htarget hid (name, v) hzip hname)

theorem lift_trimmed {seen : List ℕ} {b : StagedBlock} (h : (f.trimmed live).Arrives seen b) :
    ∃ a known, f.Arrives known a ∧ f.trim live a = b ∧ ∀ v ∈ known, v ∈ seen ∨ f.Dropped live v := by
  refine StagedFunction.Arrives.lift (fun a b => f.trim live a = b) ?_ ?_ h
  · intro b hb hid
    obtain ⟨a, ha, rfl⟩ := mem_trimmed.1 hb
    exact ⟨a, .entry ha hid, rfl⟩
  · rintro known seen a _ ha _ rfl edge' hedge' c hc hid
    obtain ⟨a', ha', rfl⟩ := mem_trimmed.1 hc
    obtain ⟨edge, hedge, _, _, _, htarget, _, _⟩ := kept_edge hwell ha.mem hedge'
    refine ⟨a', _, ha.edge hedge ha' (hid.trans htarget), rfl, fun v hv => ?_⟩
    rcases List.mem_append.1 hv with hv | hv
    · by_cases hdropped : v ∈ (f.trim live a).names
      · exact Or.inl (List.mem_append_left _ hdropped)
      · rcases List.mem_append.1 hv with hv | hv
        · exact Or.inr (Or.inr (dropped_of_trim hwell ha.mem hv hdropped))
        · exact Or.inl (List.mem_append_right _ hv)
    · exact Or.inr (Or.inl hv)

theorem uses_of_trim {a : StagedBlock} (ha : a ∈ f.blocks) {v : ℕ} (hv : v ∈ (f.trim live a).terminator.uses) :
    v ∈ a.terminator.uses := by
  rcases StagedTerminator.mem_uses hv with hv | ⟨edge', hedge', hv⟩
  · rw [show (f.trim live a).terminator = a.terminator.keep (f.removedPlaces live) from rfl, reads_keep] at hv
    cases hterminator : a.terminator <;> simp_all [StagedTerminator.reads, StagedTerminator.uses]
  · obtain ⟨edge, hedge, target, _, _, _, _, hkept⟩ := kept_edge hwell ha hedge'
    obtain ⟨name, hzip, _⟩ := mem_keptOf (hkept ▸ hv)
    exact StagedTerminator.uses_of_edge hedge (List.of_mem_zip hzip).2

theorem defined_trimmed : ((f.trimmed live).blocks.flatMap (·.defined)).Sublist (f.blocks.flatMap (·.defined)) := by
  show ((f.blocks.map (f.trim live)).flatMap (·.defined)).Sublist _
  rw [List.flatMap_map]
  refine List.Sublist.flatMap_right _ fun a ha => List.Sublist.append ?_ (.refl _)
  rw [names_trim hwell ha]
  exact List.filter_sublist

/-- **The trimmed function is well formed.** -/
theorem trimmed_wellFormed (hlive : f.Lives live) : (f.trimmed live).WellFormed := by
  refine ⟨?_, ?_, hwell.definitions.sublist (defined_trimmed hwell), ?_, ?_⟩
  · show ((f.blocks.map (f.trim live)).map (·.id)).Nodup
    rw [List.map_map]
    exact hwell.ids
  · obtain ⟨a, ha, hid⟩ := hwell.entry
    exact ⟨f.trim live a, mem_trimmed.2 ⟨a, ha, rfl⟩, hid⟩
  · intro b hb edge' hedge'
    obtain ⟨a, ha, rfl⟩ := mem_trimmed.1 hb
    obtain ⟨edge, _, target, htarget, hid, hid', hlength, hkept⟩ := kept_edge hwell ha hedge'
    refine ⟨f.trim live target, mem_trimmed.2 ⟨target, htarget, rfl⟩, hid.trans hid'.symm, ?_⟩
    have hnames : (f.trim live target).names.length = _ := congrArg List.length (names_trim hwell htarget)
    rw [(zip_keptOf hlength).1, ← hkept] at hnames
    simpa [StagedBlock.names] using hnames
  · intro seen b h
    obtain ⟨a, known, ha, rfl, hknown⟩ := lift_trimmed hwell h
    -- a value that is read is not dropped, so its definition is still there
    have hstill : ∀ v ∈ (f.trim live a).reads, ∀ results : List ℕ, v ∈ a.names ++ results ++ known →
        v ∈ (f.trim live a).names ++ results ++ seen := by
      intro v hv results hdefined
      have hnot := not_dropped hwell hlive ha hv
      simp only [List.mem_append] at hdefined ⊢
      rcases hdefined with (hnames | hresults) | hbefore
      · by_contra hgone
        exact hnot (dropped_of_trim hwell ha.mem hnames fun h => hgone (Or.inl (Or.inl h)))
      · exact Or.inl (Or.inr hresults)
      · exact Or.inr ((hknown v hbefore).resolve_right hnot)
    refine ⟨fun before operation after hoperations v hv => ?_, fun v hv => ?_⟩
    · refine hstill v ?_ _ ((hwell.dominated known a ha).operands before operation after hoperations v hv)
      refine List.mem_append_left _ (List.mem_flatMap.2 ⟨operation, ?_, hv⟩)
      simp [hoperations]
    · exact hstill v (List.mem_append_right _ hv) _ ((hwell.dominated known a ha).uses v (uses_of_trim hwell ha.mem hv))

end Trimmed

end Blot.Hir

namespace Blot.Suspension.Direct

open Blot.Hir Blot.Support

/-! ### Runs of the trimmed function -/

section Trimmed

variable {V σ : Type} [Values V] {truth : Truth V} {execute : Execute V σ}
variable {f : StagedFunction} {live : List ℕ} (hwell : f.WellFormed) (hlive : f.Lives live)

/-- What is left of an edge. -/
def TrimmedEdge (f : StagedFunction) (live : List ℕ) (edge edge' : ℕ × List ℕ) : Prop :=
  edge' = (edge.1, keptArguments (f.removedPlaces live) edge.1 edge.2)

theorem retargeted_keep (terminator : StagedTerminator) :
    Retargeted (TrimmedEdge f live) terminator (terminator.keep (f.removedPlaces live)) := by
  have hnil : ∀ target, TrimmedEdge f live (target, []) (target, []) := by
    intro target
    unfold TrimmedEdge keptArguments
    split <;> rfl
  cases terminator with
  | branch target arguments span => exact .branch rfl
  | conditional condition consequent consequentArguments alternate alternateArguments span => exact .conditional rfl rfl
  | switch selector cases fallback span =>
    exact .switch (List.forall₂_same.2 fun c _ => ⟨rfl, hnil _⟩) (hnil _)
  | «return» value span => exact .return value span
  | trap message span => exact .trap message span

include hwell hlive

/-- **The removal is a rewriting** that loses the removed parameters. -/
theorem rewriting_trimmed : Rewriting f (f.trimmed live) (f.Dropped live) (TrimmedEdge f live) := by
  have hfree : ∀ seen b, (f.trimmed live).Arrives seen b → ∀ v ∈ b.reads, ¬f.Dropped live v := by
    intro seen b h v hv
    obtain ⟨a, known, ha, rfl, _⟩ := lift_trimmed hwell h
    exact not_dropped hwell hlive ha hv
  refine ⟨hwell, trimmed_wellFormed hwell hlive, rfl, ?_, ?_, ?_⟩
  · intro seen b h operation hoperation v hv
    exact hfree seen b h v (List.mem_append_left _ (List.mem_flatMap.2 ⟨operation, hoperation, hv⟩))
  · intro seen b h v hv hD
    exact absurd hD (hfree seen b h v (List.mem_append_right _ hv))
  · intro a b hfind hfind'
    obtain ⟨c, hc, rfl⟩ := mem_trimmed.1 (List.mem_of_find?_eq_some hfind')
    have hentry : (f.trim live c).id = (f.trimmed live).entryBlock := by simpa using List.find?_some hfind'
    have hid : c.id = f.entryBlock := hentry
    have hid' : a.id = f.entryBlock := by simpa using List.find?_some hfind
    obtain rfl := block_of_id hwell.ids hc (List.mem_of_find?_eq_some hfind) (hid.trans hid'.symm)
    refine ⟨?_, rfl, retargeted_keep _⟩
    rw [names_trim hwell hc, List.filter_eq_self]
    simp [StagedFunction.stays, hid]

/-- **A block is entered without the arguments for the removed parameters.** -/
theorem edgesTrack_trimmed : EdgesTrack truth f (f.trimmed live) (f.Dropped live) (TrimmedEdge f live) execute := by
  rintro p q htracks hq edge hedge _ hedge' rfl s
  have hp : p.operations = [] := htracks.operations ▸ hq
  have hrewriting := rewriting_trimmed hwell hlive
  obtain ⟨xs, hxs⟩ := collect_of_reads fun v hv =>
    htracks.placed.uses hwell hp (StagedTerminator.uses_of_edge hedge hv)
  obtain ⟨a, hfind, hlength, hplaced⟩ := htracks.placed.edge hwell hp hedge hxs
  have ha := List.mem_of_find?_eq_some hfind
  have hid : a.id = edge.1 := by simpa using List.find?_some hfind
  have hnames : a.names.length = xs.length := by simpa [StagedBlock.names] using hlength
  have harity : a.parameters.length = edge.2.length := hlength.trans (collect_length hxs)
  have hkept : keptArguments (f.removedPlaces live) edge.1 edge.2 = keptOf (f.stays live a) a.names edge.2 :=
    hid ▸ keptArguments_removed hwell.ids ha harity
  -- what is still sent has the same values
  have hsent : collect (readValue q.values) (keptArguments (f.removedPlaces live) edge.1 edge.2) =
      .ok (keptOf (f.stays live a) a.names xs) := by
    rw [hkept, collect_eq_ok]
    have hall : List.Forall₂ (fun v x => readValue p.values v = .ok x) (keptOf (f.stays live a) a.names edge.2)
        (keptOf (f.stays live a) a.names xs) := keptOf_forall₂ a.names (collect_eq_ok.1 hxs)
    refine List.forall₂_iff_get.2 ⟨hall.length_eq, fun i hi hi' => ?_⟩
    have hget := (List.forall₂_iff_get.1 hall).2 i hi hi'
    have huse : (keptOf (f.stays live a) a.names edge.2).get ⟨i, hi⟩ ∈ q.terminator.uses := by
      refine StagedTerminator.uses_of_edge hedge' ?_
      rw [hkept]
      exact List.get_mem _ _
    obtain ⟨x, hx⟩ := htracks.placed'.uses hrewriting.wellFormed' hq huse
    rw [hx, ← hget, htracks.agree _ x (Or.inr ⟨hq, huse⟩) hx]
  let edge' := (edge.1, keptArguments (f.removedPlaces live) edge.1 edge.2)
  have ha' : f.trim live a ∈ (f.trimmed live).blocks := mem_trimmed.2 ⟨a, ha, rfl⟩
  obtain ⟨henter, hplaced'⟩ := htracks.placed'.enters hrewriting.wellFormed' hq (show edge' ∈ _ from hedge') hsent ha'
    hid
  refine ⟨_, _, _, enter_of_find hfind hxs hlength, .refl, henter, ?_⟩
  obtain ⟨seen, block, before, harrives, hblock, hterminator, _⟩ := htracks.placed'
  refine hrewriting.tracks_entered hplaced hplaced' rfl (retargeted_keep _) htracks.constants ha'
    ⟨_, harrives.edge (show edge' ∈ _ from hterminator ▸ hedge') ha' hid⟩ ?_ ?_
  · intro v x hD hv hx
    rw [read_entered_of_notMem fun hmem => hD (dropped_of_trim hwell ha hmem hv)]
    exact htracks.agree v x (Or.inl hD) hx
  · intro v x hv hx
    rw [names_trim hwell ha] at hv
    obtain ⟨hmem, hstays⟩ := List.mem_filter.1 hv
    rwa [← read_entered ?_ hlength hmem]
    rw [names_trim hwell ha, (zip_keptOf hnames).2, ← List.filter_reverse]
    exact lookup_filter hstays

end Trimmed

/-- **The removal of unused parameters finishes**, and its result has the same runs, where no branch to the entry block
sends a parameter that is not needed. -/
theorem removal_finishes {f : StagedFunction} (hwell : f.WellFormed) (hindexed : f.Indexed) (hkeeps : f.RemovalKeeps) :
    ∃ g n, (∀ rounds ≥ n, removeUnusedBlockParameters rounds f = .ok g) ∧ g.WellFormed ∧ g.Indexed ∧ SameRuns f g ∧
      g.blocks.length = f.blocks.length := by
  obtain ⟨incoming, hincoming⟩ := recordBlocks_ok hwell.branchesFit
  let whole : List ℕ := f.read ++ incoming.flatMap (·.2)
  have hnext : ∀ v, (incoming.lookup v).getD [] ⊆ whole ∧ ((incoming.lookup v).getD []).length ≤ whole.length := by
    intro v
    cases hl : incoming.lookup v with
    | none => simp
    | some arguments =>
      have hmem : arguments ∈ incoming.map (·.2) := List.mem_map.2 ⟨_, Table.mem_of_lookup hl, rfl⟩
      refine ⟨fun a ha => List.mem_append_right _ (List.mem_flatMap.2 ⟨_, Table.mem_of_lookup hl, ha⟩), ?_⟩
      obtain ⟨before, after, ht, _⟩ := List.lookup_eq_some_iff.1 hl
      simp [whole, ht]
      omega
  obtain ⟨live, n, hn⟩ := explore_eventually (fun v _ => (hnext v).1) (fun v _ => (hnext v).2)
    (List.subset_append_left f.read (incoming.flatMap (·.2))) []
  have hexplore := hn n (Nat.le_refl n)
  have hlive : f.Lives live := by
    refine ⟨fun v hv => live_of_needed hwell hincoming hexplore (.read hv), ?_, ?_⟩
    · intro block hblock edge hedge target htarget hid entry hentry h
      exact live_of_sent hwell hincoming hexplore hblock hedge htarget hid hentry h
    · rintro seen block hblock edge hedge hentry v hv ⟨hdead, hparameter⟩
      exact hdead (live_of_needed hwell hincoming hexplore (hkeeps seen block hblock edge hedge hentry v hv hparameter))
  by_cases hremoved : f.removedPlaces live = []
  · refine ⟨f, n, fun rounds hrounds => ?_, hwell, hindexed, .refl hwell, rfl⟩
    simp [removeUnusedBlockParameters, hincoming, hn rounds hrounds, demand, hremoved]
  · refine ⟨f.trimmed live, n, fun rounds hrounds => ?_, trimmed_wellFormed hwell hlive, ?_, ?_, List.length_map _⟩
    · simp [removeUnusedBlockParameters, hincoming, hn rounds hrounds, demand, hremoved]
      rfl
    · show (f.blocks.map (f.trim live)).map (·.id) = List.range (f.blocks.map (f.trim live)).length
      rw [List.map_map, List.length_map]
      exact hindexed
    · exact (rewriting_trimmed hwell hlive).sameRuns fun _ _ _ _ _ _ => edgesTrack_trimmed hwell hlive

end Blot.Suspension.Direct
