import Blot.Environment.Lookup

/-!
# What a capture does

`capture_env` seals the whole chain; the compact copy of `capture_before` binds the names it was asked for as the
environment does; the index of a captured environment is right.
-/

namespace Blot.Environment

open Support Relation

variable {V T : Type} {h h' : Heap V T} {e p x y base : ℕ} {f : Frame V T} {n : String}

namespace Heap

def Sealed (h : Heap V T) (environment : ℕ) : Prop := ∃ frame, h.frames environment = some frame ∧ frame.captured

def Upward (h : Heap V T) : Prop := ∀ e p, h.Sealed e → h.Parent e p → h.Sealed p

theorem Upward.reaches (upward : h.Upward) (he : h.Sealed e) (hr : h.Reaches e x) : h.Sealed x := by
  induction hr with
  | refl => exact he
  | tail _ hp ih => exact upward _ _ ih hp

@[simp] theorem modify_self (write : Frame V T → Frame V T) :
    (h.modify e write).frames e = (h.frames e).map write := by
  simp [modify]

@[simp] theorem modify_of_ne (write : Frame V T → Frame V T) (hne : x ≠ e) :
    (h.modify e write).frames x = h.frames x := by
  simp [modify, hne]

/-- What `h'` is after the chain of `e` was walked and captured. -/
structure Captures (h : Heap V T) (e : ℕ) (h' : Heap V T) : Prop where
  next : h'.next = h.next
  frames : ∀ x, h'.frames x = h.frames x ∨ h.Reaches e x ∧ h'.frames x = (h.frames x).map Frame.seal

theorem parent_modify {write : Frame V T → Frame V T} (keeps : ∀ f, (write f).parent = f.parent) :
    (h.modify e write).Parent = h.Parent := by
  funext x y
  apply propext
  by_cases hx : x = e
  · subst hx
    constructor
    · rintro ⟨f, hf, hp⟩
      rw [modify_self, Option.map_eq_some_iff] at hf
      obtain ⟨f, hf, rfl⟩ := hf
      exact ⟨f, hf, (keeps f).symm.trans hp⟩
    · rintro ⟨f, hf, hp⟩
      exact ⟨write f, by rw [modify_self, hf]; rfl, (keeps f).trans hp⟩
  · unfold Parent
    rw [modify_of_ne write hx]

theorem reaches_modify {write : Frame V T → Frame V T} (keeps : ∀ f, (write f).parent = f.parent) :
    (h.modify e write).Reaches = h.Reaches := by
  unfold Reaches
  rw [parent_modify keeps]

theorem captureFrom_captures {fuel : ℕ} {start : Option ℕ} (hstart : ∀ x, start = some x → h.Reaches e x) :
    h.Captures e (captureFrom fuel h start) := by
  induction fuel generalizing h start with
  | zero => exact ⟨rfl, fun x => .inl rfl⟩
  | succ fuel ih =>
    cases start with
    | none => exact ⟨rfl, fun x => .inl rfl⟩
    | some current =>
      have hcurrent := hstart current rfl
      rw [captureFrom]
      cases hf : h.frames current with
      | none => exact ⟨rfl, fun x => .inl rfl⟩
      | some f =>
        dsimp only
        by_cases hc : f.captured = true
        · rw [if_pos hc]
          exact ⟨rfl, fun x => .inl rfl⟩
        · rw [if_neg hc]
          have hreach : (h.modify current Frame.seal).Reaches = h.Reaches := reaches_modify fun _ => rfl
          obtain ⟨hnext, hframes⟩ := @ih (h.modify current Frame.seal) f.parent fun x hx => by
            rw [hreach]
            exact hcurrent.tail ⟨f, hf, hx⟩
          refine ⟨hnext, fun x => ?_⟩
          by_cases hx : x = current
          · subst hx
            refine .inr ⟨hcurrent, ?_⟩
            rcases hframes x with same | ⟨_, same⟩
            · exact same.trans (modify_self _)
            · refine same.trans ?_
              rw [modify_self, hf]
              rfl
          · rcases hframes x with same | ⟨hr, same⟩
            · exact .inl (same.trans (modify_of_ne _ hx))
            · rw [hreach] at hr
              rw [modify_of_ne _ hx] at same
              exact .inr ⟨hr, same⟩

theorem captureEnv_captures (h : Heap V T) (e : ℕ) : h.Captures e (h.captureEnv e) :=
  captureFrom_captures fun x hx => by
    cases hx
    exact .refl

theorem Captures.sealed (captures : h.Captures e h') (hs : h.Sealed x) : h'.Sealed x := by
  obtain ⟨f, hf, hc⟩ := hs
  rcases captures.frames x with same | ⟨_, same⟩
  · exact ⟨f, same.trans hf, hc⟩
  · exact ⟨f.seal, by rw [same, hf]; rfl, rfl⟩

/-- Read back: a frame after the capture is the old frame, captured at most. -/
theorem Captures.read (captures : h.Captures e h') (hf : h'.frames x = some f) :
    ∃ g, h.frames x = some g ∧ (f = g ∨ h.Reaches e x ∧ f = g.seal) := by
  rcases captures.frames x with same | ⟨hr, same⟩
  · exact ⟨f, same.symm.trans hf, .inl rfl⟩
  · rw [same, Option.map_eq_some_iff] at hf
    obtain ⟨g, hg, rfl⟩ := hf
    exact ⟨g, hg, .inr ⟨hr, rfl⟩⟩

/-- **The whole chain is captured**, where the frames above a captured frame of it are captured already. -/
theorem captureFrom_sealed {fuel : ℕ} (ordered : h.Ordered) (hfuel : e < fuel) (he : ∃ f, h.frames e = some f)
    (upward : ∀ x, h.Reaches e x → h.Sealed x → ∀ y, h.Reaches x y → h.Sealed y) (hr : h.Reaches e x) :
    (captureFrom fuel h (some e)).Sealed x := by
  induction fuel generalizing h e x with
  | zero => omega
  | succ fuel ih =>
    obtain ⟨f, hf⟩ := he
    rw [captureFrom, hf]
    dsimp only
    by_cases hc : f.captured = true
    · rw [if_pos hc]
      exact upward e .refl ⟨f, hf, hc⟩ x hr
    · rw [if_neg hc]
      set sealed := h.modify e Frame.seal with hsealed
      have hparents : sealed.Parent = h.Parent := parent_modify fun _ => rfl
      have hreach : sealed.Reaches = h.Reaches := reaches_modify fun _ => rfl
      have hself : sealed.Sealed e := ⟨f.seal, by rw [hsealed, modify_self, hf]; rfl, rfl⟩
      have hcaptures : sealed.Captures e (captureFrom fuel sealed f.parent) :=
        captureFrom_captures fun y hy => hreach ▸ ReflTransGen.single ⟨f, hf, hy⟩
      rcases ReflTransGen.cases_head hr with rfl | ⟨p, ⟨g, hg, hp⟩, hpx⟩
      · exact hcaptures.sealed hself
      · have hfg : f = g := Option.some.inj (hf.symm.trans hg)
        subst hfg
        obtain ⟨hlt, q, hq⟩ := ordered.parent e f p hf hp
        -- the frames above are older, so they are as they were
        have above : ∀ {y}, h.Reaches p y → sealed.frames y = h.frames y := by
          intro y hy
          have := ordered.reaches_le hy
          exact modify_of_ne _ (by omega)
        have hordered : sealed.Ordered := by
          constructor
          · intro y g hg
            by_cases hy : y = e
            · exact hy ▸ ordered.bounded e f hf
            · exact ordered.bounded y g ((modify_of_ne _ hy).symm.trans hg)
          · intro y g z hg hz
            have : h.Parent y z := hparents ▸ ⟨g, hg, hz⟩
            obtain ⟨g', hg', hz'⟩ := this
            obtain ⟨hlt, w, hw⟩ := ordered.parent y g' z hg' hz'
            refine ⟨hlt, ?_⟩
            by_cases hze : z = e
            · subst hze
              exact ⟨f.seal, by rw [hsealed, modify_self, hf]; rfl⟩
            · exact ⟨w, (modify_of_ne _ hze).trans hw⟩
        rw [hp]
        refine ih hordered (by omega) ⟨q, (above .refl).trans hq⟩ ?_ (hreach ▸ hpx)
        intro y hy hsy z hz
        rw [hreach] at hy hz
        obtain ⟨g, hg, hgc⟩ := hsy
        rw [above hy] at hg
        obtain ⟨g', hg', hc'⟩ := upward y (.head ⟨f, hf, hp⟩ hy) ⟨g, hg, hgc⟩ z hz
        exact ⟨g', (above (hy.trans hz)).trans hg', hc'⟩

theorem captureEnv_sealed (ordered : h.Ordered) (upward : h.Upward) (he : ∃ f, h.frames e = some f)
    (hr : h.Reaches e x) : (h.captureEnv e).Sealed x :=
  captureFrom_sealed ordered (Nat.lt_succ_self e) he (fun _ _ hs _ hr => upward.reaches hs hr) hr

end Heap

/-! ### The compact copy -/

namespace Frame

/-- The value that a frame has for a name, its recursive group apart. -/
def plain (frame : Frame V T) (name : String) : Option V :=
  (frame.names.lookup name).or (frame.opens.reverse.findSome? (·.lookup name))

theorem own_of_plain (hrec : f.recursiveBindings = none) : f.own e n = (f.plain n).map .value := by
  unfold own plain
  rw [hrec]
  cases f.names.lookup n <;> rfl

end Frame

theorem lookup_taken (t : Table String V) (missing : List String) (n : String) :
    (taken t missing).lookup n = if n ∈ missing then t.lookup n else none :=
  Table.lookup_filterMap missing (t.lookup ·) n

theorem lookup_taken_reverse (t : Table String V) (missing : List String) (n : String) :
    (taken t missing).reverse.lookup n = if n ∈ missing then t.lookup n else none := by
  unfold taken
  rw [← List.filterMap_reverse]
  refine (Table.lookup_filterMap missing.reverse (t.lookup ·) n).trans ?_
  simp only [List.mem_reverse]

/-- A copy of `names` that has taken what `found` says of the names in `missing`. -/
structure Taken (start : Frame V T × List String) (found : String → Option V) (result : Frame V T × List String) :
    Prop where
  shape : result.1.parent = start.1.parent ∧ result.1.recursiveBindings = start.1.recursiveBindings ∧
    result.1.captured = start.1.captured ∧ result.1.nameLocations = start.1.nameLocations
  missing : ∀ n, n ∈ result.2 ↔ n ∈ start.2 ∧ found n = none
  plain : ∀ n, result.1.plain n = if n ∈ start.2 then found n else start.1.plain n

def Lacks (acc : Frame V T × List String) : Prop := ∀ n ∈ acc.2, acc.1.plain n = none

theorem Taken.lacks {start result : Frame V T × List String} {found : String → Option V}
    (taken : Taken start found result) : Lacks result := by
  intro n hn
  obtain ⟨hstart, hnone⟩ := (taken.missing n).1 hn
  rw [taken.plain, if_pos hstart, hnone]

theorem Taken.refl {start : Frame V T × List String} (lacks : Lacks start) : Taken start (fun _ => none) start where
  shape := ⟨rfl, rfl, rfl, rfl⟩
  missing n := by simp
  plain n := by
    by_cases hn : n ∈ start.2
    · rw [if_pos hn, lacks n hn]
    · rw [if_neg hn]

theorem Taken.trans {start middle result : Frame V T × List String} {found later : String → Option V}
    (first : Taken start found middle) (second : Taken middle later result) :
    Taken start (fun n => (found n).or (later n)) result where
  shape := by
    obtain ⟨hp, hr, hc, hl⟩ := first.shape
    obtain ⟨hp', hr', hc', hl'⟩ := second.shape
    exact ⟨hp'.trans hp, hr'.trans hr, hc'.trans hc, hl'.trans hl⟩
  missing n := by rw [second.missing, first.missing, Option.or_eq_none_iff, and_assoc]
  plain n := by
    rw [second.plain, first.plain, if_congr (first.missing n) rfl rfl]
    by_cases hn : n ∈ start.2
    · cases found n with
      | none => simp [hn]
      | some v => simp [hn]
    · simp [hn]

theorem takeOpens_taken (opens : List (Table String V)) {start : Frame V T × List String} (lacks : Lacks start) :
    Taken start (fun n => opens.findSome? (·.lookup n)) (takeOpens opens start) := by
  induction opens generalizing start with
  | nil => exact .refl lacks
  | cons fields opens ih =>
    obtain ⟨captured, missing⟩ := start
    have step : Taken (captured, missing) (fun n => fields.lookup n)
        (if (taken fields missing).isEmpty then captured
          else { captured with opens := captured.opens ++ [taken fields missing] }, lacking fields missing) := by
      refine ⟨by split <;> exact ⟨rfl, rfl, rfl, rfl⟩, fun n => ?_, fun n => ?_⟩
      · simp [lacking]
      · have hfound := lookup_taken fields missing n
        cases hempty : (taken fields missing).isEmpty with
        | true =>
          rw [List.isEmpty_iff.1 hempty, List.lookup_nil] at hfound
          by_cases hn : n ∈ missing
          · rw [if_pos hn] at hfound ⊢
            rw [← hfound]
            exact lacks n hn
          · rw [if_neg hn]
            rfl
        | false =>
          rw [if_neg Bool.false_ne_true]
          by_cases hn : n ∈ missing
          · obtain ⟨hnames, hopens⟩ := Option.or_eq_none_iff.1 (lacks n hn)
            rw [if_pos hn] at hfound ⊢
            dsimp only at hnames hopens
            simp only [Frame.plain, hnames, Option.none_or, List.reverse_append, List.reverse_singleton,
              List.singleton_append, List.findSome?_cons, hfound, hopens]
            cases fields.lookup n <;> rfl
          · rw [if_neg hn] at hfound ⊢
            simp [Frame.plain, hfound]
    have rest := step.trans (ih step.lacks)
    have hfound : (fun n => (fields :: opens).findSome? (·.lookup n)) =
        fun n => (fields.lookup n).or (opens.findSome? (·.lookup n)) := by
      funext n
      rw [List.findSome?_cons]
      cases fields.lookup n <;> rfl
    rw [hfound]
    exact rest

theorem takeFrame_taken (frame : Frame V T) {start : Frame V T × List String} (lacks : Lacks start) :
    Taken start frame.plain (takeFrame start frame) := by
  obtain ⟨captured, missing⟩ := start
  have named : Taken (captured, missing) (fun n => frame.names.lookup n)
      ({ captured with names := captured.names.extend (taken frame.names missing) },
        lacking frame.names missing) := by
    refine ⟨⟨rfl, rfl, rfl, rfl⟩, fun n => by simp [lacking], fun n => ?_⟩
    unfold Frame.plain
    rw [Table.lookup_extend, lookup_taken_reverse]
    by_cases hn : n ∈ missing
    · obtain ⟨hnames, hopens⟩ := Option.or_eq_none_iff.1 (lacks n hn)
      simp [hn, hnames, hopens]
    · simp [hn]
  obtain ⟨hshape, hmissing, hplain⟩ := named.trans (takeOpens_taken frame.opens.reverse named.lacks)
  exact ⟨hshape, hmissing, hplain⟩

theorem takeFrames_taken (frames : List (Frame V T)) {start : Frame V T × List String} (lacks : Lacks start) :
    Taken start (fun n => frames.findSome? (·.plain n)) (frames.foldl takeFrame start) := by
  induction frames generalizing start with
  | nil => exact .refl lacks
  | cons frame frames ih =>
    have step := takeFrame_taken frame lacks
    have rest := step.trans (ih step.lacks)
    have hfound : (fun n => (frame :: frames).findSome? (·.plain n)) =
        fun n => (frame.plain n).or (frames.findSome? (·.plain n)) := by
      funext n
      rw [List.findSome?_cons]
      cases frame.plain n <;> rfl
    rw [hfound]
    exact rest

namespace Heap

/-- **The frames before the base** decide a lookup, unless none of them has the name. -/
theorem framesBefore_meaning {fuel : ℕ} {frames : List (Frame V T)} {members : Members T} (ordered : h.Ordered)
    (hframes : h.framesBefore base fuel e = some frames) :
    h.Reaches e base ∧ (h.meaning e members n).map (·.2) =
      ((frames.findSome? (·.plain n)).map .value).or ((h.meaning base members n).map (·.2)) := by
  induction fuel generalizing e frames with
  | zero => cases hframes
  | succ fuel ih =>
    rw [framesBefore] at hframes
    by_cases he : e = base
    · rw [if_pos he, Option.some.injEq] at hframes
      subst he hframes
      exact ⟨.refl, by simp⟩
    · rw [if_neg he] at hframes
      cases hf : h.frames e with
      | none => simp [hf] at hframes
      | some f =>
        cases hrec : f.recursiveBindings with
        | some closures => simp [hf, hrec] at hframes
        | none =>
          cases hp : f.parent with
          | none => simp [hf, hrec, hp] at hframes
          | some p =>
            simp only [hf, hrec, hp, Option.map_eq_some_iff] at hframes
            obtain ⟨rest, hrest, rfl⟩ := hframes
            obtain ⟨hr, hmeans⟩ := ih hrest
            refine ⟨.head ⟨f, hf, hp⟩ hr, ?_⟩
            have hplain : (f.withMembers (members e)).recursiveBindings = none := by
              simp [Frame.withMembers, hrec]
            rw [meaning_child ordered hf hp, Frame.own_of_plain hplain, List.findSome?_cons]
            change ((f.plain n).map Binding.value |>.map (e, ·) |>.or _).map _ = _
            cases f.plain n with
            | some v => rfl
            | none => simpa using hmeans

end Heap

/-! ### The name index -/

theorem Frame.mem_bound : n ∈ f.bound ↔ (f.own e n).isSome := by
  have hkeys : ∀ {A : Type} (t : Table String A), n ∈ t.map (·.1) ↔ (t.lookup n).isSome := by
    intro A t
    rw [List.lookup_isSome_iff, List.mem_map]
    constructor
    · rintro ⟨q, hq, rfl⟩
      exact ⟨q, hq, beq_self_eq_true _⟩
    · rintro ⟨q, hq, hn⟩
      exact ⟨q, hq, (beq_iff_eq.1 hn).symm⟩
  have hopens : (n ∈ f.opens.reverse.flatMap fun fields => fields.map (·.1)) ↔
      (f.opens.reverse.findSome? (·.lookup n)).isSome := by
    rw [List.mem_flatMap, List.findSome?_isSome_iff]
    simp only [hkeys]
  have hrec : n ∈ (f.recursiveBindings.getD []).map (·.1) ↔ (f.recursiveBindings.bind (·.lookup n)).isSome := by
    rw [hkeys]
    cases f.recursiveBindings <;> simp
  unfold Frame.bound Frame.own
  rw [List.mem_append, List.mem_append, hkeys, hopens, hrec]
  cases f.names.lookup n with
  | some v => simp
  | none =>
    cases f.recursiveBindings.bind (·.lookup n) with
    | some t => simp
    | none => simp

namespace Heap

theorem lookup_locationsFrom (ordered : h.Ordered) {fuel : ℕ} (hfuel : e < fuel) (he : ∃ f, h.frames e = some f)
    (locations : Table String ℕ) :
    (h.locationsFrom fuel (some e) locations).lookup n =
      (locations.lookup n).or ((h.meaning e h.members n).map (·.1)) := by
  induction fuel generalizing e locations with
  | zero => omega
  | succ fuel ih =>
    obtain ⟨f, hf⟩ := he
    have hown := withMembers_members hf
    have hbound : (f.bound.map (·, e)).lookup n = (f.own e n).map fun _ => e := by
      have := Table.lookup_filterMap f.bound (fun _ => some e) n
      rw [show (f.bound.filterMap fun key => (some e).map fun a => (key, a)) = f.bound.map (·, e) by
        simp] at this
      rw [this, if_congr (Frame.mem_bound (e := e)) rfl rfl]
      cases f.own e n <;> rfl
    rw [locationsFrom, hf]
    dsimp only
    cases hp : f.parent with
    | none =>
      rw [meaning_root hf hp, hown]
      have hend : h.locationsFrom fuel none (locations.fill (f.bound.map (·, e))) =
          locations.fill (f.bound.map (·, e)) := by cases fuel <;> rfl
      rw [hend, Table.lookup_fill, hbound]
      cases f.own e n <;> rfl
    | some p =>
      obtain ⟨hlt, hpresent⟩ := ordered.parent e f p hf hp
      rw [ih (by omega) hpresent, Table.lookup_fill, hbound, meaning_child ordered hf hp, hown]
      cases f.own e n with
      | none => simp
      | some b => cases locations.lookup n <;> rfl

end Heap

end Blot.Environment
