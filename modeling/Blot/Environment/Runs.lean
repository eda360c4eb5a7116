import Mathlib.Data.List.Dedup
import Blot.Environment.Lexical

/-!
# Every scope operation keeps lexical lookup

Each operation keeps the invariant, so every state that a program's operations lead to has it.
-/

namespace Blot.Environment

open Support Relation Heap State

variable {V T : Type} {s : State V T} {scope : Scope V T} {view : View V T} {outer : List (Scope V T)} {i e : ℕ}
  {f : Frame V T} {n : String}

namespace Heap

variable {h : Heap V T}

theorem alloc_modify (h : Heap V T) (f : Frame V T) (write : Frame V T → Frame V T) :
    (h.alloc f).2.modify h.next write = (h.alloc (write f)).2 := by
  simp [alloc, modify]

theorem childOf_eq (h : Heap V T) (parent : Option ℕ) (entries : Table String V) :
    childOf h parent entries = (h.next, (h.alloc { parent := parent, names := Table.extend [] entries }).2) := by
  unfold childOf childEnv declare
  exact congrArg (h.next, ·) (alloc_modify h _ _)

theorem alloc_meaning {members : Members T} (ordered : h.Ordered)
    (hp : ∀ p, f.parent = some p → ∃ g, h.frames p = some g) :
    ((h.alloc f).2.meaning h.next members n).map (·.2) =
      ((f.withMembers (members h.next)).own h.next n).or
        ((f.parent.bind fun p => h.meaning p members n).map (·.2)) := by
  have hself := alloc_self h f
  cases hparent : f.parent with
  | none =>
    rw [meaning_root hself hparent]
    cases (f.withMembers (members h.next)).own h.next n <;> rfl
  | some p =>
    rw [meaning_child (alloc_ordered ordered hp) hself hparent,
      (alloc_same ordered f (hp p hparent)).meaning members]
    cases (f.withMembers (members h.next)).own h.next n <;> rfl

theorem meaning_eq {members : Members T} (ordered : h.Ordered) (hf : h.frames e = some f) :
    (h.meaning e members n).map (·.2) = ((f.withMembers (members e)).own e n).or
      ((f.parent.bind fun p => h.meaning p members n).map (·.2)) := by
  cases hp : f.parent with
  | none =>
    rw [meaning_root hf hp]
    cases (f.withMembers (members e)).own e n <;> rfl
  | some p =>
    rw [meaning_child ordered hf hp]
    cases (f.withMembers (members e)).own e n <;> rfl

theorem modify_same {x : ℕ} (ordered : h.Ordered) (write : Frame V T → Frame V T) (hlt : x < e) :
    h.SameAlong (h.modify e write) x := by
  intro y hy
  have := ordered.reaches_le hy
  rw [modify_of_ne write (by omega)]

theorem Ordered.next_absent (ordered : h.Ordered) : h.frames h.next = none := by
  by_contra hsome
  obtain ⟨f, hf⟩ := Option.ne_none_iff_exists'.1 hsome
  exact absurd (ordered.bounded _ f hf) (Nat.lt_irrefl _)

end Heap

namespace State

theorem Lexical.members_next (lexical : s.Lexical) : s.members s.heap.next = [] := by
  rw [lexical.members s.heap.next (.inl (Nat.le_refl _))]
  unfold Heap.members
  rw [lexical.ordered.next_absent]
  rfl

theorem Lexical.allocChild (lexical : s.Lexical) (hp : ∀ p, f.parent = some p → ∃ g, s.heap.frames p = some g)
    (fresh : f.captured = false ∧ f.nameLocations = none ∧ f.recursiveBindings = none) :
    ({ s with heap := (s.heap.alloc f).2 } : State V T).Lexical := by
  refine lexical.alloc hp ⟨fresh.1, fresh.2.1⟩ s.members s.groups (fun e => ?_)
    (fun _ _ => rfl) (lexical.groups _)
  by_cases he : e = s.heap.next
  · rw [if_pos he, he, fresh.2.2, lexical.members_next]
    rfl
  · rw [if_neg he]

/-- **A scope with a frame of its own** is entered, in place of `above`. -/
theorem Lexical.enter (lexical : s.Lexical) (above : List (Scope V T)) (hi : s.activations i = above ++ outer)
    (fresh : f.captured = false ∧ f.nameLocations = none ∧ f.recursiveBindings = none)
    (parents : ∀ p, f.parent = some p → ∃ parent, parent.environment = p ∧ s.Sees parent ∧
      ∀ j, j ≠ i → ∀ other ∈ s.activations j, s.heap.Open other.environment → ¬ s.heap.Reaches p other.environment)
    (environment : scope.environment = s.heap.next)
    (means : ∀ members name, scope.may members name → ((f.plain name).map .value).or
      ((f.parent.bind fun p => s.heap.meaning p members name).map (·.2)) = scope.eager members name)
    (owns : ∀ name, (f.plain name).isSome → ∀ members, scope.may members name)
    (active : ∀ source R, scope.active = some (source, R) → s.Filling R ∧ s.heap.Recursive R ∧
      ∀ p, f.parent = some p → s.heap.Reaches p R)
    (rooted : scope.active.isSome → f.parent.isSome) :
    (s.activate i (scope :: outer) (s.heap.alloc f).2).Lexical := by
  have hp : ∀ p, f.parent = some p → ∃ g, s.heap.frames p = some g := by
    intro p hparent
    obtain ⟨parent, rfl, hsees, _⟩ := parents p hparent
    exact hsees.1.1
  set below := s.activate i outer s.heap with hbelow
  have lexical' : below.Lexical := lexical.pop above hi
  have allocated := lexical'.allocChild hp fresh
  have hself := alloc_self s.heap f
  have reaches : ∀ {x}, (s.heap.alloc f).2.Reaches s.heap.next x →
      x = s.heap.next ∨ ∃ p, f.parent = some p ∧ s.heap.Reaches p x := alloc_reaches lexical.ordered hp
  have old : ∀ {p x}, f.parent = some p → s.heap.Reaches p x → ∃ g, s.heap.frames x = some g := fun hparent hr =>
    lexical.ordered.reaches_present hr (hp _ hparent)
  have views_old : ∀ {view}, below.Views view → s.heap.SameAlong (s.heap.alloc f).2 view.environment :=
    fun live => alloc_same lexical.ordered f (lexical'.sees _ live).1.1
  have again : s.activate i (scope :: outer) (s.heap.alloc f).2 =
      ({ below with heap := (s.heap.alloc f).2 } : State V T).activate i (scope :: outer) (s.heap.alloc f).2 := by
    simp [below, activate]
  rw [again]
  refine allocated.push (activate_self ..) ?_ ?_ ?_ ?_ ?_ ?_
  · -- what the scope sees
    refine ⟨⟨⟨f, by rw [environment]; exact hself⟩, fun members name hmay => ?_⟩, fun R group hr hrec hg => ?_⟩
    · change ((s.heap.alloc f).2.meaning scope.environment members name).map (·.2) = _
      have hplain : (f.withMembers (members s.heap.next)).recursiveBindings = none := by
        simp [Frame.withMembers, fresh.2.2]
      rw [environment, alloc_meaning lexical.ordered hp, Frame.own_of_plain hplain]
      exact means members name hmay
    · rw [environment] at hr
      rcases reaches hr with rfl | ⟨p, hparent, hr⟩
      · obtain ⟨g, hg, hgr⟩ := hrec
        rw [← Option.some.inj (hself.symm.trans hg), fresh.2.2] at hgr
        cases hgr
      · obtain ⟨parent, rfl, hsees, _⟩ := parents p hparent
        have same := alloc_same lexical.ordered f (hp _ hparent)
        have hagrees := hsees.2 R group hr ((recursive_of_lexical (same R hr)).1 hrec) hg
        exact hagrees.transport (alloc_same lexical.ordered f hagrees.1)
  · intro g hg _ _ name hname
    rw [environment] at hg
    rw [← Option.some.inj (hself.symm.trans hg)] at hname
    exact owns name hname
  · intro _ view live hr
    rw [environment] at hr
    have live : below.Views view := by
      cases live with
      | scope live => exact .scope live
      | held live => exact .held live
    have hr := (views_old live).reaches.1 hr
    have := lexical.ordered.reaches_present hr (lexical'.sees _ live).1.1
    exact absurd rfl (lexical.ordered.ne_next this)
  · intro j hj other hother ho hr
    have hold : other ∈ s.activations j := by
      rwa [show below.activations j = s.activations j from activate_of_ne s hj _ _] at hother
    have hpresent := (lexical.sees _ (.scope hold)).1.1
    have hne := lexical.ordered.ne_next hpresent
    rw [environment] at hr
    rcases reaches hr with heq | ⟨p, hparent, hr⟩
    · exact hne heq
    · obtain ⟨parent, _, _, hapart⟩ := parents p hparent
      obtain ⟨g, hg, hrest⟩ := ho
      exact hapart j hj other hold ⟨g, (alloc_of_ne f hne).symm.trans hg, hrest⟩ hr
  · intro source R ha
    obtain ⟨_, hrec, hreach⟩ := active source R ha
    obtain ⟨p, hparent⟩ := Option.isSome_iff_exists.1 (rooted (by rw [ha]; rfl))
    have same := alloc_same lexical.ordered f (hp p hparent)
    have hr := hreach p hparent
    refine ⟨?_, (recursive_of_lexical (same R hr)).2 hrec⟩
    rw [environment]
    exact .head ⟨f, hself, hparent⟩ (same.reaches.2 hr)
  · intro source R ha x g locations hg hl hr
    obtain ⟨hfill, hrec, _⟩ := active source R ha
    by_cases hx : x = s.heap.next
    · rw [hx] at hg
      rw [← Option.some.inj (hself.symm.trans hg), fresh.2.1] at hl
      cases hl
    · have hg : s.heap.frames x = some g := (alloc_of_ne f hx).symm.trans hg
      exact (lexical.indexed x g locations hg hl).2.1 R ((alloc_same lexical.ordered f ⟨g, hg⟩).reaches.1 hr) hfill

theorem Lexical.others_apart (lexical : s.Lexical) (above : List (Scope V T))
    (hi : s.activations i = above ++ scope :: outer) :
    ∀ j, j ≠ i → ∀ other ∈ s.activations j, s.heap.Open other.environment →
      ¬ s.heap.Reaches scope.environment other.environment := by
  intro j hj other hother ho
  obtain ⟨before, after, hsplit⟩ := List.append_of_mem hother
  obtain ⟨_, hapart⟩ := lexical.apart j before other after hsplit ho
  refine hapart i (Ne.symm hj) scope ?_
  rw [hi]
  simp

theorem Lexical.sealed_apart (lexical : s.Lexical) (hs : s.heap.Sealed e) :
    ∀ j, j ≠ i → ∀ other ∈ s.activations j, s.heap.Open other.environment →
      ¬ s.heap.Reaches e other.environment :=
  fun _ _ _ _ ho hr => (lexical.upward.reaches hs hr).not_open ho

/-! ### Declarations -/

/-- What a write into a frame does to the names of a scope, whatever is below the frame. -/
structure Writes (scope view : View V T) (write : Frame V T → Frame V T) : Prop where
  kept : ∀ f, (write f).parent = f.parent ∧ (write f).recursiveBindings = f.recursiveBindings ∧
    (write f).captured = f.captured ∧ (write f).nameLocations = f.nameLocations
  means : ∀ (f : Frame V T) (below : Members T → String → Option (Binding V T)),
    (∀ name, (f.plain name).isSome → ∀ members, scope.may members name) →
    (∀ members name, scope.may members name →
      ((f.plain name).map .value).or (below members name) = scope.eager members name) →
    ∀ members name, view.may members name →
      (((write f).plain name).map .value).or (below members name) = view.eager members name
  owns : ∀ f : Frame V T, (∀ name, (f.plain name).isSome → ∀ members, scope.may members name) →
    ∀ name, ((write f).plain name).isSome → ∀ members, view.may members name

/-- **A declaration** through `declaration_env`: the frame is extended in place, or a child of it is. -/
theorem Lexical.declares (lexical : s.Lexical) (hi : s.activations i = scope :: outer)
    {write : Frame V T → Frame V T} (writes : Writes scope.toView view write)
    (environment : view.environment = (s.heap.declarationEnv scope.environment).1) {active : Option (ℕ × ℕ)}
    (kept : active = none ∨ active = scope.active) :
    (s.activate i ({ toView := view, active := active } :: outer)
      ((s.heap.declarationEnv scope.environment).2.modify
        (s.heap.declarationEnv scope.environment).1 write)).Lexical := by
  have hscope : scope ∈ s.activations i := by
    rw [hi]
    exact List.mem_cons_self
  have hsees := lexical.sees _ (.scope hscope)
  obtain ⟨⟨f, hf⟩, hmeans⟩ := hsees.1
  have rooted : ∀ source R, active = some (source, R) → s.Filling R ∧ s.heap.Reaches scope.environment R ∧
      s.heap.Recursive R := by
    intro source R ha
    rcases kept with rfl | rfl
    · cases ha
    · exact ⟨⟨i, scope, source, hscope, ha⟩, lexical.active i scope hscope source R ha⟩
  by_cases hc : (f.captured || f.recursiveBindings.isSome) = true
  · -- a child of a captured frame or of a recursive one
    have henv : s.heap.declarationEnv scope.environment = s.heap.childEnv (some scope.environment) := by
      rw [declarationEnv, hf]
      exact if_pos hc
    rw [henv] at environment ⊢
    have hheap : (s.heap.childEnv (some scope.environment)).2.modify
        (s.heap.childEnv (some scope.environment)).1 write =
          (s.heap.alloc (write { parent := some scope.environment })).2 := alloc_modify s.heap _ write
    obtain ⟨hparent, hrec, hcap, hloc⟩ := writes.kept { parent := some scope.environment }
    have nothing : ∀ name, (Frame.plain ({ parent := some scope.environment } : Frame V T) name).isSome →
        ∀ members, scope.may members name := fun name hname => by cases hname
    rw [hheap]
    refine lexical.enter [scope] hi ⟨hcap, hloc, hrec⟩ ?_ environment ?_ ?_ ?_ ?_
    · intro p hp
      rw [hparent, Option.some.injEq] at hp
      exact ⟨scope.toView, hp, hsees, hp ▸ lexical.others_apart [] hi⟩
    · rw [hparent]
      refine writes.means _ (fun members name => (s.heap.meaning scope.environment members name).map (·.2)) nothing ?_
      intro members name hmay
      exact (Option.none_or).trans (hmeans members name hmay)
    · exact writes.owns _ nothing
    · intro source R ha
      obtain ⟨hfill, hr, hrec⟩ := rooted source R ha
      refine ⟨hfill, hrec, fun p hp => ?_⟩
      rw [hparent, Option.some.injEq] at hp
      exact hp ▸ hr
    · rw [hparent]
      exact fun _ => rfl
  · -- in place: nothing else has the frame on its chain
    have henv : s.heap.declarationEnv scope.environment = (scope.environment, s.heap) := by
      rw [declarationEnv, hf]
      exact if_neg hc
    rw [henv] at environment ⊢
    have hopen : s.heap.Open scope.environment := by
      refine ⟨f, hf, ?_, ?_⟩
      · cases hcap : f.captured with
        | false => rfl
        | true => exact absurd (by rw [hcap]; rfl) hc
      · cases hrec : f.recursiveBindings with
        | none => rfl
        | some closures => exact absurd (by rw [hrec, Option.isSome_some, Bool.or_true]) hc
    obtain ⟨f', hf', hcap, hrec⟩ := hopen
    obtain rfl : f = f' := Option.some.inj (hf.symm.trans hf')
    obtain ⟨hbelow, hother⟩ := lexical.apart i [] scope outer hi ⟨f, hf, hcap, hrec⟩
    set below := s.activate i outer s.heap with hbelow_def
    have lexical' : below.Lexical := lexical.pop [scope] hi
    have unseen : ∀ other, below.Views other → ¬ below.heap.Reaches other.environment scope.environment := by
      intro other live
      cases live with
      | @scope j other live =>
        by_cases hj : j = i
        · subst hj
          rw [show below.activations j = outer from activate_self ..] at live
          exact hbelow other live
        · rw [show below.activations j = s.activations j from activate_of_ne s hj _ _] at live
          exact hother j hj other live
      | held live =>
        intro hr
        exact (lexical.upward.reaches (lexical.held other live) hr).not_open ⟨f, hf, hcap, hrec⟩
    have extended := lexical'.extend write ⟨f, hf, hcap, hrec⟩ unseen writes.kept
    have again : s.activate i ({ toView := view, active := active } :: outer) (s.heap.modify scope.environment write) =
        ({ below with heap := s.heap.modify scope.environment write } : State V T).activate i
          ({ toView := view, active := active } :: outer) (s.heap.modify scope.environment write) := by
      simp [below, activate]
    have hreach : (s.heap.modify scope.environment write).Reaches = s.heap.Reaches :=
      reaches_modify fun f => (writes.kept f).1
    have hself : (s.heap.modify scope.environment write).frames scope.environment = some (write f) := by
      rw [modify_self, hf]
      rfl
    rw [again]
    have environment : view.environment = scope.environment := environment
    refine extended.push (activate_self ..) ?_ ?_ ?_ ?_ ?_ ?_
    · refine ⟨⟨⟨write f, by rw [environment]; exact hself⟩, fun members name hmay => ?_⟩, fun R group hr hR hg => ?_⟩
      · change ((s.heap.modify scope.environment write).meaning view.environment members name).map (·.2) = _
        have hplain : ((write f).withMembers (members scope.environment)).recursiveBindings = none := by
          simp [Frame.withMembers, (writes.kept f).2.1, hrec]
        have hold : (f.withMembers (members scope.environment)).recursiveBindings = none := by
          simp [Frame.withMembers, hrec]
        have hordered : (s.heap.modify scope.environment write).Ordered := extended.ordered
        rw [environment, meaning_eq hordered hself, Frame.own_of_plain hplain, (writes.kept f).1]
        have hparent : (f.parent.bind fun p => (s.heap.modify scope.environment write).meaning p members name) =
            f.parent.bind fun p => s.heap.meaning p members name := by
          cases hp : f.parent with
          | none => rfl
          | some p => exact (modify_same lexical.ordered write (lexical.ordered.parent _ f p hf hp).1).meaning members
        rw [hparent]
        refine writes.means f (fun members name => (f.parent.bind fun p => s.heap.meaning p members name).map (·.2))
          (fun name hname => lexical.owns i scope hscope f hf hcap hrec name hname) ?_ members name hmay
        intro members name hmay
        rw [← hmeans members name hmay, meaning_eq lexical.ordered hf,
          Frame.own_of_plain (by simp [Frame.withMembers, hrec])]
        rfl
      · have hr : s.heap.Reaches scope.environment R := by
          rw [environment] at hr
          exact hreach ▸ hr
        have hne : R ≠ scope.environment := by
          rintro rfl
          obtain ⟨g, hg, hgr⟩ := hR
          rw [← Option.some.inj (hself.symm.trans hg), (writes.kept f).2.1, hrec] at hgr
          cases hgr
        have hlt := lexical.ordered.reaches_le hr
        have hsame := modify_same lexical.ordered write (show R < scope.environment by omega)
        have hagrees := hsees.2 R group hr ((recursive_of_lexical (hsame R .refl)).1 hR) hg
        refine hagrees.transport ?_
        rw [lexical.groups R group hg]
        exact hsame
    · intro g hg _ _ name hname
      have hg : (s.heap.modify scope.environment write).frames scope.environment = some g := environment ▸ hg
      rw [← Option.some.inj (hself.symm.trans hg)] at hname
      exact writes.owns f (fun name hname => lexical.owns i scope hscope f hf hcap hrec name hname) name hname
    · intro _ other live hr
      have live : below.Views other := by
        cases live with
        | scope live => exact .scope live
        | held live => exact .held live
      refine unseen other live ?_
      rw [← environment]
      exact hreach ▸ hr
    · intro j hj other live ho hr
      have live : other ∈ s.activations j := by
        rwa [show below.activations j = s.activations j from activate_of_ne s hj _ _] at live
      have hr : s.heap.Reaches scope.environment other.environment := by
        rw [environment] at hr
        exact hreach ▸ hr
      obtain ⟨g, hg, hrest⟩ := ho
      have hne : other.environment ≠ scope.environment := fun heq => hother j hj other live (heq ▸ .refl)
      have hg : s.heap.frames other.environment = some g := (modify_of_ne write hne).symm.trans hg
      exact lexical.others_apart [] hi j hj other live ⟨g, hg, hrest⟩ hr
    · intro source R ha
      obtain ⟨_, hr, hR⟩ := rooted source R ha
      have hR' : (s.heap.modify scope.environment write).Recursive R := by
        have hne : R ≠ scope.environment := by
          rintro rfl
          obtain ⟨g, hg, hgr⟩ := hR
          rw [← Option.some.inj (hf.symm.trans hg), hrec] at hgr
          cases hgr
        obtain ⟨g, hg, hgr⟩ := hR
        exact ⟨g, (modify_of_ne write hne).trans hg, hgr⟩
      refine ⟨?_, hR'⟩
      rw [environment]
      exact hreach ▸ hr
    · intro source R ha x g locations hg hl hr
      obtain ⟨hfill, _, _⟩ := rooted source R ha
      obtain ⟨g', hg', hsame⟩ := read_modify hg
      have hl' : g'.nameLocations = some locations := by
        obtain ⟨_, rfl⟩ | ⟨_, rfl⟩ := hsame
        · exact hl
        · exact (writes.kept g').2.2.2.symm.trans hl
      exact (lexical.indexed x g' locations hg' hl').2.1 R (hreach ▸ hr) hfill

theorem lookup_reverse_none {entries : Table String V} (h : entries.reverse.lookup n = none) :
    entries.lookup n = none := by
  rw [List.lookup_eq_none_iff] at h ⊢
  exact fun p hp => h p (List.mem_reverse.2 hp)

theorem lookup_reverse_isSome {entries : Table String V} (h : (entries.reverse.lookup n).isSome) :
    (entries.lookup n).isSome := by
  rw [List.lookup_isSome_iff] at h ⊢
  obtain ⟨p, hp, hn⟩ := h
  exact ⟨p, List.mem_reverse.1 hp, hn⟩

theorem plain_extend (f : Frame V T) (entries : Table String V) :
    Frame.plain { f with names := f.names.extend entries } n = (entries.reverse.lookup n).or (f.plain n) := by
  unfold Frame.plain
  rw [Table.lookup_extend, Option.or_assoc]

theorem writes_declare (scope : Scope V T) (entries : Table String V) (environment : ℕ) :
    Writes scope.toView { environment := environment, eager := scope.eager.declare entries
                          may := adding entries scope.may }
      fun f => { f with names := f.names.extend entries } := by
  refine ⟨fun f => ⟨rfl, rfl, rfl, rfl⟩, fun f below _ means members name hmay => ?_,
    fun f owns name hname members => ?_⟩
  · rw [plain_extend]
    change _ = ((entries.reverse.lookup name).map Binding.value).or (scope.eager members name)
    cases hl : entries.reverse.lookup name with
    | some v => rfl
    | none =>
      rcases hmay with hnew | hmay
      · rw [lookup_reverse_none hl] at hnew
        cases hnew
      · exact means members name hmay
  · rw [plain_extend] at hname
    cases hl : entries.reverse.lookup name with
    | some v => exact .inl (lookup_reverse_isSome (by rw [hl]; rfl))
    | none =>
      rw [hl, Option.none_or] at hname
      exact .inr (owns name hname members)

theorem writes_sign (scope : Scope V T) (name : String) (value : V) (environment : ℕ) :
    Writes scope.toView { scope.toView with environment := environment }
      fun f => { f with signatures := f.signatures.insert name value } :=
  ⟨fun _ => ⟨rfl, rfl, rfl, rfl⟩, fun _ _ _ means => means, fun _ owns => owns⟩

theorem writes_open (scope : Scope V T) (fields : Table String V) (environment : ℕ)
    (invisible : ∀ name, (fields.lookup name).isSome → scope.eager s.members name = none) :
    Writes scope.toView { environment := environment, eager := scope.eager.opened fields
                          may := adding fields scope.may }
      fun f => { f with opens := f.opens ++ [fields] } := by
  have plain : ∀ (f : Frame V T) name, Frame.plain { f with opens := f.opens ++ [fields] } name =
      (f.names.lookup name).or ((fields.lookup name).or (f.opens.reverse.findSome? (·.lookup name))) := by
    intro f name
    unfold Frame.plain
    rw [List.reverse_append, List.reverse_singleton, List.singleton_append, List.findSome?_cons]
    cases fields.lookup name <;> rfl
  refine ⟨fun f => ⟨rfl, rfl, rfl, rfl⟩, fun f below owns means members name hmay => ?_,
    fun f owns name hname members => ?_⟩
  · rw [plain]
    change _ = ((fields.lookup name).map Binding.value).or (scope.eager members name)
    cases hl : fields.lookup name with
    | some v =>
      -- the frame has no such name yet, or the scope would have seen it
      have hnames : f.names.lookup name = none := by
        cases hn : f.names.lookup name with
        | none => rfl
        | some w =>
          have hplain : f.plain name = some w := by rw [Frame.plain, hn, Option.some_or]
          have hold := means s.members name (owns name (by rw [hplain]; rfl) s.members)
          rw [invisible name (by rw [hl]; rfl), hplain] at hold
          cases hold
      rw [hnames]
      rfl
    | none =>
      rcases hmay with hnew | hmay
      · rw [hl] at hnew
        cases hnew
      · rw [Option.none_or]
        exact means members name hmay
  · rw [plain] at hname
    cases hl : fields.lookup name with
    | some v => exact .inl (by rw [hl]; rfl)
    | none =>
      rw [hl, Option.none_or] at hname
      exact .inr (owns name hname members)

/-! ### One step -/

theorem Lexical.child (lexical : s.Lexical) (hi : s.activations i = outer) {parent : View V T}
    (sees : s.Sees parent) (others : ∀ j, j ≠ i → ∀ other ∈ s.activations j, s.heap.Open other.environment →
      ¬ s.heap.Reaches parent.environment other.environment) (entries : Table String V) :
    (s.activate i ({ environment := (childOf s.heap (some parent.environment) entries).1
                     eager := parent.eager.declare entries, may := adding entries parent.may } :: outer)
      (childOf s.heap (some parent.environment) entries).2).Lexical := by
  have writes := writes_declare { toView := parent } entries s.heap.next
  have nothing : ∀ name, (Frame.plain ({ parent := some parent.environment } : Frame V T) name).isSome →
      ∀ members, parent.may members name := fun name hname => by cases hname
  rw [childOf_eq]
  refine lexical.enter [] hi ⟨rfl, rfl, rfl⟩ ?_ rfl ?_
    (writes.owns { parent := some parent.environment } nothing) ?_ (fun h => by cases h)
  · intro p hp
    obtain rfl : parent.environment = p := Option.some.inj hp
    exact ⟨parent, rfl, sees, others⟩
  · refine writes.means { parent := some parent.environment }
      (fun members name => (s.heap.meaning parent.environment members name).map (·.2)) nothing ?_
    intro members name hmay
    exact (Option.none_or).trans (sees.1.2 members name hmay)
  · intro source R ha
    cases ha

theorem top_mem (hi : s.activations i = scope :: outer) : scope ∈ s.activations i := by
  rw [hi]
  exact List.mem_cons_self

/-- **The first member of a group**: its frame is entered. -/
theorem Lexical.openGroup (lexical : s.Lexical) (hi : s.activations i = scope :: outer) (source : ℕ)
    (opens : view =
      { environment := s.heap.next, eager := scope.eager.group s.heap.next
        may := fun members name => ((members s.heap.next).lookup name).isSome ∨ scope.may members name }) :
    ({ s.activate i ({ toView := view, active := some (source, s.heap.next) } :: outer)
        (s.heap.recursiveEnv (some scope.environment)).2 with
      members := Function.update s.members s.heap.next []
      groups := Function.update s.groups s.heap.next (some view) } : State V T).Lexical := by
  have hscope := top_mem hi
  have hsees := lexical.sees _ (.scope hscope)
  obtain ⟨hpresent, hmeans⟩ := hsees.1
  set frame : Frame V T := { parent := some scope.environment, recursiveBindings := some [] } with hframe
  have hp : ∀ p, frame.parent = some p → ∃ g, s.heap.frames p = some g := by
    intro p hp
    obtain rfl : scope.environment = p := Option.some.inj hp
    exact hpresent
  set below := s.activate i outer s.heap with hbelow
  have lexical' : below.Lexical := lexical.pop [scope] hi
  have hself := alloc_self s.heap frame
  have henv : view.environment = s.heap.next := by rw [opens]
  set groups := Function.update s.groups s.heap.next (some view) with hgroups
  set members := Function.update s.members s.heap.next [] with hmembers
  have allocated : ({ below with heap := (s.heap.alloc frame).2, members := members, groups := groups } :
      State V T).Lexical := by
    refine lexical'.alloc hp ⟨rfl, rfl⟩ _ _ (fun e => ?_) (fun e he => Function.update_of_ne he ..) fun group hg => ?_
    · change members e = if e = s.heap.next then [] else s.members e
      rw [hmembers, Function.update_apply]
    · rw [hgroups, show below.heap.next = s.heap.next from rfl, Function.update_self, Option.some.injEq] at hg
      rw [← hg]
      exact henv
  have reaches : ∀ {x}, (s.heap.alloc frame).2.Reaches s.heap.next x →
      x = s.heap.next ∨ s.heap.Reaches scope.environment x := by
    intro x hr
    rcases alloc_reaches lexical.ordered hp hr with hx | ⟨p, hparent, hr⟩
    · exact .inl hx
    · obtain rfl : scope.environment = p := Option.some.inj hparent
      exact .inr hr
  have same : ∀ {a}, (∃ g, s.heap.frames a = some g) → s.heap.SameAlong (s.heap.alloc frame).2 a :=
    alloc_same lexical.ordered frame
  have fresh : ∀ {x}, s.heap.Reaches scope.environment x → x ≠ s.heap.next := fun hr =>
    lexical.ordered.ne_next (lexical.ordered.reaches_present hr hpresent)
  have again : ({ s.activate i ({ toView := view, active := some (source, s.heap.next) } :: outer)
        (s.heap.recursiveEnv (some scope.environment)).2 with members := members, groups := groups } : State V T) =
      ({ below with heap := (s.heap.alloc frame).2, members := members, groups := groups } : State V T).activate i
        ({ toView := view, active := some (source, s.heap.next) } :: outer) (s.heap.alloc frame).2 := by
    simp [below, activate, recursiveEnv, hframe]
  have agrees : ({ below with heap := (s.heap.alloc frame).2, members := members, groups := groups } :
      State V T).Agrees view := by
    refine ⟨⟨frame, by rw [henv]; exact hself⟩, fun members name hmay => ?_⟩
    change ((s.heap.alloc frame).2.meaning view.environment members name).map (·.2) = _
    rw [henv, alloc_meaning lexical.ordered hp]
    rw [opens] at hmay ⊢
    change ((frame.withMembers (members s.heap.next)).own s.heap.next name).or
      ((s.heap.meaning scope.environment members name).map (·.2)) =
      (((members s.heap.next).lookup name).map (Binding.member · s.heap.next)).or (scope.eager members name)
    have hown : (frame.withMembers (members s.heap.next)).own s.heap.next name =
        ((members s.heap.next).lookup name).map (Binding.member · s.heap.next) := by
      unfold Frame.own Frame.withMembers
      simp only [hframe, List.lookup_nil, Option.map_some, Option.bind_some]
      cases (members s.heap.next).lookup name <;> rfl
    rw [hown]
    cases hl : (members s.heap.next).lookup name with
    | some t => rfl
    | none =>
      rcases hmay with hnew | hmay
      · rw [hl] at hnew
        cases hnew
      · exact hmeans members name hmay
  rw [again]
  refine allocated.push (activate_self s i outer s.heap) ⟨agrees, fun R group hr hR hg => ?_⟩ ?_ ?_ ?_ ?_ ?_
  · rw [henv] at hr
    rcases reaches hr with rfl | hr
    · have hg : groups s.heap.next = some group := hg
      rw [hgroups, Function.update_self, Option.some.injEq] at hg
      exact hg ▸ agrees
    · have hg : groups R = some group := hg
      rw [hgroups, Function.update_of_ne (fresh hr)] at hg
      have hsame := same (lexical.ordered.reaches_present hr hpresent)
      have hagrees := hsees.2 R group hr ((recursive_of_lexical (hsame R .refl)).1 hR) hg
      refine hagrees.transport ?_
      rw [lexical.groups R group hg]
      exact hsame
  · intro g hg _ hrec
    rw [henv] at hg
    rw [← Option.some.inj (hself.symm.trans hg)] at hrec
    cases hrec
  · rintro ⟨g, hg, _, hrec⟩
    rw [show ({ toView := view, active := some (source, s.heap.next) } : Scope V T).environment = s.heap.next
      from henv] at hg
    rw [← Option.some.inj (hself.symm.trans hg)] at hrec
    cases hrec
  · intro j hj other live ho hr
    have live : other ∈ s.activations j := by
      rwa [show below.activations j = s.activations j from activate_of_ne s hj _ _] at live
    have hne := lexical.ordered.ne_next (lexical.sees _ (.scope live)).1.1
    rw [henv] at hr
    rcases reaches hr with heq | hr
    · exact hne heq
    · obtain ⟨g, hg, hrest⟩ := ho
      exact lexical.others_apart [] hi j hj other live ⟨g, (alloc_of_ne frame hne).symm.trans hg, hrest⟩ hr
  · intro source' R ha
    obtain ⟨rfl, rfl⟩ := Prod.mk.inj (Option.some.inj ha)
    refine ⟨?_, frame, hself, rfl⟩
    rw [henv]
  · intro source' R ha x g locations hg hl hr
    obtain ⟨rfl, rfl⟩ := Prod.mk.inj (Option.some.inj ha)
    by_cases hx : x = s.heap.next
    · rw [hx] at hg
      rw [← Option.some.inj (hself.symm.trans hg)] at hl
      cases hl
    · have hg : s.heap.frames x = some g := (alloc_of_ne frame hx).symm.trans hg
      have hr := (same ⟨g, hg⟩).reaches.1 hr
      exact lexical.ordered.ne_next (lexical.ordered.reaches_present hr ⟨g, hg⟩) rfl

theorem Lexical.hold (lexical : s.Lexical) (sees : s.Sees view) (hs : s.heap.Sealed view.environment) :
    ({ s with held := view :: s.held } : State V T).Lexical :=
  lexical.withHeld fun other hother => by
    rcases List.mem_cons.1 hother with rfl | hother
    · exact .inr ⟨sees, hs⟩
    · exact .inl hother

/-- **A compact capture** agrees on the names it was made for. -/
theorem Lexical.capturesBefore (lexical : s.Lexical) (sees : s.Sees view) (base : ℕ) (names : List String) :
    (s.hold
      { environment := (s.heap.captureBefore view.environment base names).1, eager := view.eager
        may := fun members name => name ∈ names ∧ view.may members name }
      (s.heap.captureBefore view.environment base names).2).Lexical := by
  obtain ⟨hpresent, hmeans⟩ := sees.1
  cases hframes : s.heap.framesBefore base (view.environment + 1) view.environment with
  | none =>
    have hcapture : s.heap.captureBefore view.environment base names =
        (view.environment, s.heap.captureEnv view.environment) := by
      rw [captureBefore, hframes]
    have captured := lexical.capture hpresent
    have quiet := (captureEnv_captures s.heap view.environment).quiet
    rw [hcapture]
    refine captured.hold ?_ (captureEnv_sealed lexical.ordered lexical.upward hpresent .refl)
    have hsees : ({ s with heap := s.heap.captureEnv view.environment } : State V T).Sees view :=
      sees.transport (quiet.same _) lexical.groups fun _ _ => rfl
    exact ⟨⟨hsees.1.1, fun members name hmay => hsees.1.2 members name hmay.2⟩, hsees.2⟩
  | some frames =>
    have hreach := (@framesBefore_meaning _ _ _ _ _ "" _ _ s.members lexical.ordered hframes).1
    have hbase := lexical.ordered.reaches_present hreach hpresent
    set start : Frame V T × List String := ({ parent := some base }, names.dedup) with hstart
    have taken : Taken start (fun name => frames.findSome? (·.plain name)) (frames.foldl takeFrame start) :=
      takeFrames_taken frames fun name _ => rfl
    set copy := (frames.foldl takeFrame start).1 with hcopy
    obtain ⟨hparent, hrec, hcap, hloc⟩ := taken.shape
    have hparent : copy.parent = some base := hparent
    have hrec : copy.recursiveBindings = none := hrec
    have hp : ∀ p, copy.parent = some p → ∃ g, s.heap.frames p = some g := by
      intro p hp
      rw [hparent] at hp
      obtain rfl : base = p := Option.some.inj hp
      exact hbase
    have hcapture : s.heap.captureBefore view.environment base names =
        (s.heap.next, (s.heap.alloc copy).2.captureEnv s.heap.next) := by
      rw [captureBefore, hframes]
      rfl
    have allocated := lexical.allocChild hp ⟨hcap, hloc, hrec⟩
    have hself := alloc_self s.heap copy
    have hthere : ∃ g, (s.heap.alloc copy).2.frames s.heap.next = some g := ⟨copy, hself⟩
    have captured := allocated.capture hthere
    have quiet := (captureEnv_captures (s.heap.alloc copy).2 s.heap.next).quiet
    rw [hcapture]
    refine captured.hold ?_ (captureEnv_sealed allocated.ordered allocated.upward hthere .refl)
    refine Sees.transport (s := { s with heap := (s.heap.alloc copy).2 }) ?_ (quiet.same _) lexical.groups
      fun _ _ => rfl
    refine ⟨⟨hthere, fun members name hmay => ?_⟩, fun R group hr hR hg => ?_⟩
    · change ((s.heap.alloc copy).2.meaning s.heap.next members name).map (·.2) = view.eager members name
      have hplain : (copy.withMembers (members s.heap.next)).recursiveBindings = none := by
        simp [Frame.withMembers, hrec]
      rw [alloc_meaning lexical.ordered hp, Frame.own_of_plain hplain, hparent, ← hmeans members name hmay.2,
        (framesBefore_meaning lexical.ordered hframes).2]
      have hmem : name ∈ start.2 := List.mem_dedup.2 hmay.1
      have hcopied : copy.plain name = frames.findSome? (·.plain name) := by
        rw [hcopy, taken.plain, if_pos hmem]
      change ((copy.plain name).map Binding.value).or _ = _
      rw [hcopied]
      rfl
    · rcases alloc_reaches lexical.ordered hp hr with rfl | ⟨p, hpp, hr⟩
      · obtain ⟨g, hg, hgr⟩ := hR
        rw [← Option.some.inj (hself.symm.trans hg), hrec] at hgr
        cases hgr
      · rw [hparent] at hpp
        obtain rfl : base = p := Option.some.inj hpp
        have hr' := hreach.trans hr
        have hsame := alloc_same lexical.ordered copy (lexical.ordered.reaches_present hr' hpresent)
        have hagrees := sees.2 R group hr' ((recursive_of_lexical (hsame R .refl)).1 hR) hg
        refine hagrees.transport ?_
        rw [lexical.groups R group hg]
        exact hsame

/-- **A read** keeps the invariant; the closure of a member that it finds is alive. -/
theorem Lexical.reads (lexical : s.Lexical) (live : s.Views view) {found : Option (Binding V T)} {heap : Heap V T}
    (finds : s.heap.findBinding view.environment n = .ok (found, heap)) :
    ({ s with heap := heap, held := s.materialized found ++ s.held } : State V T).Lexical := by
  obtain ⟨hpresent, _⟩ := (lexical.sees view live).1
  rw [(lexical.finds live n).1, Except.ok.injEq, Prod.mk.injEq] at finds
  obtain ⟨rfl, rfl⟩ := finds
  cases hm : s.heap.meaning view.environment s.heap.members n with
  | none => exact lexical
  | some owned =>
    obtain ⟨o, b⟩ := owned
    cases b with
    | value v => exact lexical
    | member template R =>
      obtain ⟨hr, f, hf, hown⟩ := meaning_owner hm
      rw [withMembers_members hf] at hown
      -- the member belongs to the frame that it was found in
      have hmember : R = o ∧ f.recursiveBindings.isSome := by
        unfold Frame.own at hown
        cases hn : f.names.lookup n with
        | some v =>
          rw [hn] at hown
          cases hown
        | none =>
          rw [hn] at hown
          dsimp only at hown
          cases hrec : f.recursiveBindings with
          | none =>
            rw [hrec] at hown
            cases ho : f.opens.reverse.findSome? (·.lookup n) with
            | none => simp [ho] at hown
            | some v => simp [ho] at hown
          | some closures =>
            rw [hrec, Option.bind_some] at hown
            cases hc : closures.lookup n with
            | some t =>
              rw [hc] at hown
              cases hown
              exact ⟨rfl, rfl⟩
            | none =>
              rw [hc] at hown
              cases ho : f.opens.reverse.findSome? (·.lookup n) with
              | none => simp [ho] at hown
              | some v => simp [ho] at hown
      obtain ⟨rfl, hrec⟩ := hmember
      have quiet := (captureEnv_captures s.heap R).quiet
      refine (lexical.capture ⟨f, hf⟩).withHeld fun other hother => ?_
      rcases List.mem_append.1 hother with hnew | hold
      · have hg : s.groups R = some other := by simpa [materialized] using hnew
        have named := lexical.groups R other hg
        have hsees := (lexical.sees view live).group hr ⟨f, hf, hrec⟩ hg named
        refine .inr ⟨hsees.transport (quiet.same _) lexical.groups fun _ _ => rfl, ?_⟩
        rw [named]
        exact captureEnv_sealed lexical.ordered lexical.upward ⟨f, hf⟩ .refl
      · exact .inl hold

/-- **Every scope operation keeps the invariant.** -/
theorem Lexical.step {t : State V T} (lexical : s.Lexical) (step : Step s t) : t.Lexical := by
  cases step with
  | module idle =>
    refine lexical.enter [] idle ⟨rfl, rfl, rfl⟩ ?_ rfl ?_ ?_ ?_ (fun h => by cases h)
    · intro p hp
      cases hp
    · intro members name _
      rfl
    · intro name hname
      cases hname
    · intro source R ha
      cases ha
  | @block i scope outer at_top entries =>
    exact lexical.child at_top (lexical.sees _ (.scope (top_mem at_top)))
      (lexical.others_apart [] at_top) entries
  | @call i view idle live entries =>
    exact lexical.child idle (lexical.sees view (.held live)) (lexical.sealed_apart (lexical.held view live)) entries
  | @force i view idle live =>
    have hs := lexical.held view live
    refine lexical.push idle (lexical.sees view (.held live)) ?_ (fun ho => absurd ho hs.not_open)
      (lexical.sealed_apart hs) ?_ ?_
    · intro f hf hc hrec
      exact absurd ⟨f, hf, hc, hrec⟩ hs.not_open
    · intro source R ha
      cases ha
    · intro source R ha
      cases ha
  | leave at_top => exact lexical.pop [_] at_top
  | @declare i scope outer at_top entries =>
    exact lexical.declares at_top (writes_declare scope entries _) rfl (.inl rfl)
  | @signature i scope outer at_top name value =>
    exact lexical.declares at_top (writes_sign scope name value _) rfl (.inr rfl)
  | @opened i scope outer at_top fields invisible =>
    exact lexical.declares at_top (writes_open scope fields _ invisible) rfl (.inl rfl)
  | @group i scope outer view at_top source new opens => exact lexical.openGroup at_top source opens
  | @binding i scope outer view at_top source R active known =>
    have hscope := top_mem at_top
    obtain ⟨hr, hR⟩ := lexical.active i scope hscope source R active
    have named := lexical.groups R view known
    have hclosed : ¬ s.heap.Open view.environment := by
      rw [named]
      rintro ⟨f, hf, _, hrec⟩
      obtain ⟨g, hg, hgr⟩ := hR
      rw [← Option.some.inj (hf.symm.trans hg), hrec] at hgr
      cases hgr
    refine lexical.push at_top ((lexical.sees _ (.scope hscope)).group hr hR known named) ?_
      (fun ho => absurd ho hclosed) ?_ ?_ ?_
    · intro f hf hc hrec
      exact absurd ⟨f, hf, hc, hrec⟩ hclosed
    · intro j hj other live ho hother
      rw [show ({ toView := view } : Scope V T).environment = R from named] at hother
      exact lexical.others_apart [] at_top j hj other live ho (hr.trans hother)
    · intro source R ha
      cases ha
    · intro source R ha
      cases ha
  | @fill i scope outer at_top source R active name template heap inserts =>
    have hscope := top_mem at_top
    obtain ⟨_, f, hf, hrec⟩ := lexical.active i scope hscope source R active
    have captured := lexical.capture ⟨f, hf⟩
    have quiet := (captureEnv_captures s.heap R).quiet
    have hR : (s.heap.captureEnv R).Recursive R := (recursive_of_lexical (quiet.lexical R)).2 ⟨f, hf, hrec⟩
    obtain ⟨g, hg, hgr⟩ := hR
    obtain ⟨closures, hclosures⟩ := Option.isSome_iff_exists.1 hgr
    have hmembers : s.members R = closures := by
      rw [lexical.members R (.inr ⟨f, hf⟩), ← quiet.members R]
      unfold Heap.members
      rw [hg, Option.bind_some, hclosures]
      rfl
    rw [insertMember, hg, Option.bind_some, hclosures] at inserts
    dsimp only at inserts
    by_cases hdup : (closures.lookup name).isSome = true
    · rw [if_pos hdup] at inserts
      cases inserts
    · rw [if_neg hdup, if_neg (by simp), Except.ok.injEq] at inserts
      rw [← inserts, hmembers]
      have again : s.activate i (scope :: outer) ((s.heap.captureEnv R).modify R fun f =>
            { f with recursiveBindings := some (closures.insert name template) }) =
          { s with heap := (s.heap.captureEnv R).modify R fun f =>
            { f with recursiveBindings := some (closures.insert name template) } } := by
        unfold activate
        rw [← at_top, Function.update_eq_self]
      rw [again]
      exact captured.fill (closures.insert name template) ⟨g, hg, hgr⟩ ⟨i, scope, source, hscope, active⟩
        fun f => ⟨rfl, rfl, rfl, rfl⟩
  | @close i scope outer at_top =>
    have hsees := lexical.sees _ (.scope (top_mem at_top))
    obtain ⟨hpresent, _⟩ := hsees.1
    have quiet := (captureEnv_captures s.heap scope.environment).quiet
    exact (lexical.capture hpresent).hold (hsees.transport (quiet.same _) lexical.groups fun _ _ => rfl)
      (captureEnv_sealed lexical.ordered lexical.upward hpresent .refl)
  | @closeBefore i scope outer at_top base names =>
    exact lexical.capturesBefore (lexical.sees _ (.scope (top_mem at_top))) base names
  | read live _ finds => exact lexical.reads live finds
  | index environment present complete => exact lexical.index present complete
  | substitute at_top types effects => exact lexical.annotate fun f => ⟨rfl, rfl, rfl, rfl⟩
  | release held fewer => exact lexical.withHeld fun view live => .inl (fewer live)
  | collect environment unheld childless => exact lexical.collect unheld childless

theorem lexical_initial : (initial : State V T).Lexical where
  ordered := by
    constructor
    · intro e f hf
      cases hf
    · intro e f p hf
      cases hf
  upward := fun _ _ ⟨_, hf, _⟩ => nomatch hf
  sees := fun _ live => by
    cases live with
    | scope live => cases live
    | held live => cases live
  held := fun _ live => nomatch live
  groups := fun _ _ hg => nomatch hg
  members := fun _ _ => rfl
  owns := fun _ _ live => nomatch live
  apart := fun _ above _ _ hi => by simp [initial] at hi
  active := fun _ _ live => nomatch live
  indexed := fun _ _ _ hf => nomatch hf

end State

theorem Reachable.lexical (reachable : Reachable s) : s.Lexical := by
  induction reachable with
  | initial => exact lexical_initial
  | step _ step ih => exact ih.step step

/-- **Environments keep lexical lookup**: in every state that scope operations lead to, a lookup in an environment that
a pending declaration or a value holds never fails, and for a name that may be looked up there it finds exactly the
binding of the eager model. -/
theorem lookups_find_the_eager_binding (reachable : Reachable s) (live : s.Views view) (name : String) :
    ∃ found heap, s.heap.findBinding view.environment name = .ok (found, heap) ∧
      (view.may s.members name → found = view.eager s.members name) := by
  obtain ⟨hfinds, hagrees⟩ := reachable.lexical.finds live name
  exact ⟨_, _, hfinds, hagrees⟩

/-- A closure in a block keeps the `y` of the block in a compact copy, and finds it there when `y` is declared again. -/
theorem lookups_find_the_eager_binding_captured :
    ∃ (s : State ℕ ℕ) (view : View ℕ ℕ) (frame : Frame ℕ ℕ), s.heap.frames view.environment = some frame ∧
      frame.names = [("y", 3)] ∧ frame.parent = some 0 ∧ view.eager s.members "y" = some (.value 3) ∧
      view.may s.members "y" ∧
      ∃ found heap, s.heap.findBinding view.environment "y" = .ok (found, heap) ∧
        (view.may s.members "y" → found = view.eager s.members "y") := by
  have start : Reachable (.initial : State ℕ ℕ) := .initial
  have entered := start.step (.module (i := 0) rfl)
  have declared := entered.step (.declare (i := 0) rfl [("x", 1)])
  have inBlock := declared.step (.block (i := 0) rfl [("y", 3), ("z", 4)])
  have closed := inBlock.step (.closeBefore (i := 0) rfl 0 ["x", "y"])
  have shadowed := closed.step (.declare (i := 0) rfl [("y", 2)])
  refine ⟨_, _, ?frame, ?present, ?names, ?parent, ?eager, ?may,
    lookups_find_the_eager_binding shadowed (.held (List.mem_cons_self ..)) "y"⟩
  case present => rfl
  case names => rfl
  case parent => rfl
  case eager => rfl
  case may => exact ⟨by decide, .inl rfl⟩

end Blot.Environment
