import Mathlib.Data.List.Nodup
import Mathlib.Algebra.Order.Ring.Nat

/-!
# Depth-first orders and strongly connected components

A depth-first search marks a node when it meets it and lists it when all it leads to is listed.  Where a finished list
is taken from the last node on, what leads to a node past none that is taken already is the component of the node.
-/

namespace Blot.Support.DepthFirst

open Relation

variable {V : Type}

abbrev Leads (edges : V → List V) : V → V → Prop := ReflTransGen fun a b => b ∈ edges a

def Mutual (edges : V → List V) (a b : V) : Prop := Leads edges a b ∧ Leads edges b a

def OnCycle (edges : V → List V) (v : V) : Prop := TransGen (fun a b => b ∈ edges a) v v

structure Marks (V : Type) where
  visited : List V
  order : List V

/-- **The depth-first search** of the nodes of a list, one after another: a node that is not marked is marked, its
targets are searched, and it is finished. -/
inductive Explores (edges : V → List V) : Marks V → List V → Marks V → Prop
  | done (m : Marks V) : Explores edges m [] m
  | skip {m m' : Marks V} {v : V} {vs : List V} (h : v ∈ m.visited) (rest : Explores edges m vs m') :
      Explores edges m (v :: vs) m'
  | visit {m inner m' : Marks V} {v : V} {vs : List V} (h : v ∉ m.visited)
      (targets : Explores edges ⟨v :: m.visited, m.order⟩ (edges v) inner)
      (rest : Explores edges ⟨inner.visited, v :: inner.order⟩ vs m') : Explores edges m (v :: vs) m'

variable {edges : V → List V}

theorem Explores.append {m m₁ m' : Marks V} {vs ws : List V} (h : Explores edges m vs m₁)
    (h' : Explores edges m₁ ws m') : Explores edges m (vs ++ ws) m' := by
  induction h with
  | done => exact h'
  | skip hv _ ih => exact .skip hv (ih h')
  | visit hv targets _ _ ih => exact .visit hv targets (ih h')

/-! ### What holds of a finishing order -/

/-- When a node is finished, what the finished nodes lead to is finished or leads to the node. -/
def FinishOrder (edges : V → List V) : List V → Prop
  | [] => True
  | v :: earlier =>
    (∀ x ∈ v :: earlier, ∀ w ∈ edges x, w ∈ v :: earlier ∨ Leads edges w v) ∧ FinishOrder edges earlier

structure Searching (edges : V → List V) (active : List V) (m : Marks V) : Prop where
  visited : ∀ v, v ∈ m.visited ↔ v ∈ m.order ∨ v ∈ active
  apart : ∀ v ∈ active, v ∉ m.order
  nodup : m.order.Nodup
  met : ∀ v ∈ m.order, ∀ w ∈ edges v, w ∈ m.visited
  finishes : FinishOrder edges m.order

theorem Searching.mark {active : List V} {m : Marks V} {v : V} (h : Searching edges active m) (hv : v ∉ m.visited) :
    Searching edges (v :: active) ⟨v :: m.visited, m.order⟩ where
  visited w := by
    rw [List.mem_cons, List.mem_cons, h.visited w]
    tauto
  apart w hw := by
    rcases List.mem_cons.mp hw with rfl | hw
    · exact fun horder => hv ((h.visited w).mpr (.inl horder))
    · exact h.apart w hw
  nodup := h.nodup
  met x hx w hw := List.mem_cons_of_mem _ (h.met x hx w hw)
  finishes := h.finishes

theorem Searching.finish {active : List V} {m : Marks V} {v : V} (h : Searching edges (v :: active) m)
    (hactive : ∀ a ∈ active, Leads edges a v) (hv : ∀ w ∈ edges v, w ∈ m.visited) (hnew : v ∉ active) :
    Searching edges active ⟨m.visited, v :: m.order⟩ where
  visited w := by
    rw [h.visited w, List.mem_cons, List.mem_cons]
    tauto
  apart w hw := by
    rintro hmem
    rcases List.mem_cons.mp hmem with rfl | hmem
    · exact hnew hw
    · exact h.apart w (List.mem_cons_of_mem _ hw) hmem
  nodup := List.nodup_cons.mpr ⟨h.apart v List.mem_cons_self, h.nodup⟩
  met x hx w hw := by
    rcases List.mem_cons.mp hx with rfl | hx
    · exact hv w hw
    · exact h.met x hx w hw
  finishes := by
    refine ⟨fun x hx w hw => ?_, h.finishes⟩
    have hmet : w ∈ m.visited := by
      rcases List.mem_cons.mp hx with rfl | hx
      · exact hv w hw
      · exact h.met x hx w hw
    rcases (h.visited w).mp hmet with horder | hw
    · exact .inl (List.mem_cons_of_mem _ horder)
    · rcases List.mem_cons.mp hw with rfl | hw
      · exact .inl List.mem_cons_self
      · exact .inr (hactive w hw)

/-- **A search marks what it is given** and lists what it marks in a finishing order. -/
theorem Explores.searching {m m' : Marks V} {vs : List V} (h : Explores edges m vs m') :
    ∀ {active : List V}, Searching edges active m → (∀ a ∈ active, ∀ v ∈ vs, Leads edges a v) →
      Searching edges active m' ∧ (∀ v ∈ m.visited, v ∈ m'.visited) ∧ ∀ v ∈ vs, v ∈ m'.visited := by
  induction h with
  | done m => exact fun hs _ => ⟨hs, fun _ hv => hv, nofun⟩
  | @skip m m' v vs hv _ ih =>
    intro active hs hactive
    obtain ⟨hs', hkept, hvs⟩ := ih hs fun a ha w hw => hactive a ha w (List.mem_cons_of_mem _ hw)
    refine ⟨hs', hkept, fun w hw => ?_⟩
    rcases List.mem_cons.mp hw with rfl | hw
    · exact hkept w hv
    · exact hvs w hw
  | @visit m inner m' v vs hv _ _ ihTargets ihRest =>
    intro active hs hactive
    have hleads : ∀ a ∈ active, Leads edges a v := fun a ha => hactive a ha v List.mem_cons_self
    have hnew : v ∉ active := fun ha => hv ((hs.visited v).mpr (.inr ha))
    obtain ⟨hinner, hkept, htargets⟩ := ihTargets (hs.mark hv) fun a ha w hw => by
      rcases List.mem_cons.mp ha with rfl | ha
      · exact .single hw
      · exact (hleads a ha).tail hw
    obtain ⟨hs', hkept', hvs⟩ := ihRest (hinner.finish hleads htargets hnew) fun a ha w hw =>
      hactive a ha w (List.mem_cons_of_mem _ hw)
    refine ⟨hs', fun w hw => hkept' w (hkept w (List.mem_cons_of_mem _ hw)), fun w hw => ?_⟩
    rcases List.mem_cons.mp hw with rfl | hw
    · exact hkept' w (hkept w List.mem_cons_self)
    · exact hvs w hw

theorem Explores.only {P : V → Prop} (hP : ∀ v, P v → ∀ w ∈ edges v, P w) {m m' : Marks V} {vs : List V}
    (h : Explores edges m vs m') : (∀ v ∈ vs, P v) → ∀ v ∈ m'.visited, v ∈ m.visited ∨ P v := by
  induction h with
  | done m => exact fun _ v hv => .inl hv
  | skip _ _ ih => exact fun hvs => ih fun v hv => hvs v (List.mem_cons_of_mem _ hv)
  | @visit m inner m' v vs _ _ _ ihTargets ihRest =>
    intro hvs w hw
    have hv := hvs v List.mem_cons_self
    rcases ihRest (fun x hx => hvs x (List.mem_cons_of_mem _ hx)) w hw with hw | hw
    · rcases ihTargets (hP v hv) w hw with hw | hw
      · rcases List.mem_cons.mp hw with rfl | hw
        · exact .inr hv
        · exact .inl hw
      · exact .inr hw
    · exact .inr hw

/-! ### Components -/

/-- One node leads to another past none of `taken`. -/
def LeadsPast (edges : V → List V) (taken : List V) : V → V → Prop :=
  ReflTransGen fun a b => b ∈ edges a ∧ a ∉ taken ∧ b ∉ taken

theorem LeadsPast.leads {taken : List V} {a b : V} (h : LeadsPast edges taken a b) : Leads edges a b :=
  ReflTransGen.mono (fun _ _ hab => hab.1) _ _ h

/-- A way that leaves a list has a first step out of it. -/
theorem leaves {R : V → V → Prop} {inside : List V} {a b : V} (h : ReflTransGen R a b) (ha : a ∈ inside)
    (hb : b ∉ inside) : ∃ x y, x ∈ inside ∧ y ∉ inside ∧ R x y ∧ ReflTransGen R y b := by
  induction h using ReflTransGen.head_induction_on with
  | refl => exact absurd ha hb
  | @head a c hac hcb ih =>
    by_cases hc : c ∈ inside
    · exact ih hc
    · exact ⟨a, c, ha, hc, hac, hcb⟩

theorem FinishOrder.suffix : ∀ {later earlier : List V}, FinishOrder edges (later ++ earlier) →
    FinishOrder edges earlier
  | [], _, h => h
  | _ :: _, _, h => FinishOrder.suffix h.2

/-- **What leads to the node that finished last is reached from it**, where the way is over nodes that are finished. -/
theorem FinishOrder.back {R : V → V → Prop} (hR : ∀ a b, R a b → b ∈ edges a) {r : V} :
    ∀ {later earlier : List V} {u : V}, FinishOrder edges (later ++ u :: earlier) → (later ++ u :: earlier).Nodup →
      (later ++ u :: earlier).head? = some r → (∀ x y, R x y → y ∈ later ++ u :: earlier) → ReflTransGen R u r →
      Leads edges r u := by
  intro later
  induction hlater : later.length using Nat.strongRecOn generalizing later with
  | ind length ih =>
    intro earlier u hfinish hnodup hr hin hu
    cases later with
    | nil =>
      obtain rfl := Option.some.inj hr
      exact .refl
    | cons first later =>
      obtain rfl := Option.some.inj hr
      have hout : first ∉ u :: earlier := fun hmem =>
        (List.nodup_cons.mp hnodup).1 (List.mem_append_right _ hmem)
      obtain ⟨x, y, hx, hy, hxy, hyr⟩ := leaves hu List.mem_cons_self hout
      have hback : Leads edges y u := by
        rcases hfinish.suffix.1 x hx y (hR x y hxy) with hmem | hleads
        · exact absurd hmem hy
        · exact hleads
      have hylater : y ∈ first :: later := by
        rcases List.mem_append.mp (hin x y hxy) with hmem | hmem
        · exact hmem
        · exact absurd hmem hy
      obtain ⟨before, after, hsplit⟩ := List.append_of_mem hylater
      have hlist : first :: later ++ u :: earlier = before ++ y :: (after ++ u :: earlier) := by
        rw [hsplit, List.append_assoc, List.cons_append]
      have hshorter : before.length < length := by
        rw [← hlater, hsplit, List.length_append, List.length_cons]
        omega
      rw [hlist] at hfinish hnodup hin
      refine (ih before.length hshorter rfl hfinish hnodup ?_ hin hyr).trans hback
      rw [← hlist]
      rfl

/-- What is left of a finishing order once some components are taken. -/
structure Remaining (edges : V → List V) (order taken : List V) : Prop where
  finishes : FinishOrder edges order
  nodup : order.Nodup
  covers : ∀ x y, y ∈ edges x → (x ∈ taken ∨ x ∈ order) ∧ (y ∈ taken ∨ y ∈ order)
  closed : ∀ v ∈ taken, ∀ w, Mutual edges v w → w ∈ taken

theorem Mutual.symm {a b : V} (h : Mutual edges a b) : Mutual edges b a := ⟨h.2, h.1⟩

theorem Mutual.trans {a b c : V} (h : Mutual edges a b) (h' : Mutual edges b c) : Mutual edges a c :=
  ⟨h.1.trans h'.1, h'.2.trans h.2⟩

/-- **What leads to the next node past what is taken is its component.** -/
theorem Remaining.component {order taken : List V} {r : V} (h : Remaining edges (r :: order) taken) (hr : r ∉ taken)
    (v : V) : LeadsPast edges taken v r ↔ Mutual edges r v := by
  constructor
  · intro hv
    refine ⟨?_, hv.leads⟩
    rcases ReflTransGen.cases_head hv with rfl | ⟨w, ⟨hw, hvtaken, -⟩, -⟩
    · exact .refl
    · have hmem : v ∈ r :: order := (h.covers v w hw).1.resolve_left hvtaken
      obtain ⟨later, earlier, hsplit⟩ := List.append_of_mem hmem
      refine FinishOrder.back (R := fun a b => b ∈ edges a ∧ a ∉ taken ∧ b ∉ taken) (fun _ _ hab => hab.1)
        (hsplit ▸ h.finishes) (hsplit ▸ h.nodup) (by rw [← hsplit]; rfl) (fun x y hxy => ?_) hv
      rw [← hsplit]
      exact (h.covers x y hxy.1).2.resolve_left hxy.2.2
  · rintro ⟨hrv, hvr⟩
    have hfree : ∀ x, Mutual edges r x → x ∉ taken := fun x hx htaken => hr (h.closed x htaken r hx.symm)
    induction hvr using ReflTransGen.head_induction_on with
    | refl => exact .refl
    | @head a b hab hbr ih =>
      have hrb : Leads edges r b := hrv.tail hab
      exact .head ⟨hab, hfree a ⟨hrv, .head hab hbr⟩, hfree b ⟨hrb, hbr⟩⟩ (ih hrb)

/-- **The sweep** over a finishing order: a node that is not taken takes what leads to it past what is taken already. -/
inductive Sweeps (edges : V → List V) : List V → List V → List (V × List V) → Prop
  | done (taken : List V) : Sweeps edges [] taken []
  | skip {r : V} {order taken : List V} {components : List (V × List V)} (h : r ∈ taken)
      (rest : Sweeps edges order taken components) : Sweeps edges (r :: order) taken components
  | take {r : V} {order taken taken' component : List V} {components : List (V × List V)} (h : r ∉ taken)
      (hnodup : component.Nodup) (hcomponent : ∀ v, v ∈ component ↔ LeadsPast edges taken v r)
      (htaken : ∀ v, v ∈ taken' ↔ v ∈ component ∨ v ∈ taken) (rest : Sweeps edges order taken' components) :
      Sweeps edges (r :: order) taken ((r, component) :: components)

structure Swept (edges : V → List V) (order taken : List V) (components : List (V × List V)) : Prop where
  mutual_ : ∀ p ∈ components, ∀ v, v ∈ p.2 ↔ Mutual edges p.1 v
  nodup : ∀ p ∈ components, p.2.Nodup
  covers : ∀ v ∈ order, v ∈ taken ∨ ∃ p ∈ components, v ∈ p.2
  inside : ∀ p ∈ components, p.1 ∈ order
  untaken : ∀ p ∈ components, ∀ v ∈ p.2, v ∉ taken
  apart : components.Pairwise fun p q => ∀ v ∈ p.2, v ∉ q.2

/-- **A sweep over a finishing order takes the strongly connected components**, each once. -/
theorem Sweeps.swept {order taken : List V} {components : List (V × List V)}
    (hsweeps : Sweeps edges order taken components) (h : Remaining edges order taken) :
    Swept edges order taken components := by
  induction hsweeps with
  | done taken => exact ⟨nofun, nofun, nofun, nofun, nofun, .nil⟩
  | @skip r order taken components hr _ ih =>
    have hrest : Remaining edges order taken := by
      refine ⟨h.finishes.2, (List.nodup_cons.mp h.nodup).2, fun x y hxy => ?_, h.closed⟩
      have hcons : ∀ v, v ∈ taken ∨ v ∈ r :: order → v ∈ taken ∨ v ∈ order := by
        rintro v (hv | hv)
        · exact .inl hv
        · rcases List.mem_cons.mp hv with rfl | hv
          · exact .inl hr
          · exact .inr hv
      exact (h.covers x y hxy).imp (hcons x) (hcons y)
    have hswept := ih hrest
    refine ⟨hswept.mutual_, hswept.nodup, fun v hv => ?_, fun p hp => List.mem_cons_of_mem _ (hswept.inside p hp),
      hswept.untaken, hswept.apart⟩
    rcases List.mem_cons.mp hv with rfl | hv
    · exact .inl hr
    · exact hswept.covers v hv
  | @take r order taken taken' component components hr hnodup hcomponent htaken _ ih =>
    have hmutual : ∀ v, v ∈ component ↔ Mutual edges r v := fun v => (hcomponent v).trans (h.component hr v)
    have hrest : Remaining edges order taken' := by
      refine ⟨h.finishes.2, (List.nodup_cons.mp h.nodup).2, fun x y hxy => ?_, fun v hv w hvw => ?_⟩
      · have hcons : ∀ v, v ∈ taken ∨ v ∈ r :: order → v ∈ taken' ∨ v ∈ order := by
          rintro v (hv | hv)
          · exact .inl ((htaken v).mpr (.inr hv))
          · rcases List.mem_cons.mp hv with rfl | hv
            · exact .inl ((htaken v).mpr (.inl ((hmutual v).mpr ⟨.refl, .refl⟩)))
            · exact .inr hv
        exact (h.covers x y hxy).imp (hcons x) (hcons y)
      · rcases (htaken v).mp hv with hv | hv
        · exact (htaken w).mpr (.inl ((hmutual w).mpr (((hmutual v).mp hv).trans hvw)))
        · exact (htaken w).mpr (.inr (h.closed v hv w hvw))
    have hswept := ih hrest
    refine ⟨fun p hp => ?_, fun p hp => ?_, fun v hv => ?_, fun p hp => ?_, fun p hp v hv htaken₀ => ?_,
      List.pairwise_cons.mpr ⟨fun p hp v hv hv' => ?_, hswept.apart⟩⟩
    · rcases List.mem_cons.mp hp with rfl | hp
      · exact hmutual
      · exact hswept.mutual_ p hp
    · rcases List.mem_cons.mp hp with rfl | hp
      · exact hnodup
      · exact hswept.nodup p hp
    · have hcomponents : v ∈ taken' ∨ (∃ p ∈ components, v ∈ p.2) →
          v ∈ taken ∨ ∃ p ∈ (r, component) :: components, v ∈ p.2 := by
        rintro (hv | ⟨p, hp, hv⟩)
        · rcases (htaken v).mp hv with hv | hv
          · exact .inr ⟨_, List.mem_cons_self, hv⟩
          · exact .inl hv
        · exact .inr ⟨p, List.mem_cons_of_mem _ hp, hv⟩
      rcases List.mem_cons.mp hv with rfl | hv
      · exact hcomponents (.inl ((htaken v).mpr (.inl ((hmutual v).mpr ⟨.refl, .refl⟩))))
      · exact hcomponents (hswept.covers v hv)
    · rcases List.mem_cons.mp hp with rfl | hp
      · exact List.mem_cons_self
      · exact List.mem_cons_of_mem _ (hswept.inside p hp)
    · rcases List.mem_cons.mp hp with rfl | hp
      · exact hr (h.closed v htaken₀ r ((hmutual v).mp hv).symm)
      · exact hswept.untaken p hp v hv ((htaken v).mpr (.inr htaken₀))
    · exact hswept.untaken p hp v hv' ((htaken v).mpr (.inl hv))

/-! ### Cycles -/

theorem onCycle_iff {r v : V} {component : List V} (hnodup : component.Nodup)
    (hcomponent : ∀ v, v ∈ component ↔ Mutual edges r v) (hv : v ∈ component) :
    OnCycle edges v ↔ 1 < component.length ∨ r ∈ edges r := by
  have hvr := (hcomponent v).mp hv
  constructor
  · intro hcycle
    by_cases hlong : 1 < component.length
    · exact .inl hlong
    · right
      have hsame : ∀ w ∈ component, w = r := by
        have hr : r ∈ component := (hcomponent r).mpr ⟨.refl, .refl⟩
        cases hc : component with
        | nil => rw [hc] at hr; cases hr
        | cons first rest =>
          rw [hc] at hlong hr
          have hrest : rest = [] := List.eq_nil_of_length_eq_zero (by rw [List.length_cons] at hlong; omega)
          subst hrest
          intro w hw
          rw [List.mem_singleton.mp hw, List.mem_singleton.mp hr]
      obtain rfl := hsame v hv
      obtain ⟨w, hvw, hwv⟩ := TransGen.head'_iff.mp hcycle
      obtain rfl := hsame w ((hcomponent w).mpr ⟨.single hvw, hwv⟩)
      exact hvw
  · rintro (hlong | hself)
    · obtain ⟨w, hw, hne⟩ : ∃ w ∈ component, w ≠ v := by
        by_contra hall
        push Not at hall
        have hreplicate := List.eq_replicate_iff.mpr ⟨rfl, hall⟩
        rw [hreplicate] at hnodup
        have := List.nodup_replicate.mp hnodup
        omega
      have hvw : Mutual edges v w := hvr.symm.trans ((hcomponent w).mp hw)
      rcases ReflTransGen.cases_head hvw.1 with heq | ⟨x, hvx, hxw⟩
      · exact absurd heq.symm hne
      · exact TransGen.head' hvx (hxw.trans hvw.2)
    · have hloop : TransGen (fun a b => b ∈ edges a) r r := .single hself
      exact TransGen.trans_right hvr.2 (hloop.trans_left hvr.1)

/-! ### What is not marked yet -/

section Weight

/-- The cost of the nodes that are not marked. -/
def weight (cost : V → ℕ) (nodes : List V) (marked : V → Bool) : ℕ :=
  (nodes.map fun v => if marked v then 0 else cost v).sum

variable {nodes : List V} {marked marked' : V → Bool}

theorem weight_le (cost : V → ℕ) (nodes : List V) (h : ∀ v, marked v = true → marked' v = true) :
    weight cost nodes marked' ≤ weight cost nodes marked := by
  induction nodes with
  | nil => exact Nat.le_refl _
  | cons v nodes ih =>
    simp only [weight, List.map_cons, List.sum_cons] at ih ⊢
    have hv : (if marked' v = true then 0 else cost v) ≤ if marked v = true then 0 else cost v := by
      by_cases hmarked : marked v = true
      · rw [if_pos (h v hmarked)]
        exact Nat.zero_le _
      · rw [if_neg hmarked]
        split
        · exact Nat.zero_le _
        · exact Nat.le_refl _
    omega

/-- Marking a node takes its cost away. -/
theorem weight_mark (cost : V → ℕ) (h : ∀ v, marked v = true → marked' v = true) {t : V} (ht : t ∈ nodes)
    (hnew : marked t = false) (hnow : marked' t = true) : weight cost nodes marked' + cost t ≤ weight cost nodes marked := by
  induction nodes with
  | nil => cases ht
  | cons v nodes ih =>
    rcases List.mem_cons.mp ht with rfl | ht
    · have hrest := weight_le cost nodes h
      simp only [weight, List.map_cons, List.sum_cons, hnew, hnow, if_true] at hrest ⊢
      simp only [Bool.false_eq_true, if_false]
      omega
    · have hrest := ih ht
      have hv := weight_le cost [v] h
      simp only [weight, List.map_cons, List.sum_cons, List.map_nil, List.sum_nil, Nat.add_zero] at hrest hv ⊢
      omega

end Weight

/-! ### Stacks -/

/-- The rounds that the frames of a stack take: a frame has a node and which of its targets is next. -/
def stackRounds (edges : V → List V) (stack : List (V × ℕ)) : ℕ :=
  (stack.map fun frame => ((edges frame.1).drop frame.2).length + 1).sum

theorem drop_of_some {xs : List V} {i : ℕ} {x : V} (h : xs[i]? = some x) : xs.drop i = x :: xs.drop (i + 1) := by
  obtain ⟨hi, rfl⟩ := List.getElem?_eq_some_iff.mp h
  exact List.drop_eq_getElem_cons hi

end Blot.Support.DepthFirst
