import Mathlib.Data.Finset.Card

/-!
# Difference constraints

A constraint `left - right ≤ bound` over any type of nodes.  Relaxing every constraint in turn, a round for each node,
settles the distances when the constraints can be satisfied; a further change shows a negative cycle.

* `inconsistent_iff` — distances from everywhere still change exactly when no valuation satisfies the constraints;
* `shortestPathsFrom` — the distances from one node, `le_of_shortestPathsFrom` and `exists_farther` the two halves of
  what they say about all valuations.
-/

namespace Blot.Support

variable {N : Type} [DecidableEq N]

/-- `left - right ≤ bound` -/
structure Difference (N : Type) where
  left : N
  right : N
  bound : ℤ
  deriving DecidableEq

namespace Difference

/-- A valuation satisfies a constraint. -/
def Holds (ν : N → ℤ) (e : Difference N) : Prop := ν e.left - ν e.right ≤ e.bound

def Violated (d : N → ℤ) (e : Difference N) : Prop := d e.right + e.bound < d e.left

instance (d : N → ℤ) (e : Difference N) : Decidable (Violated d e) := Int.decLt _ _

def nodes (edges : List (Difference N)) : List N := (edges.flatMap fun e => [e.left, e.right]).dedup

/-- Relaxes one constraint; the flag says whether a distance changed. -/
def relax (p : (N → ℤ) × Bool) (e : Difference N) : (N → ℤ) × Bool :=
  if Violated p.1 e then (Function.update p.1 e.left (p.1 e.right + e.bound), true) else p

def rounds (edges : List (Difference N)) : ℕ → (N → ℤ) → Bool
  | 0, _ => true
  | n + 1, d =>
    let p := edges.foldl relax (d, false)
    if p.2 then rounds edges n p.1 else false

def inconsistent (edges : List (Difference N)) : Bool :=
  rounds edges (nodes edges).length (fun _ => 0) && !(nodes edges).isEmpty

abbrev Distances (N : Type) := N → Option ℤ

/-- The distance that a constraint gives its left node, when that is shorter. -/
def shortened (d : Distances N) (e : Difference N) : Option ℤ :=
  match d e.right with
  | none => none
  | some right => if (d e.left).any (· ≤ right + e.bound) then none else some (right + e.bound)

def relaxPath (p : Distances N × Bool) (e : Difference N) : Distances N × Bool :=
  match shortened p.1 e with
  | none => p
  | some distance => (Function.update p.1 e.left (some distance), true)

/-- Rounds until one of them changes nothing, at most `n`. -/
def pathRounds (edges : List (Difference N)) : ℕ → Distances N → Distances N
  | 0, d => d
  | n + 1, d =>
    let p := edges.foldl relaxPath (d, false)
    if p.2 then pathRounds edges n p.1 else p.1

def shortestPathsFrom (source : N) (edges : List (Difference N)) (count : ℕ) : Distances N :=
  pathRounds edges count (Function.update (fun _ => none) source (some 0))

theorem mem_nodes {edges : List (Difference N)} {e : Difference N} (h : e ∈ edges) :
    e.left ∈ nodes edges ∧ e.right ∈ nodes edges := by
  constructor <;> exact List.mem_dedup.2 (List.mem_flatMap.2 ⟨e, h, by simp⟩)

omit [DecidableEq N] in
/-- What a constraint that shortens says about the distances. -/
theorem shortened_eq_some {d : Distances N} {e : Difference N} {x : ℤ} (h : shortened d e = some x) :
    ∃ r, d e.right = some r ∧ x = r + e.bound ∧ ∀ y, d e.left = some y → x < y := by
  unfold shortened at h
  cases hr : d e.right with
  | none =>
    rw [hr] at h
    cases h
  | some r =>
    rw [hr] at h
    dsimp only at h
    split at h
    · cases h
    · next hany =>
      obtain rfl := Option.some.inj h
      refine ⟨r, rfl, rfl, fun y hy => ?_⟩
      rw [hy] at hany
      simpa using hany

omit [DecidableEq N] in
theorem shortened_eq_none {d : Distances N} {e : Difference N} (h : shortened d e = none) {r : ℤ}
    (hr : d e.right = some r) : ∃ y, d e.left = some y ∧ y ≤ r + e.bound := by
  unfold shortened at h
  rw [hr] at h
  dsimp only at h
  split at h
  · next hany => simpa [Option.any_eq_true] using hany
  · cases h

/-! ### A round for each node is enough -/

/-- The nodes that each distance was relaxed along.  Measured against a valuation, a distance is never below those it
came from, so no node repeats. -/
structure Labels (ν : N → ℤ) (vs : List N) (d : Distances N) (l : N → List N) : Prop where
  nodup : ∀ v, (l v).Nodup
  subset : ∀ v ∈ vs, l v ⊆ vs
  le : ∀ v x, d v = some x → ∀ u ∈ l v, ∃ y, d u = some y ∧ y - ν u ≤ x - ν v
  nonempty : ∀ v, 1 ≤ (l v).length

section Labels

variable {ν : N → ℤ} {d : Distances N} {vs : List N} {l : N → List N} {e : Difference N} {x : ℤ}

omit [DecidableEq N] in
theorem Labels.length_le (h : Labels ν vs d l) {v : N} (hv : v ∈ vs) : (l v).length ≤ vs.length :=
  ((h.nodup v).subperm (h.subset v hv)).length_le

omit [DecidableEq N] in
/-- A constraint that shortens leads to a node that its right end was not relaxed along. -/
theorem Labels.notMem (h : Labels ν vs d l) (he : e.Holds ν) (hx : shortened d e = some x) : e.left ∉ l e.right := by
  intro hmem
  obtain ⟨r, hr, rfl, hlt⟩ := shortened_eq_some hx
  obtain ⟨y, hy, hle⟩ := h.le e.right r hr e.left hmem
  have := hlt y hy
  unfold Holds at he
  omega

theorem Labels.relax (h : Labels ν vs d l) (he : e.Holds ν) (hl : e.left ∈ vs) (hr : e.right ∈ vs)
    (hx : shortened d e = some x) :
    Labels ν vs (Function.update d e.left (some x)) (Function.update l e.left (e.left :: l e.right)) := by
  have hfresh := h.notMem he hx
  obtain ⟨r, hright, rfl, hlt⟩ := shortened_eq_some hx
  unfold Holds at he
  -- the distance of the left end falls, and stays above that of the right end
  have hdown : ∀ u y, d u = some y → ∃ y', Function.update d e.left (some (r + e.bound)) u = some y' ∧ y' ≤ y := by
    intro u y hy
    by_cases h' : u = e.left
    · subst h'
      exact ⟨_, Function.update_self _ _ _, (hlt y hy).le⟩
    · exact ⟨y, (Function.update_of_ne h' _ _).trans hy, le_rfl⟩
  refine ⟨fun v => ?_, fun v hvs => ?_, fun v z hz u hu => ?_, fun v => ?_⟩
  · by_cases h' : v = e.left
    · rw [h', Function.update_self]
      exact List.nodup_cons.2 ⟨hfresh, h.nodup _⟩
    · rw [Function.update_of_ne h']
      exact h.nodup v
  · by_cases h' : v = e.left
    · rw [h', Function.update_self]
      exact List.cons_subset.2 ⟨hl, h.subset _ hr⟩
    · rw [Function.update_of_ne h']
      exact h.subset v hvs
  · by_cases h' : v = e.left
    · subst h'
      rw [Function.update_self] at hz hu
      obtain rfl := Option.some.inj hz
      rcases List.mem_cons.1 hu with rfl | hu
      · exact ⟨_, Function.update_self _ _ _, le_rfl⟩
      · obtain ⟨y, hy, hle⟩ := h.le _ _ hright _ hu
        obtain ⟨y', hy', hle'⟩ := hdown u y hy
        exact ⟨y', hy', by omega⟩
    · rw [Function.update_of_ne h'] at hz hu
      obtain ⟨y, hy, hle⟩ := h.le _ _ hz _ hu
      obtain ⟨y', hy', hle'⟩ := hdown u y hy
      exact ⟨y', hy', by omega⟩
  · by_cases h' : v = e.left
    · rw [h', Function.update_self]
      simp
    · rw [Function.update_of_ne h']
      exact h.nonempty v

theorem Labels.round (todo : List (Difference N)) (done : List (Difference N)) (i : ℕ) (changed : Bool)
    (h : Labels ν vs d l) (hholds : ∀ e ∈ todo, e.Holds ν) (hvs : ∀ e ∈ todo, e.left ∈ vs ∧ e.right ∈ vs)
    (htodo : ∀ e ∈ todo, shortened d e ≠ none → i + 1 ≤ (l e.right).length)
    (hdone : ∀ e ∈ done, shortened d e ≠ none → i + 2 ≤ (l e.right).length) :
    ∃ l', Labels ν vs (todo.foldl relaxPath (d, changed)).1 l' ∧
      (∀ e ∈ done ++ todo, shortened (todo.foldl relaxPath (d, changed)).1 e ≠ none → i + 2 ≤ (l' e.right).length) ∧
      ((todo.foldl relaxPath (d, changed)).2 = true → changed = true ∨ i + 2 ≤ vs.length) := by
  induction todo generalizing d l done changed with
  | nil => exact ⟨l, h, by simpa using hdone, Or.inl⟩
  | cons e todo ih =>
    rw [List.foldl_cons, List.append_cons]
    have hholds' := fun e' he' => hholds e' (List.mem_cons_of_mem _ he')
    have hvs' := fun e' he' => hvs e' (List.mem_cons_of_mem _ he')
    cases hx : shortened d e with
    | some x =>
      have hstep : relaxPath (d, changed) e = (Function.update d e.left (some x), true) := by
        simp only [relaxPath, hx]
      rw [hstep]
      have he := hholds e List.mem_cons_self
      obtain ⟨hl, hr⟩ := hvs e List.mem_cons_self
      have hlabels := h.relax he hl hr hx
      have hfresh := h.notMem he hx
      obtain ⟨r, hright, hxr, hlt⟩ := shortened_eq_some hx
      have hne : e.right ≠ e.left := by
        intro heq
        have := hlt r (heq ▸ hright)
        unfold Holds at he
        rw [heq] at he
        omega
      have hlong : i + 2 ≤ (Function.update l e.left (e.left :: l e.right) e.left).length := by
        rw [Function.update_self, List.length_cons]
        exact Nat.succ_le_succ (htodo e List.mem_cons_self (by simp [hx]))
      -- a constraint from the node that changed has a longer label; any other shortened before
      have hkept : ∀ k, k ≤ i + 2 → ∀ e', (shortened d e' ≠ none → k ≤ (l e'.right).length) →
          shortened (Function.update d e.left (some x)) e' ≠ none →
          k ≤ (Function.update l e.left (e.left :: l e.right) e'.right).length := by
        intro k hk e' hlength hv'
        by_cases hright' : e'.right = e.left
        · rw [hright']
          exact hk.trans hlong
        · rw [Function.update_of_ne hright']
          refine hlength fun hnone => ?_
          obtain ⟨z, hz⟩ := Option.ne_none_iff_exists'.1 hv'
          obtain ⟨r', hr', hzr, hlt'⟩ := shortened_eq_some hz
          rw [Function.update_of_ne hright'] at hr'
          obtain ⟨y, hy, hle⟩ := shortened_eq_none hnone hr'
          by_cases hleft : e'.left = e.left
          · have h₁ := hlt' x (by rw [hleft, Function.update_self])
            have h₂ := hlt y (hleft ▸ hy)
            omega
          · have := hlt' y ((Function.update_of_ne hleft _ _).trans hy)
            omega
      obtain ⟨l', hl', hviolated, hchanged⟩ := ih (done ++ [e]) true hlabels hholds' hvs'
        (fun e' he' => hkept (i + 1) (by omega) e' (htodo e' (List.mem_cons_of_mem _ he')))
        (fun e' he' hv' => by
          rcases List.mem_append.1 he' with he' | he'
          · exact hkept (i + 2) le_rfl e' (hdone e' he') hv'
          · -- the constraint itself is met now
            obtain rfl := List.mem_singleton.1 he'
            obtain ⟨z, hz⟩ := Option.ne_none_iff_exists'.1 hv'
            obtain ⟨r', hr', hzr, hlt'⟩ := shortened_eq_some hz
            rw [Function.update_of_ne hne, hright] at hr'
            obtain rfl := Option.some.inj hr'
            have := hlt' x (Function.update_self _ _ _)
            omega)
      refine ⟨l', hl', hviolated, fun _ => Or.inr ?_⟩
      exact hlong.trans (hlabels.length_le hl)
    | none =>
      have hstep : relaxPath (d, changed) e = (d, changed) := by simp only [relaxPath, hx]
      rw [hstep]
      exact ih (done ++ [e]) changed h hholds' hvs' (fun e' he' => htodo e' (List.mem_cons_of_mem _ he'))
        fun e' he' hv' => by
          rcases List.mem_append.1 he' with he' | he'
          · exact hdone e' he' hv'
          · exact absurd (List.mem_singleton.1 he' ▸ hx) hv'

end Labels

theorem foldl_relaxPath_unchanged {edges : List (Difference N)} {d : Distances N} {changed : Bool}
    (h : (edges.foldl relaxPath (d, changed)).2 = false) :
    edges.foldl relaxPath (d, changed) = (d, changed) ∧ ∀ e ∈ edges, shortened d e = none := by
  have hsticks : ∀ (edges : List (Difference N)) (d : Distances N), (edges.foldl relaxPath (d, true)).2 = true := by
    intro edges
    induction edges with
    | nil => exact fun _ => rfl
    | cons e edges ih =>
      intro d
      rw [List.foldl_cons]
      cases hx : shortened d e with
      | none => simpa only [relaxPath, hx] using ih d
      | some x => simpa only [relaxPath, hx] using ih _
  induction edges with
  | nil => exact ⟨rfl, fun e he => absurd he List.not_mem_nil⟩
  | cons e edges ih =>
    rw [List.foldl_cons] at h ⊢
    cases hx : shortened d e with
    | none =>
      simp only [relaxPath, hx] at h ⊢
      exact ⟨(ih h).1, List.forall_mem_cons.2 ⟨hx, (ih h).2⟩⟩
    | some x =>
      simp only [relaxPath, hx] at h
      rw [hsticks] at h
      cases h

/-- **Rounds settle** the distances: with a round for each node nothing is left to shorten. -/
theorem pathRounds_settled {ν : N → ℤ} {edges : List (Difference N)} {vs : List N} {d : Distances N} {l : N → List N}
    (h : ∀ e ∈ edges, e.Holds ν) (hvs : ∀ e ∈ edges, e.left ∈ vs ∧ e.right ∈ vs) (hne : vs ≠ [])
    (hl : Labels ν vs d l) : ∀ e ∈ edges, shortened (pathRounds edges vs.length d) e = none := by
  -- after `i` rounds `k` are left; what shortens then has more than `i` nodes on its label
  have hrounds : ∀ k i : ℕ, 0 < k → k + i = vs.length → ∀ (d : Distances N) (l : N → List N), Labels ν vs d l →
      (∀ e ∈ edges, shortened d e ≠ none → i + 1 ≤ (l e.right).length) →
      ∀ e ∈ edges, shortened (pathRounds edges k d) e = none := by
    intro k
    induction k with
    | zero => intro i hk; exact absurd hk (Nat.lt_irrefl 0)
    | succ k ih =>
      intro i _ hki d l hlabels hviolated
      obtain ⟨l', hl', hviolated', hchanged⟩ := hlabels.round edges [] i false h hvs hviolated (by simp)
      rw [pathRounds]
      by_cases hp : (edges.foldl relaxPath (d, false)).2 = true
      · simp only [if_pos hp]
        have hlt : i + 2 ≤ vs.length := (hchanged hp).resolve_left (by simp)
        exact ih (i + 1) (by omega) (by omega) _ l' hl' fun e he => hviolated' e (by simpa using he)
      · simp only [if_neg hp]
        obtain ⟨heq, hsettled⟩ := foldl_relaxPath_unchanged (Bool.not_eq_true _ ▸ hp)
        rw [heq]
        exact hsettled
  exact hrounds _ 0 (List.length_pos_iff.2 hne) (Nat.add_zero _) d l hl fun e _ _ => hl.nonempty _

/-! ### Distances from everywhere -/

theorem relaxPath_some (d : N → ℤ) (changed : Bool) (e : Difference N) :
    relaxPath (fun v => some (d v), changed) e =
      ((fun v => some ((Difference.relax (d, changed) e).1 v)), (Difference.relax (d, changed) e).2) := by
  have hshort : shortened (fun v => some (d v)) e = if Violated d e then some (d e.right + e.bound) else none := by
    unfold shortened Violated
    by_cases h : d e.right + e.bound < d e.left
    · simp [h]
    · simp [h, not_lt.1 h]
  unfold relaxPath Difference.relax
  rw [hshort]
  by_cases h : Violated d e
  · rw [if_pos h, if_pos h]
    refine Prod.ext (funext fun v => ?_) rfl
    by_cases hv : v = e.left
    · subst hv
      simp
    · simp [Function.update_of_ne hv]
  · rw [if_neg h, if_neg h]

theorem foldl_relaxPath_some (edges : List (Difference N)) (d : N → ℤ) (changed : Bool) :
    edges.foldl relaxPath (fun v => some (d v), changed) =
      ((fun v => some ((edges.foldl Difference.relax (d, changed)).1 v)),
        (edges.foldl Difference.relax (d, changed)).2) := by
  induction edges generalizing d changed with
  | nil => rfl
  | cons e edges ih => rw [List.foldl_cons, List.foldl_cons, relaxPath_some, ih]

theorem exists_holds_of_rounds {edges : List (Difference N)} {n : ℕ} {d : N → ℤ} (h : rounds edges n d = false) :
    ∃ ν, ∀ e ∈ edges, e.Holds ν := by
  induction n generalizing d with
  | zero => cases h
  | succ n ih =>
    rw [rounds] at h
    by_cases hp : (edges.foldl Difference.relax (d, false)).2 = true
    · simp only [if_pos hp] at h
      exact ih h
    · refine ⟨d, fun e he => ?_⟩
      have hunchanged : (edges.foldl relaxPath (fun v => some (d v), false)).2 = false := by
        rw [foldl_relaxPath_some]
        exact Bool.not_eq_true _ ▸ hp
      obtain ⟨y, hy, hle⟩ := shortened_eq_none ((foldl_relaxPath_unchanged hunchanged).2 e he) rfl
      obtain rfl := Option.some.inj hy
      unfold Holds
      omega

/-- **Constraints that some valuation satisfies are not inconsistent.** -/
theorem inconsistent_of_holds {ν : N → ℤ} {edges : List (Difference N)} (h : ∀ e ∈ edges, e.Holds ν) :
    inconsistent edges = false := by
  have hvs := fun e (he : e ∈ edges) => mem_nodes he
  -- after `i` rounds `k` are left; what shortens then has more than `i` nodes on its label
  have hrounds : ∀ k i : ℕ, 0 < k → k + i = (nodes edges).length → ∀ (d : N → ℤ) (l : N → List N),
      Labels ν (nodes edges) (fun v => some (d v)) l →
      (∀ e ∈ edges, shortened (fun v => some (d v)) e ≠ none → i + 1 ≤ (l e.right).length) →
      rounds edges k d = false := by
    intro k
    induction k with
    | zero => intro i hk; exact absurd hk (Nat.lt_irrefl 0)
    | succ k ih =>
      intro i _ hki d l hlabels hviolated
      obtain ⟨l', hl', hviolated', hchanged⟩ := hlabels.round edges [] i false h hvs hviolated (by simp)
      rw [foldl_relaxPath_some] at hl' hviolated' hchanged
      rw [rounds]
      by_cases hp : (edges.foldl Difference.relax (d, false)).2 = true
      · rw [if_pos hp]
        have hlt : i + 2 ≤ (nodes edges).length := (hchanged hp).resolve_left (by simp)
        exact ih (i + 1) (by omega) (by omega) _ l' hl' fun e he => hviolated' e (by simpa using he)
      · rw [if_neg hp]
  unfold inconsistent
  cases hempty : (nodes edges).isEmpty with
  | true => simp
  | false =>
    have hpos : 0 < (nodes edges).length := List.length_pos_iff.2 (by simpa using hempty)
    have hlabels : Labels ν (nodes edges) (fun _ => some 0) fun v => [v] := by
      refine ⟨fun v => List.nodup_singleton v, fun v hv => ?_, fun v x hx u hu => ?_, fun v => Nat.le_refl 1⟩
      · rw [List.cons_subset]
        exact ⟨hv, List.nil_subset _⟩
      · rw [List.mem_singleton.1 hu]
        exact ⟨x, hx, le_rfl⟩
    rw [hrounds _ 0 hpos (Nat.add_zero _) _ _ hlabels fun _ _ _ => Nat.le_refl 1]
    rfl

/-- **Inconsistent constraints** are those that no valuation satisfies. -/
theorem inconsistent_iff {edges : List (Difference N)} : inconsistent edges = true ↔ ¬ ∃ ν, ∀ e ∈ edges, e.Holds ν := by
  constructor
  · rintro h ⟨ν, hν⟩
    rw [inconsistent_of_holds hν] at h
    cases h
  · intro h
    by_contra hfalse
    rw [Bool.not_eq_true] at hfalse
    unfold inconsistent at hfalse
    rcases Bool.and_eq_false_iff.1 hfalse with hrounds | hempty
    · exact h (exists_holds_of_rounds hrounds)
    · have hnil : nodes edges = [] := by simpa using hempty
      refine h ⟨fun _ => 0, fun e he => ?_⟩
      have hmem := (mem_nodes he).1
      rw [hnil] at hmem
      cases hmem

/-! ### Distances from one node -/

section ShortestPaths

variable {ν : N → ℤ} {edges : List (Difference N)} {source v : N} {count : ℕ} {d : Distances N} {x : ℤ}

theorem pathRounds_keeps {P : Distances N → Prop} (hstart : P d) (hstep : ∀ d, P d → ∀ e ∈ edges, ∀ x,
    shortened d e = some x → P (Function.update d e.left (some x))) (n : ℕ) : P (pathRounds edges n d) := by
  have hfold : ∀ (todo : List (Difference N)), (∀ e ∈ todo, e ∈ edges) → ∀ (d : Distances N) (changed : Bool), P d →
      P (todo.foldl relaxPath (d, changed)).1 := by
    intro todo
    induction todo with
    | nil => exact fun _ _ _ h => h
    | cons e todo ih =>
      intro hsub d changed hd
      rw [List.forall_mem_cons] at hsub
      rw [List.foldl_cons]
      cases hx : shortened d e with
      | none => simpa only [relaxPath, hx] using ih hsub.2 d changed hd
      | some x => simpa only [relaxPath, hx] using ih hsub.2 _ true (hstep d hd e hsub.1 x hx)
  induction n generalizing d with
  | zero => exact hstart
  | succ n ih =>
    rw [pathRounds]
    have hround := hfold edges (fun _ h => h) d false hstart
    split
    · exact ih hround
    · exact hround

/-- **A distance bounds** the difference in every valuation that satisfies the constraints. -/
theorem le_of_shortestPathsFrom (h : ∀ e ∈ edges, e.Holds ν) (hx : shortestPathsFrom source edges count v = some x) :
    ν v - ν source ≤ x := by
  refine pathRounds_keeps (P := fun d => ∀ v x, d v = some x → ν v - ν source ≤ x) ?_ ?_ count v x hx
  · intro v x hx
    by_cases hv : v = source
    · subst hv
      rw [Function.update_self] at hx
      obtain rfl := Option.some.inj hx
      omega
    · rw [Function.update_of_ne hv] at hx
      cases hx
  · intro d hd e he z hz v x hx
    obtain ⟨r, hr, rfl, -⟩ := shortened_eq_some hz
    by_cases hv : v = e.left
    · subst hv
      rw [Function.update_self] at hx
      obtain rfl := Option.some.inj hx
      have hright := hd _ _ hr
      have hholds := h e he
      unfold Holds at hholds
      omega
    · rw [Function.update_of_ne hv] at hx
      exact hd v x hx

theorem shortestPathsFrom_source (source : N) (edges : List (Difference N)) (count : ℕ) :
    ∃ x, shortestPathsFrom source edges count source = some x ∧ x ≤ 0 := by
  refine pathRounds_keeps (P := fun d => ∃ x, d source = some x ∧ x ≤ 0) ⟨0, Function.update_self _ _ _, le_rfl⟩ ?_
    count
  rintro d ⟨y, hy, hle⟩ e _ x hx
  by_cases hsource : source = e.left
  · obtain ⟨_, _, _, hlt⟩ := shortened_eq_some hx
    refine ⟨x, hsource ▸ Function.update_self _ _ _, ?_⟩
    have := hlt y (hsource ▸ hy)
    omega
  · exact ⟨y, (Function.update_of_ne hsource _ _).trans hy, hle⟩

theorem shortestPathsFrom_settled (source : N) (h : ∀ e ∈ edges, e.Holds ν) {vs : List N} (hne : vs ≠ [])
    (hvs : ∀ e ∈ edges, e.left ∈ vs ∧ e.right ∈ vs) :
    ∀ e ∈ edges, shortened (shortestPathsFrom source edges vs.length) e = none := by
  refine pathRounds_settled h hvs hne (l := fun v => [v])
    ⟨fun v => List.nodup_singleton v, fun v hv => ?_, fun v x hx u hu => ?_, fun v => Nat.le_refl 1⟩
  · rw [List.cons_subset]
    exact ⟨hv, List.nil_subset _⟩
  · rw [List.mem_singleton.1 hu]
    exact ⟨x, hx, le_rfl⟩

theorem exists_above {A : Type} (f : A → ℤ) (as : List A) : ∃ k, ∀ a ∈ as, f a ≤ k := by
  induction as with
  | nil => exact ⟨0, fun a ha => absurd ha List.not_mem_nil⟩
  | cons a as ih =>
    obtain ⟨k, hk⟩ := ih
    refine ⟨max (f a) k, List.forall_mem_cons.2 ⟨le_max_left _ _, fun b hb => ?_⟩⟩
    exact (hk b hb).trans (le_max_right _ _)

/-- **Distances are attained**: where a settled distance is above a bound, or a node is not reached, some valuation
satisfies the constraints and goes beyond the bound. -/
theorem exists_farther (h : ∀ e ∈ edges, e.Holds ν)
    (hsettled : ∀ e ∈ edges, shortened (shortestPathsFrom source edges count) e = none) {bound : ℤ}
    (hbound : ∀ x, shortestPathsFrom source edges count v = some x → bound < x) :
    ∃ ν', (∀ e ∈ edges, e.Holds ν') ∧ bound < ν' v - ν' source := by
  obtain ⟨x₀, hsource, hle⟩ := shortestPathsFrom_source source edges count
  have hzero : x₀ = 0 := by
    have := le_of_shortestPathsFrom h hsource
    omega
  subst hzero
  generalize shortestPathsFrom source edges count = d at *
  -- what is not reached is put far above what is
  obtain ⟨k, hk⟩ := exists_above (fun e : Difference N => (d e.left).getD 0 - ν e.right - e.bound) edges
  let far := max k (bound + 1 - ν v)
  have hk' : ∀ e ∈ edges, (d e.left).getD 0 - ν e.right - e.bound ≤ far := fun e he => (hk e he).trans (le_max_left _ _)
  have hv' : bound + 1 - ν v ≤ far := le_max_right _ _
  refine ⟨fun u => (d u).getD (ν u + far), fun e he => ?_, ?_⟩
  · show (d e.left).getD _ - (d e.right).getD _ ≤ e.bound
    cases hr : d e.right with
    | some r =>
      obtain ⟨y, hy, hley⟩ := shortened_eq_none (hsettled e he) hr
      simp only [hy, Option.getD_some]
      omega
    | none =>
      have hfar := hk' e he
      have hholds := h e he
      unfold Holds at hholds
      cases hl : d e.left with
      | none =>
        simp only [Option.getD_none]
        omega
      | some y =>
        rw [hl] at hfar
        simp only [Option.getD_some, Option.getD_none] at hfar ⊢
        omega
  · simp only [hsource, Option.getD_some]
    cases hv : d v with
    | none =>
      simp only [Option.getD_none]
      omega
    | some x =>
      have := hbound x hv
      simp only [Option.getD_some]
      omega

end ShortestPaths

end Difference

end Blot.Support
