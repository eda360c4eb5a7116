import Blot.Support.DepthFirst

/-!
# Cycles and longest paths

A scan of a graph that refuses cycles and paths that are too long.  It searches depth first with a stack of its own; a
node is open while it is on the stack, and when it is closed the longest path from it is known.
-/

namespace Blot.Support.LongestPaths

open Relation DepthFirst

variable {V ε : Type}

/-- A path of `n` steps. -/
inductive Steps (r : V → V → Prop) : ℕ → V → V → Prop
  | stay (v : V) : Steps r 0 v v
  | step {n : ℕ} {a b c : V} (h : r a b) (rest : Steps r n b c) : Steps r (n + 1) a c

def Acyclic (r : V → V → Prop) : Prop := ∀ v, ¬ TransGen r v v

/-- No path has more than `limit` steps. -/
def Within (r : V → V → Prop) (limit : ℕ) : Prop := ∀ n v w, Steps r n v w → n ≤ limit

abbrev Edge (edges : V → List V) (v target : V) : Prop := target ∈ edges v

inductive Mark where
  | unseen
  | opened
  | closed
  deriving DecidableEq

structure Scan (V : Type) where
  marks : V → Mark
  longest : V → ℕ

section Run

variable [DecidableEq V] (edges : V → List V) (limit : ℕ) (deep : ε) (cycle : V → V → ε)

def longestFrom (s : Scan V) (v : V) : ℕ := ((edges v).map fun target => s.longest target + 1).foldr max 0

def scanLoop : ℕ → List (V × ℕ) → Scan V → Option (Except ε (Scan V))
  | _, [], s => some (.ok s)
  | 0, _ :: _, _ => none
  | rounds + 1, (v, next) :: stack, s =>
    match (edges v)[next]? with
    | none =>
      let longest := longestFrom edges s v
      if limit < longest then some (.error deep)
      else scanLoop rounds stack ⟨Function.update s.marks v .closed, Function.update s.longest v longest⟩
    | some target =>
      match s.marks target with
      | .unseen =>
        scanLoop rounds ((target, 0) :: (v, next + 1) :: stack) ⟨Function.update s.marks target .opened, s.longest⟩
      | .opened => some (.error (cycle v target))
      | .closed => scanLoop rounds ((v, next + 1) :: stack) s

def scanFrom (rounds : ℕ) : List V → Scan V → Option (Except ε (Scan V))
  | [], s => some (.ok s)
  | v :: vs, s =>
    if s.marks v = .unseen then
      match scanLoop edges limit deep cycle rounds [(v, 0)] ⟨Function.update s.marks v .opened, s.longest⟩ with
      | none => none
      | some (.error e) => some (.error e)
      | some (.ok s) => scanFrom rounds vs s
    else scanFrom rounds vs s

def scanRounds (nodes : List V) : ℕ := (nodes.map fun v => (edges v).length + 1).sum

/-- **The scan** of a graph. -/
def scan (nodes : List V) : Option (Except ε Unit) :=
  let result := scanFrom edges limit deep cycle (scanRounds edges nodes) nodes ⟨fun _ => .unseen, fun _ => 0⟩
  result.map (·.map fun _ => ())

end Run

/-! ### Paths -/

section Paths

variable {r : V → V → Prop} {limit : ℕ}

theorem Steps.append {n m : ℕ} {a b c : V} (h : Steps r n a b) (h' : Steps r m b c) :
    Steps r (n + m) a c := by
  induction h with
  | stay => simpa using h'
  | step hab _ ih =>
    rw [Nat.add_right_comm]
    exact .step hab (ih h')

/-- A cycle makes paths of any length. -/
theorem Within.acyclic (h : Within r limit) : Acyclic r := by
  intro v hcycle
  obtain ⟨n, hn⟩ : ∃ n, Steps r (n + 1) v v := by
    obtain ⟨w, hvw, hwv⟩ := TransGen.head'_iff.mp hcycle
    have hsteps : ∀ {a : V}, ReflTransGen r a v → ∃ n, Steps r n a v := by
      intro a ha
      induction ha using ReflTransGen.head_induction_on with
      | refl => exact ⟨0, .stay v⟩
      | head hab _ ih =>
        obtain ⟨n, hn⟩ := ih
        exact ⟨n + 1, .step hab hn⟩
    obtain ⟨n, hn⟩ := hsteps hwv
    exact ⟨n, .step hvw hn⟩
  have hloops : ∀ k, ∃ m, k ≤ m ∧ Steps r m v v := by
    intro k
    induction k with
    | zero => exact ⟨0, Nat.le_refl _, .stay v⟩
    | succ k ih =>
      obtain ⟨m, hle, hm⟩ := ih
      exact ⟨m + (n + 1), by omega, hm.append hn⟩
  obtain ⟨m, hle, hm⟩ := hloops (limit + 1)
  have := h m v v hm
  omega

theorem Within.wellFounded (h : Within r limit) : WellFounded fun target v => r v target := by
  have hacc : ∀ height v, (∀ n w, Steps r n v w → n ≤ height) → Acc (fun target v => r v target) v := by
    intro height
    induction height with
    | zero =>
      intro v hv
      refine ⟨v, fun target htarget => ?_⟩
      have := hv 1 target (.step htarget (.stay target))
      omega
    | succ height ih =>
      intro v hv
      refine ⟨v, fun target htarget => ih target fun n w hsteps => ?_⟩
      exact Nat.le_of_succ_le_succ (hv (n + 1) w (.step htarget hsteps))
  exact ⟨fun v => hacc limit v fun n w hsteps => h n v w hsteps⟩

end Paths

/-! ### What the scan keeps -/

section Sound

variable {edges : V → List V} {limit : ℕ} {deep : ε} {cycle : V → V → ε} {s s' : Scan V} {stack : List (V × ℕ)}

/-- The frames of a stack, below the node `above`: the edges that are taken lead to closed nodes, the last one of a
lower frame to the node above it. -/
def Frames (edges : V → List V) (marks : V → Mark) : Option V → List (V × ℕ) → Prop
  | _, [] => True
  | above, (v, next) :: stack =>
    (∀ a, above = some a → a ∈ edges v) ∧
    (∀ target ∈ (edges v).take next, marks target = .closed ∨ above = some target) ∧
    Frames edges marks (some v) stack

theorem Frames.mono {marks marks' : V → Mark} (h : ∀ v, marks v = .closed → marks' v = .closed) :
    ∀ {stack : List (V × ℕ)} {above : Option V}, Frames edges marks above stack → Frames edges marks' above stack
  | [], _, _ => trivial
  | (_, _) :: _, _, ⟨habove, htaken, hrest⟩ =>
    ⟨habove, fun target ht => (htaken target ht).imp_left (h target), Frames.mono h hrest⟩

/-- The nodes of a stack lead to the one above it. -/
theorem Frames.leads {marks : V → Mark} : ∀ {stack : List (V × ℕ)} {above v : V},
    Frames edges marks (some above) stack → v ∈ stack.map Prod.fst → Leads edges v above
  | [], _, _, _, hv => nomatch hv
  | (u, next) :: stack, above, v, ⟨habove, _, hrest⟩, hv => by
    have hu : Leads edges u above := .single (habove above rfl)
    rcases List.mem_cons.mp hv with rfl | hv
    · exact hu
    · exact (Frames.leads hrest hv).trans hu

/-- What the scan keeps. -/
structure Sound (edges : V → List V) (limit : ℕ) (s : Scan V) (stack : List (V × ℕ)) : Prop where
  opened : ∀ v, s.marks v = .opened ↔ v ∈ stack.map Prod.fst
  nodup : (stack.map Prod.fst).Nodup
  frames : Frames edges s.marks none stack
  bounded : ∀ v, s.marks v = .closed → s.longest v ≤ limit
  attained : ∀ v, s.marks v = .closed → ∃ w, Steps (Edge edges) (s.longest v) v w
  closed : ∀ v, s.marks v = .closed → ∀ target ∈ edges v, s.marks target = .closed ∧ s.longest target < s.longest v

def Refuses (edges : V → List V) (limit : ℕ) (deep : ε) (cycle : V → V → ε) (e : ε) : Prop :=
  (e = deep ∧ ∃ n v w, limit < n ∧ Steps (Edge edges) n v w) ∨ ∃ v target, e = cycle v target ∧ target ∈ edges v ∧
    Leads edges target v

theorem Refuses.not_within {e : ε} (h : Refuses edges limit deep cycle e) : ¬ Within (Edge edges) limit := by
  intro hwithin
  rcases h with ⟨-, n, v, w, hlt, hsteps⟩ | ⟨v, target, -, htarget, hback⟩
  · exact Nat.not_lt_of_le (hwithin n v w hsteps) hlt
  · exact hwithin.acyclic v (TransGen.head' htarget hback)

theorem le_foldr_max : ∀ {ns : List ℕ} {n : ℕ}, n ∈ ns → n ≤ ns.foldr max 0
  | m :: ns, n, h => by
    rw [List.foldr_cons]
    rcases List.mem_cons.mp h with rfl | h
    · exact Nat.le_max_left _ _
    · exact Nat.le_trans (le_foldr_max h) (Nat.le_max_right _ _)

theorem foldr_max_mem : ∀ (ns : List ℕ), ns.foldr max 0 = 0 ∨ ns.foldr max 0 ∈ ns
  | [] => .inl rfl
  | m :: ns => by
    rw [List.foldr_cons]
    rcases Nat.le_total m (ns.foldr max 0) with hle | hle
    · rw [Nat.max_eq_right hle]
      exact (foldr_max_mem ns).imp_right (List.mem_cons_of_mem _)
    · rw [Nat.max_eq_left hle]
      exact .inr List.mem_cons_self

theorem longestFrom_lt {v target : V} (h : target ∈ edges v) : s.longest target < longestFrom edges s v :=
  le_foldr_max (List.mem_map_of_mem h)

/-- The longest path from a node whose targets are closed is one. -/
theorem Sound.longest_attained (h : Sound edges limit s stack) {v : V}
    (hv : ∀ target ∈ edges v, s.marks target = .closed) : ∃ w, Steps (Edge edges) (longestFrom edges s v) v w := by
  rcases foldr_max_mem ((edges v).map fun target => s.longest target + 1) with hzero | hmem
  · exact ⟨v, by rw [longestFrom, hzero]; exact .stay v⟩
  · obtain ⟨target, htarget, heq⟩ := List.mem_map.mp hmem
    obtain ⟨w, hw⟩ := h.attained target (hv target htarget)
    exact ⟨w, by rw [longestFrom, ← heq]; exact .step htarget hw⟩

theorem Sound.skip {v target : V} {next : ℕ} (h : Sound edges limit s ((v, next) :: stack))
    (hnext : (edges v)[next]? = some target) (hclosed : s.marks target = .closed) :
    Sound edges limit s ((v, next + 1) :: stack) := by
  obtain ⟨habove, htaken, hrest⟩ := h.frames
  refine ⟨h.opened, h.nodup, ⟨habove, fun t ht => ?_, hrest⟩, h.bounded, h.attained, h.closed⟩
  rw [List.take_add_one, hnext, List.mem_append] at ht
  rcases ht with ht | ht
  · exact htaken t ht
  · rw [List.mem_singleton.mp ht]
    exact .inl hclosed

theorem Sound.targets_closed {v : V} {next : ℕ} (h : Sound edges limit s ((v, next) :: stack))
    (hnext : (edges v)[next]? = none) : ∀ target ∈ edges v, s.marks target = .closed := by
  intro target htarget
  obtain ⟨-, htaken, -⟩ := h.frames
  rw [List.take_of_length_le (List.getElem?_eq_none_iff.mp hnext)] at htaken
  rcases htaken target htarget with hclosed | habove
  · exact hclosed
  · cases habove

/-- Closed nodes are on no cycle, and the paths from them are as long as is known at most. -/
theorem Sound.path_le (h : Sound edges limit s []) {n : ℕ} {v w : V} (hsteps : Steps (Edge edges) n v w)
    (hv : s.marks v = .closed) : n ≤ s.longest v := by
  induction hsteps with
  | stay => exact Nat.zero_le _
  | step hab _ ih =>
    obtain ⟨hmark, hlt⟩ := h.closed _ hv _ hab
    have := ih hmark
    omega

variable [DecidableEq V]

theorem update_of_closed {v target : V} {mark : Mark} (hne : s.marks target ≠ .closed) (hv : s.marks v = .closed) :
    Function.update s.marks target mark v = .closed := by
  rw [Function.update_of_ne]
  · exact hv
  · rintro rfl
    exact hne hv

theorem Sound.push {v target : V} {next : ℕ} (h : Sound edges limit s ((v, next) :: stack))
    (hnext : (edges v)[next]? = some target) (hunseen : s.marks target = .unseen) :
    Sound edges limit ⟨Function.update s.marks target .opened, s.longest⟩
      ((target, 0) :: (v, next + 1) :: stack) := by
  have hnot : s.marks target ≠ .closed := by rw [hunseen]; nofun
  have hclosed : ∀ u, Function.update s.marks target .opened u = .closed → s.marks u = .closed := by
    intro u hu
    by_cases hsame : u = target
    · rw [hsame, Function.update_self] at hu
      cases hu
    · rwa [Function.update_of_ne hsame] at hu
  obtain ⟨-, htaken, hrest⟩ := h.frames
  refine ⟨fun u => ?_, ?_, ⟨nofun, nofun, ?_⟩, fun u hu => h.bounded u (hclosed u hu),
    fun u hu => h.attained u (hclosed u hu), fun u hu t ht => ?_⟩
  · have hu := h.opened u
    simp only [List.map_cons, List.mem_cons] at hu ⊢
    by_cases hsame : u = target
    · subst hsame
      simp
    · simp only [Function.update_of_ne hsame, hu]
      simp [hsame]
  · refine List.nodup_cons.mpr ⟨fun hmem => ?_, h.nodup⟩
    rw [(h.opened target).mpr hmem] at hunseen
    cases hunseen
  · refine ⟨fun a ha => ?_, fun t ht => ?_, hrest.mono fun u hu => update_of_closed hnot hu⟩
    · obtain rfl := Option.some.inj ha
      exact List.mem_of_getElem? hnext
    · rw [List.take_add_one, hnext, List.mem_append] at ht
      rcases ht with ht | ht
      · rcases htaken t ht with hclosedT | habove
        · exact .inl (update_of_closed hnot hclosedT)
        · cases habove
      · exact .inr (congrArg some (List.mem_singleton.mp ht).symm)
  · obtain ⟨hmark, hlt⟩ := h.closed u (hclosed u hu) t ht
    exact ⟨update_of_closed hnot hmark, hlt⟩

theorem Sound.pop {v : V} {next : ℕ} (h : Sound edges limit s ((v, next) :: stack))
    (hnext : (edges v)[next]? = none) (hlimit : longestFrom edges s v ≤ limit) :
    Sound edges limit ⟨Function.update s.marks v .closed, Function.update s.longest v (longestFrom edges s v)⟩
      stack := by
  have htargets := h.targets_closed hnext
  have hvopen : s.marks v = .opened := (h.opened v).mpr List.mem_cons_self
  have hnot : s.marks v ≠ .closed := by rw [hvopen]; nofun
  obtain ⟨hvrest, hnodup⟩ := List.nodup_cons.mp h.nodup
  have hother : ∀ u, s.marks u = .closed → u ≠ v := by
    rintro u hu rfl
    exact hnot hu
  have htarget : ∀ t, s.marks t = .closed → Function.update s.marks v .closed t = .closed ∧
      Function.update s.longest v (longestFrom edges s v) t = s.longest t := fun t ht =>
    ⟨update_of_closed hnot ht, Function.update_of_ne (hother t ht) ..⟩
  obtain ⟨-, -, hrest⟩ := h.frames
  have hframes : Frames edges (Function.update s.marks v .closed) none stack := by
    cases stack with
    | nil => trivial
    | cons frame stack =>
      obtain ⟨-, htaken, hbelow⟩ := hrest
      refine ⟨nofun, fun t ht => .inl ?_, hbelow.mono fun u hu => (htarget u hu).1⟩
      rcases htaken t ht with hclosed | habove
      · exact (htarget t hclosed).1
      · obtain rfl := Option.some.inj habove
        exact Function.update_self ..
  refine ⟨fun u => ?_, hnodup, hframes, fun u hu => ?_, fun u hu => ?_, fun u hu t ht => ?_⟩
  · have hu := h.opened u
    rw [List.map_cons, List.mem_cons] at hu
    by_cases hsame : u = v
    · subst hsame
      simp only [Function.update_self]
      exact ⟨nofun, fun hmem => absurd hmem hvrest⟩
    · simp only [Function.update_of_ne hsame, hu]
      simp [hsame]
  · by_cases hsame : u = v
    · subst hsame
      simpa using hlimit
    · simp only [Function.update_of_ne hsame] at hu ⊢
      exact h.bounded u hu
  · by_cases hsame : u = v
    · subst hsame
      simpa using h.longest_attained htargets
    · simp only [Function.update_of_ne hsame] at hu ⊢
      exact h.attained u hu
  · by_cases hsame : u = v
    · subst hsame
      obtain ⟨hmark, hlongest⟩ := htarget t (htargets t ht)
      exact ⟨hmark, by simpa [hlongest] using longestFrom_lt ht⟩
    · simp only [Function.update_of_ne hsame] at hu ⊢
      obtain ⟨hmark, hlt⟩ := h.closed u hu t ht
      obtain ⟨hmark', hlongest⟩ := htarget t hmark
      exact ⟨hmark', by rwa [hlongest]⟩

theorem update_seen {v target : V} {mark : Mark} (hmark : mark ≠ .unseen) (hv : s.marks v ≠ .unseen) :
    Function.update s.marks target mark v ≠ .unseen := by
  by_cases hsame : v = target
  · rw [hsame, Function.update_self]
    exact hmark
  · rwa [Function.update_of_ne hsame]

/-- What a run of the scan gives. -/
def Runs (edges : V → List V) (limit : ℕ) (deep : ε) (cycle : V → V → ε) (s : Scan V) : Except ε (Scan V) → Prop
  | .ok s' => Sound edges limit s' [] ∧ ∀ v, s.marks v ≠ .unseen → s'.marks v ≠ .unseen
  | .error e => Refuses edges limit deep cycle e

/-- **The loop of the scan** closes what is on the stack, or refuses with reason. -/
theorem scanLoop_runs : ∀ {rounds : ℕ} {stack : List (V × ℕ)} {s : Scan V} {result : Except ε (Scan V)},
    Sound edges limit s stack → scanLoop edges limit deep cycle rounds stack s = some result →
    Runs edges limit deep cycle s result
  | _, [], s, result, h, hloop => by
    rw [scanLoop] at hloop
    cases hloop
    exact ⟨h, fun _ hv => hv⟩
  | 0, _ :: _, _, _, _, hloop => nomatch hloop
  | rounds + 1, (v, next) :: stack, s, result, h, hloop => by
    have hvopen : s.marks v = .opened := (h.opened v).mpr List.mem_cons_self
    have hafter : ∀ {s₁ : Scan V} {result : Except ε (Scan V)}, (∀ u, s.marks u ≠ .unseen → s₁.marks u ≠ .unseen) →
        Runs edges limit deep cycle s₁ result → Runs edges limit deep cycle s result := by
      intro s₁ result hseen hruns
      cases result with
      | error e => exact hruns
      | ok s' => exact ⟨hruns.1, fun u hu => hruns.2 u (hseen u hu)⟩
    rw [scanLoop] at hloop
    cases hnext : (edges v)[next]? with
    | none =>
      rw [hnext] at hloop
      dsimp only at hloop
      split at hloop
      · next hdeep =>
        cases hloop
        obtain ⟨w, hw⟩ := h.longest_attained (h.targets_closed hnext)
        exact .inl ⟨rfl, _, v, w, hdeep, hw⟩
      · next hlimit =>
        refine hafter (fun u hu => ?_) (scanLoop_runs (h.pop hnext (Nat.le_of_not_lt hlimit)) hloop)
        exact update_seen nofun hu
    | some target =>
      rw [hnext] at hloop
      dsimp only at hloop
      split at hloop
      · next hunseen =>
        refine hafter (fun u hu => ?_) (scanLoop_runs (h.push hnext hunseen) hloop)
        exact update_seen nofun hu
      · next hopened =>
        cases hloop
        have hmem := (h.opened target).mp hopened
        refine .inr ⟨v, target, rfl, List.mem_of_getElem? hnext, ?_⟩
        rcases List.mem_cons.mp hmem with rfl | hmem
        · exact .refl
        · exact Frames.leads h.frames.2.2 hmem
      · next hclosed => exact scanLoop_runs (h.skip hnext hclosed) hloop

/-- **The scan of a list of nodes** closes them, or refuses with reason. -/
theorem scanFrom_runs {rounds : ℕ} : ∀ {vs : List V} {s : Scan V} {result : Except ε (Scan V)},
    Sound edges limit s [] → scanFrom edges limit deep cycle rounds vs s = some result →
    Runs edges limit deep cycle s result ∧ ∀ s', result = .ok s' → ∀ v ∈ vs, s'.marks v ≠ .unseen
  | [], s, result, h, hscan => by
    cases hscan
    exact ⟨⟨h, fun _ hv => hv⟩, nofun⟩
  | v :: vs, s, result, h, hscan => by
    rw [scanFrom] at hscan
    have hafter : ∀ {s₁ : Scan V}, (∀ u, s.marks u ≠ .unseen → s₁.marks u ≠ .unseen) → s₁.marks v ≠ .unseen →
        Sound edges limit s₁ [] → scanFrom edges limit deep cycle rounds vs s₁ = some result →
        Runs edges limit deep cycle s result ∧ ∀ s', result = .ok s' → ∀ u ∈ v :: vs, s'.marks u ≠ .unseen := by
      intro s₁ hseen hv hs₁ hrest
      obtain ⟨hruns, hall⟩ := scanFrom_runs hs₁ hrest
      cases result with
      | error e => exact ⟨hruns, nofun⟩
      | ok s' =>
        refine ⟨⟨hruns.1, fun u hu => hruns.2 u (hseen u hu)⟩, fun s'' heq u hu => ?_⟩
        obtain rfl := Except.ok.inj heq
        rcases List.mem_cons.mp hu with rfl | hu
        · exact hruns.2 u hv
        · exact hall s' rfl u hu
    split at hscan
    · next hunseen =>
      have hstart : Sound edges limit ⟨Function.update s.marks v .opened, s.longest⟩ [(v, 0)] := by
        have hnot : s.marks v ≠ .closed := by rw [hunseen]; nofun
        have hclosed : ∀ u, Function.update s.marks v .opened u = .closed → s.marks u = .closed := by
          intro u hu
          by_cases hsame : u = v
          · rw [hsame, Function.update_self] at hu
            cases hu
          · rwa [Function.update_of_ne hsame] at hu
        refine ⟨fun u => ?_, List.nodup_singleton v, ⟨nofun, nofun, trivial⟩, fun u hu => h.bounded u (hclosed u hu),
          fun u hu => h.attained u (hclosed u hu), fun u hu t ht => ?_⟩
        · have hu := h.opened u
          by_cases hsame : u = v
          · subst hsame
            simp
          · simp only [Function.update_of_ne hsame, hu]
            simp [hsame]
        · obtain ⟨hmark, hlt⟩ := h.closed u (hclosed u hu) t ht
          exact ⟨update_of_closed hnot hmark, hlt⟩
      split at hscan
      · cases hscan
      · next e hloop =>
        cases hscan
        have hrefuses : Refuses edges limit deep cycle e := scanLoop_runs hstart hloop
        exact ⟨hrefuses, nofun⟩
      · next s₁ hloop =>
        obtain ⟨hs₁, hkept⟩ := scanLoop_runs hstart hloop
        exact hafter (fun u hu => hkept u (update_seen nofun hu)) (hkept v (by simp)) hs₁ hscan
    · next hseen => exact hafter (fun _ hu => hu) hseen h hscan

/-! ### The rounds -/

/-- The nodes that are seen. -/
def Scan.seen (s : Scan V) (v : V) : Bool := decide (s.marks v ≠ .unseen)

theorem seen_update (s : Scan V) {mark : Mark} (hmark : mark ≠ .unseen) (target : V) (longest : V → ℕ) (v : V)
    (h : s.seen v = true) : Scan.seen ⟨Function.update s.marks target mark, longest⟩ v = true :=
  decide_eq_true (update_seen hmark (of_decide_eq_true h))

theorem opened_ne_unseen : Mark.opened ≠ .unseen := nofun

theorem closed_ne_unseen : Mark.closed ≠ .unseen := nofun

/-- Opening a node takes its cost away. -/
theorem weight_open {nodes : List V} (cost : V → ℕ) {target : V} (ht : target ∈ nodes)
    (hunseen : s.marks target = .unseen) :
    weight cost nodes (Scan.seen ⟨Function.update s.marks target .opened, s.longest⟩) + cost target ≤
      weight cost nodes s.seen := by
  have hkept : ∀ v, s.seen v = true → Scan.seen ⟨Function.update s.marks target .opened, s.longest⟩ v = true :=
    seen_update s opened_ne_unseen target s.longest
  refine weight_mark cost hkept ht ?_ ?_
  · simp [Scan.seen, hunseen]
  · simp [Scan.seen]

/-- **The rounds are enough for a stack.** -/
theorem scanLoop_returns {nodes : List V} (hnodes : ∀ v, ∀ target ∈ edges v, target ∈ nodes) :
    ∀ {rounds : ℕ} {stack : List (V × ℕ)} {s : Scan V},
    weight (fun v => (edges v).length + 1) nodes s.seen + stackRounds edges stack ≤ rounds →
    ∃ result, scanLoop edges limit deep cycle rounds stack s = some result
  | _, [], s, _ => ⟨.ok s, by rw [scanLoop]⟩
  | 0, (v, next) :: stack, s, h => by
    simp only [stackRounds, List.map_cons, List.sum_cons] at h
    omega
  | rounds + 1, (v, next) :: stack, s, h => by
    rw [scanLoop]
    simp only [stackRounds, List.map_cons, List.sum_cons] at h
    cases hnext : (edges v)[next]? with
    | none =>
      dsimp only
      split
      · exact ⟨_, rfl⟩
      · refine scanLoop_returns hnodes ?_
        have hweight := weight_le (fun v => (edges v).length + 1) nodes
          (seen_update s closed_ne_unseen v (Function.update s.longest v (longestFrom edges s v)))
        simp only [stackRounds]
        omega
    | some target =>
      dsimp only
      have hdrop := congrArg List.length (drop_of_some hnext)
      rw [List.length_cons] at hdrop
      split
      · next hunseen =>
        refine scanLoop_returns hnodes ?_
        have hweight := weight_open (fun v => (edges v).length + 1)
          (hnodes v target (List.mem_of_getElem? hnext)) hunseen
        simp only [stackRounds, List.map_cons, List.sum_cons, List.drop_zero]
        omega
      · exact ⟨_, rfl⟩
      · refine scanLoop_returns hnodes ?_
        simp only [stackRounds, List.map_cons, List.sum_cons]
        omega

theorem scanFrom_returns {nodes : List V} (hnodes : ∀ v, ∀ target ∈ edges v, target ∈ nodes) :
    ∀ {vs : List V} {s : Scan V}, (∀ v ∈ vs, v ∈ nodes) →
    ∃ result, scanFrom edges limit deep cycle (scanRounds edges nodes) vs s = some result
  | [], s, _ => ⟨.ok s, rfl⟩
  | v :: vs, s, hvs => by
    have hrest : ∀ u ∈ vs, u ∈ nodes := fun u hu => hvs u (List.mem_cons_of_mem _ hu)
    rw [scanFrom]
    split
    · next hunseen =>
      have hweight := weight_open (fun v => (edges v).length + 1) (hvs v List.mem_cons_self) hunseen
      have hstart : weight (fun v => (edges v).length + 1) nodes s.seen ≤ scanRounds edges nodes := by
        have hnone : ∀ u, (fun _ : V => false) u = true → s.seen u = true := nofun
        simpa [weight, scanRounds] using weight_le (fun v => (edges v).length + 1) nodes hnone
      obtain ⟨result, hloop⟩ : ∃ result, scanLoop edges limit deep cycle (scanRounds edges nodes) [(v, 0)]
          ⟨Function.update s.marks v .opened, s.longest⟩ = some result := by
        refine scanLoop_returns hnodes ?_
        simp only [stackRounds, List.map_cons, List.map_nil, List.sum_cons, List.sum_nil, List.drop_zero]
        omega
      rw [hloop]
      cases result with
      | error e => exact ⟨_, rfl⟩
      | ok s' => exact scanFrom_returns hnodes hrest
    · exact scanFrom_returns hnodes hrest

variable (edges limit) in
/-- **The scan is exact**: it comes to an end, accepts the graphs without cycles and without paths over the limit, and
refuses with reason. -/
theorem scan_exact (deep : ε) (cycle : V → V → ε) {nodes : List V}
    (hnodes : ∀ v, ∀ target ∈ edges v, v ∈ nodes ∧ target ∈ nodes) :
    ∃ result, scan edges limit deep cycle nodes = some result ∧
      (result = .ok () ↔ Acyclic (Edge edges) ∧ Within (Edge edges) limit) ∧
      ∀ e, result = .error e → Refuses edges limit deep cycle e := by
  obtain ⟨result, hscan⟩ : ∃ result, scanFrom edges limit deep cycle (scanRounds edges nodes) nodes
      ⟨fun _ => .unseen, fun _ => 0⟩ = some result :=
    scanFrom_returns (fun v target ht => (hnodes v target ht).2) fun _ hv => hv
  have hempty : Sound edges limit (⟨fun _ => .unseen, fun _ => 0⟩ : Scan V) [] :=
    ⟨fun v => ⟨nofun, nofun⟩, List.nodup_nil, trivial, nofun, nofun, nofun⟩
  obtain ⟨hruns, hall⟩ := scanFrom_runs hempty hscan
  refine ⟨result.map fun _ => (), by rw [scan, hscan]; rfl, ?_, ?_⟩
  · cases result with
    | error e =>
      refine ⟨nofun, fun ⟨_, hwithin⟩ => absurd hwithin ?_⟩
      exact Refuses.not_within (show Refuses edges limit deep cycle e from hruns)
    | ok s =>
      obtain ⟨hsound, -⟩ := hruns
      have hclosed : ∀ v ∈ nodes, s.marks v = .closed := by
        intro v hv
        cases hmark : s.marks v with
        | unseen => exact absurd hmark (hall s rfl v hv)
        | opened => cases (hsound.opened v).mp hmark
        | closed => rfl
      have hwithin : Within (Edge edges) limit := by
        intro n v w hsteps
        cases hsteps with
        | stay => exact Nat.zero_le _
        | step hab hrest =>
          have hv := hclosed v (hnodes v _ hab).1
          exact Nat.le_trans (hsound.path_le (.step hab hrest) hv) (hsound.bounded v hv)
      exact ⟨fun _ => ⟨hwithin.acyclic, hwithin⟩, fun _ => rfl⟩
  · intro e he
    cases result with
    | error e' =>
      obtain rfl := Except.error.inj he
      exact hruns
    | ok s => cases he

end Sound

end Blot.Support.LongestPaths
