import Blot.Effects.Tree

/-!
# Computations denote effect trees

The queues of a computation are the frames of its tree: building, attaching and driving a computation rewrite its tree
to the tree of what is built, and the tree is rewritten no further than the computation is advanced.

* `rewrites_build` — what is built is what its tree is rewritten to;
* `gives_build` — a tree that comes to a result or a request is built, with enough fuel.
-/

namespace Blot.Effects

open Blot.Support.Lockstep
open Blot.Eval (Value Perform)

variable {X K σ : Type} {code : Code X K σ}

/-! ### Rewriting inside frames -/

section Rewriting

variable {tree tree' : Tree X K} {w w' : TreeWorld X K σ}

def Rewrites (code : Code X K σ) (tree : Tree X K) (w : TreeWorld X K σ) (tree' : Tree X K) (w' : TreeWorld X K σ) :
    Prop := Comes (Tree.rewrite code) (tree, w) (tree', w')

/-- The tree comes to a result or a request within `n` steps. -/
def Settles (code : Code X K σ) (n : ℕ) (tree : Tree X K) (w : TreeWorld X K σ) : Prop :=
  ∃ head, Blot.Support.Lockstep.run (Tree.rewrite code) n (tree, w) = some head

theorem Rewrites.refl : Rewrites code tree w tree w := Relation.ReflTransGen.refl

theorem Rewrites.trans {tree'' : Tree X K} {w'' : TreeWorld X K σ} (h : Rewrites code tree w tree' w')
    (h' : Rewrites code tree' w' tree'' w'') : Rewrites code tree w tree'' w'' := Relation.ReflTransGen.trans h h'

theorem step_rewrite (h : tree.step code w = .inl (tree', w')) : Step (Tree.rewrite code) (tree, w) (tree', w') := h

theorem Rewrites.of_step (h : tree.step code w = .inl (tree', w')) : Rewrites code tree w tree' w' :=
  Relation.ReflTransGen.single h

theorem step_under (h : tree.step code w = .inl (tree', w')) (frame : Frame X K) :
    (Tree.under tree frame).step code w = .inl (.under tree' frame, w') := by
  simp only [Tree.step, h]

theorem step_under_head {head : Head X K} (h : tree.step code w = .inr (head, w')) (frame : Frame X K) :
    (Tree.under tree frame).step code w = .inl (frame.after code head w') := by
  simp only [Tree.step, h]

theorem Rewrites.under (h : Rewrites code tree w tree' w') (frame : Frame X K) :
    Rewrites code (.under tree frame) w (.under tree' frame) w' := by
  refine Relation.ReflTransGen.lift
    (fun spot : Tree X K × TreeWorld X K σ => (Tree.under spot.1 frame, spot.2)) ?_ _ _ h
  rintro spot ⟨tree', w'⟩ hstep
  exact step_under hstep frame

theorem Rewrites.queued (h : Rewrites code tree w tree' w') (continuations : List (Continuation K)) :
    Rewrites code (tree.queued continuations) w (tree'.queued continuations) w' := by
  induction continuations generalizing tree tree' with
  | nil => exact h
  | cons continuation continuations ih => exact ih (h.under continuation.frame)

theorem Settles.of_step {n : ℕ} (h : tree.step code w = .inl (tree', w')) (hs : Settles code n tree w) :
    ∃ m < n, Settles code m tree' w' := by
  obtain ⟨head, hrun⟩ := hs
  obtain ⟨m, hm, hrun'⟩ := run_goes (.single (step_rewrite h)) hrun
  exact ⟨m, hm, head, hrun'⟩

theorem Settles.of_rewrites {n : ℕ} (h : Rewrites code tree w tree' w') (hs : Settles code n tree w) :
    ∃ m ≤ n, Settles code m tree' w' := by
  obtain ⟨head, hrun⟩ := hs
  rcases Relation.reflTransGen_iff_eq_or_transGen.1 h with heq | hgoes
  · obtain ⟨rfl, rfl⟩ := Prod.mk.inj heq
    exact ⟨n, le_rfl, head, hrun⟩
  · obtain ⟨m, hm, hrun'⟩ := run_goes hgoes hrun
    exact ⟨m, hm.le, head, hrun'⟩

/-- A tree in a frame settles after the tree. -/
theorem Settles.inner {n : ℕ} {frame : Frame X K} (hs : Settles code n (.under tree frame) w) :
    ∃ m < n, Settles code m tree w := by
  induction n generalizing tree w with
  | zero =>
    obtain ⟨head, hrun⟩ := hs
    cases hrun
  | succ n ih =>
    rcases hstep : tree.step code w with ⟨tree', w'⟩ | ⟨head, w'⟩
    · obtain ⟨k, hk, hs'⟩ := hs.of_step (step_under hstep frame)
      obtain ⟨head, hrun⟩ := hs'
      have hlong : Settles code n (.under tree' frame) w' := by
        obtain ⟨head', hrun'⟩ := hs
        exact ⟨head', (run_step (step_rewrite (step_under hstep frame)) n).symm.trans hrun'⟩
      obtain ⟨m, hm, head', hrun'⟩ := ih hlong
      refine ⟨m + 1, by omega, head', ?_⟩
      exact (run_step (step_rewrite hstep) m).trans hrun'
    · refine ⟨1, ?_, (head, w'), ?_⟩
      · obtain ⟨m, hm, head', hrun⟩ := hs.of_step (step_under_head hstep frame)
        cases m with
        | zero => cases hrun
        | succ m => omega
      · simp only [Blot.Support.Lockstep.run, Tree.rewrite, hstep]

theorem Settles.queue {n : ℕ} {continuations : List (Continuation K)}
    (hs : Settles code n (tree.queued continuations) w) : ∃ m ≤ n, Settles code m tree w := by
  induction continuations generalizing tree with
  | nil => exact ⟨n, le_rfl, hs⟩
  | cons continuation continuations ih =>
    obtain ⟨k, hk, hs'⟩ := ih hs
    obtain ⟨m, hm, hs''⟩ := hs'.inner
    exact ⟨m, by omega, hs''⟩

end Rewriting

/-! ### Queues are frames -/

section Queues

variable {w : TreeWorld X K σ}

theorem queued_append (tree : Tree X K) (continuations more : List (Continuation K)) :
    tree.queued (continuations ++ more) = (tree.queued continuations).queued more := List.foldl_append

theorem rewrites_ask (request : Perform X) (resume : Value X → Tree X K) (continuations : List (Continuation K)) :
    Rewrites code ((Tree.ask request resume).queued continuations) w
      (.ask request fun v => (resume v).queued continuations) w := by
  induction continuations generalizing resume with
  | nil => exact .refl
  | cons continuation continuations ih =>
    have hstep : Rewrites code (.under (.ask request resume) continuation.frame) w
        (.ask request fun v => .under (resume v) continuation.frame) w := by
      refine .of_step ?_
      cases continuation <;> rfl
    exact (hstep.queued continuations).trans (ih _)

/-- **`attach_continuations` puts a tree into frames.** -/
theorem rewrites_attach (computation : Computation X K) (continuations : List (Continuation K)) :
    Rewrites code (computation.tree.queued continuations) w (computation.attach continuations).tree w := by
  cases computation with
  | step pending =>
    rw [Computation.attach, Computation.tree, Computation.tree, queued_append]
    exact .refl
  | perform request resume =>
    refine (rewrites_ask request _ continuations).trans ?_
    simp only [Computation.attach, Computation.tree, queued_append]
    exact .refl
  | done result =>
    induction continuations generalizing result with
    | nil => exact .refl
    | cons continuation continuations ih =>
      cases continuation with
      | value next =>
        cases result with
        | ok v => exact (Rewrites.of_step rfl).queued continuations
        | error e => exact ((Rewrites.of_step rfl).queued continuations).trans (ih (.error e))
      | result next =>
        cases result with
        | ok v | error e => exact (Rewrites.of_step rfl).queued continuations
      | origin path =>
        have hattach : (Computation.done result).attach (.origin path :: continuations) =
            (Computation.done (Result.at result path) : Computation X K).attach continuations := by
          cases result <;> rfl
        rw [hattach]
        exact ((Rewrites.of_step rfl).queued continuations).trans (ih _)

theorem rewrites_andThen (computation : Computation X K) (next : K) :
    Rewrites code (.under computation.tree (.bind next)) w (computation.andThen next).tree w := by
  have hattach : computation.andThen next = computation.attach [.value next] := by
    rcases computation with (_ | _) | _ | _ <;> rfl
  rw [hattach]
  exact rewrites_attach computation [.value next]

theorem rewrites_mapResult (computation : Computation X K) (next : K) :
    Rewrites code (.under computation.tree (.both next)) w (computation.mapResult next).tree w := by
  have hattach : computation.mapResult next = computation.attach [.result next] := by
    rcases computation with (_ | _) | _ | _ <;> rfl
  rw [hattach]
  exact rewrites_attach computation [.result next]

theorem rewrites_at (computation : Computation X K) (path : String) :
    Rewrites code (.under computation.tree (.mark path)) w (computation.at path).tree w := by
  have hattach : computation.at path = computation.attach [.origin path] := by
    rcases computation with (_ | _) | _ | _ <;> rfl
  rw [hattach]
  exact rewrites_attach computation [.origin path]

end Queues

/-! ### Building rewrites -/

/-- At least one rewriting. -/
def Advances (code : Code X K σ) (tree : Tree X K) (w : TreeWorld X K σ) (tree' : Tree X K) (w' : TreeWorld X K σ) :
    Prop := ∃ tree₁ w₁, tree.step code w = .inl (tree₁, w₁) ∧ Rewrites code tree₁ w₁ tree' w'

section Advances

variable {tree tree' tree'' : Tree X K} {w w' w'' : TreeWorld X K σ}

theorem Advances.rewrites (h : Advances code tree w tree' w') : Rewrites code tree w tree' w' := by
  obtain ⟨tree₁, w₁, hstep, hrest⟩ := h
  exact (Rewrites.of_step hstep).trans hrest

theorem Advances.trans (h : Advances code tree w tree' w') (h' : Rewrites code tree' w' tree'' w'') :
    Advances code tree w tree'' w'' := by
  obtain ⟨tree₁, w₁, hstep, hrest⟩ := h
  exact ⟨tree₁, w₁, hstep, hrest.trans h'⟩

theorem Advances.under (h : Advances code tree w tree' w') (frame : Frame X K) :
    Advances code (.under tree frame) w (.under tree' frame) w' := by
  obtain ⟨tree₁, w₁, hstep, hrest⟩ := h
  exact ⟨.under tree₁ frame, w₁, step_under hstep frame, hrest.under frame⟩

theorem Advances.queued (h : Advances code tree w tree' w') (continuations : List (Continuation K)) :
    Advances code (tree.queued continuations) w (tree'.queued continuations) w' := by
  induction continuations generalizing tree tree' with
  | nil => exact h
  | cons continuation continuations ih => exact ih (h.under continuation.frame)

end Advances

section Worlds

variable {w : World σ (Resumption X K)}

theorem read_allocate (resume : Resumption X K) :
    w.read.allocate resume.tree = ((w.allocate resume).1, (w.allocate resume).2.read) := by
  simp [World.allocate, World.read]

theorem read_take (continuation : ℕ) :
    w.read.take continuation = ((w.take continuation).1.map Resumption.tree, (w.take continuation).2.read) := by
  unfold World.take World.read
  rw [List.getElem?_map]
  cases w.cells[continuation]? with
  | none => rfl
  | some cell =>
    cases hused : cell.used with
    | true => simp [hused]
    | false => simp [hused, List.map_set]

end Worlds

/-- What a call builds is what its tree is rewritten to. -/
def Sound (code : Code X K σ) (enter : Built X K → World σ (Resumption X K) → Option (Reached X K σ)) : Prop :=
  ∀ built w c w', enter built w = some (c, w') → Rewrites code built.tree w.read c.tree w'.read

section Sound

variable {enter : Built X K → World σ (Resumption X K) → Option (Reached X K σ)} {w w' : World σ (Resumption X K)}
  {c c' : Computation X K}

theorem rewrites_enterWith (hsound : Sound code enter) {run : σ → Built X K × σ}
    (h : enterWith enter run w = some (c, w')) :
    Rewrites code (Tree.entered Built.tree run w.read).1 (Tree.entered Built.tree run w.read).2 c.tree w'.read :=
  hsound _ _ _ _ h

theorem rewrites_drive (hsound : Sound code enter) {handler : Handler X}
    (h : c.drive code enter handler w = some (c', w')) :
    Rewrites code (.under c.tree (.handle handler)) w.read c'.tree w'.read := by
  rcases c with (e | v) | pending | ⟨request, resume⟩
  · obtain ⟨rfl, rfl⟩ := Prod.mk.inj (Option.some.inj h)
    exact .of_step rfl
  · simp only [Computation.drive] at h
    cases hreturns : handler.returns code v with
    | none =>
      rw [hreturns] at h
      obtain ⟨rfl, rfl⟩ := Prod.mk.inj (Option.some.inj h)
      refine .of_step ?_
      simp only [Computation.tree, Tree.step, Frame.after, hreturns]
    | some call =>
      rw [hreturns] at h
      have hcall : Rewrites code (.under (.pure (.ok v)) (.handle handler)) w.read (.apply call) w.read := by
        refine .of_step ?_
        simp only [Tree.step, Frame.after, hreturns]
      exact hcall.trans (hsound _ _ _ _ h)
  · obtain ⟨rfl, rfl⟩ := Prod.mk.inj (Option.some.inj h)
    exact .refl
  · simp only [Computation.drive] at h
    cases hclause : handler.clause request with
    | none =>
      rw [hclause] at h
      obtain ⟨rfl, rfl⟩ := Prod.mk.inj (Option.some.inj h)
      refine .of_step ?_
      simp only [Computation.tree, Tree.step, Frame.after, hclause]
      rfl
    | some function =>
      rw [hclause] at h
      refine (Rewrites.of_step ?_).trans (hsound _ _ _ _ h)
      simp only [Computation.tree, Tree.step, Frame.after, hclause]
      rw [show (fun v => Tree.under ((resume.next.tree v).queued resume.continuations) (.handle handler)) =
        (Resumption.drive resume.next resume.continuations handler).tree from rfl, read_allocate]
      rfl

theorem advances_callback (hsound : Sound code enter) {callback : Callback X K}
    (h : callback.call code enter w = some (c, w')) : Advances code callback.tree w.read c.tree w'.read := by
  induction callback generalizing w c w' with
  | code next | value next v | result next r => exact ⟨_, _, rfl, rewrites_enterWith hsound h⟩
  | drive next continuations handler ih =>
    obtain ⟨⟨c₁, w₁⟩, hnext, hdrive⟩ := Option.bind_eq_some_iff.1 h
    refine (((ih hnext).queued continuations).under (.handle handler)).trans ?_
    exact ((rewrites_attach c₁ continuations).under (.handle handler)).trans (rewrites_drive hsound hdrive)

theorem advances_resumption (hsound : Sound code enter) {resumption : Resumption X K} {v : Value X}
    (h : resumption.call code enter v w = some (c, w')) : Advances code (resumption.tree v) w.read c.tree w'.read := by
  induction resumption generalizing w c w' with
  | code next => exact ⟨_, _, rfl, rewrites_enterWith hsound h⟩
  | drive next continuations handler ih =>
    obtain ⟨⟨c₁, w₁⟩, hnext, hdrive⟩ := Option.bind_eq_some_iff.1 h
    refine (((ih hnext).queued continuations).under (.handle handler)).trans ?_
    exact ((rewrites_attach c₁ continuations).under (.handle handler)).trans (rewrites_drive hsound hdrive)

/-- **Advancing a step advances its tree.** -/
theorem advances_step (hsound : Sound code enter) {pending : ComputationStep X K}
    (h : pending.advance code enter w = some (c, w')) :
    Advances code (Computation.step pending).tree w.read c.tree w'.read := by
  obtain ⟨⟨c₁, w₁⟩, hnext, hattach⟩ := Option.bind_eq_some_iff.1 h
  obtain ⟨rfl, rfl⟩ := Prod.mk.inj (Option.some.inj hattach)
  exact ((advances_callback hsound hnext).queued _).trans (rewrites_attach c₁ _)

theorem advances_resume (hsound : Sound code enter) {resume : ComputationResume X K} {v : Value X}
    (h : resume.advance code enter v w = some (c, w')) :
    Advances code ((resume.next.tree v).queued resume.continuations) w.read c.tree w'.read := by
  obtain ⟨⟨c₁, w₁⟩, hnext, hattach⟩ := Option.bind_eq_some_iff.1 h
  obtain ⟨rfl, rfl⟩ := Prod.mk.inj (Option.some.inj hattach)
  exact ((advances_resumption hsound hnext).queued _).trans (rewrites_attach c₁ _)

theorem step_continuation {call : Application X} {continuation : ℕ} (hcall : call.function = .continuation continuation)
    (w : TreeWorld X K σ) :
    (Tree.apply call).step code w = .inl (match w.take continuation with
      | (some resume, w) => (resume call.argument, w)
      | (none, w) => (.pure (.error (resumedTwice call.span)), w)) := by
  simp only [Tree.step, hcall]
  rcases w.take continuation with ⟨_ | resume, w⟩ <;> rfl

theorem apply_continuation {call : Application X} {continuation : ℕ}
    (hcall : call.function = .continuation continuation)
    (w : World σ (Resumption X K)) :
    call.apply code enter w = match w.take continuation with
      | (some resume, w) => resume.call code enter call.argument w
      | (none, w) => some (.done (.error (resumedTwice call.span)), w) := by
  rcases htake : w.take continuation with ⟨_ | resume, w'⟩ <;> simp only [Application.apply, hcall, htake]

theorem apply_cases (code : Code X K σ) (call : Application X) :
    (∃ continuation, call.function = .continuation continuation) ∨
    (∀ enter : Built X K → World σ (Resumption X K) → Option (Reached X K σ), ∀ w,
      call.apply code enter w = enterWith enter (code.apply call) w) ∧
    ∀ w, (Tree.apply call).step code w = .inl (Tree.entered Built.tree (code.apply call) w) := by
  cases hcall : call.function with
  | continuation continuation => exact .inl ⟨continuation, rfl⟩
  | _ =>
    refine .inr ⟨fun enter w => ?_, fun w => ?_⟩
    · simp only [Application.apply, hcall]
    · simp only [Tree.step, hcall]

theorem rewrites_apply (hsound : Sound code enter) {call : Application X}
    (h : call.apply code enter w = some (c, w')) : Rewrites code (.apply call) w.read c.tree w'.read := by
  rcases apply_cases code call with ⟨continuation, hcall⟩ | ⟨happly, hstep⟩
  · rw [apply_continuation hcall] at h
    refine (Rewrites.of_step (step_continuation hcall w.read)).trans ?_
    rw [read_take]
    rcases htake : w.take continuation with ⟨_ | resume, w₁⟩
    · rw [htake] at h
      obtain ⟨rfl, rfl⟩ := Prod.mk.inj (Option.some.inj h)
      exact .refl
    · rw [htake] at h
      exact (advances_resumption hsound h).rewrites
  · rw [happly] at h
    exact (Rewrites.of_step (hstep w.read)).trans (rewrites_enterWith hsound h)

/-- **What is built is what its tree is rewritten to.** -/
theorem rewrites_build (hsound : Sound code enter) {built : Built X K} (h : built.build code enter w = some (c, w')) :
    Rewrites code built.tree w.read c.tree w'.read := by
  induction built generalizing w c w' with
  | value v | error e | step next | perform request resume =>
    obtain ⟨rfl, rfl⟩ := Prod.mk.inj (Option.some.inj h)
    exact .refl
  | apply call => exact rewrites_apply hsound h
  | andThen computation next ih =>
    obtain ⟨⟨c₁, w₁⟩, hbuild, hpush⟩ := Option.bind_eq_some_iff.1 h
    obtain ⟨rfl, rfl⟩ := Prod.mk.inj (Option.some.inj hpush)
    exact ((ih hbuild).under _).trans (rewrites_andThen c₁ next)
  | mapResult computation next ih =>
    obtain ⟨⟨c₁, w₁⟩, hbuild, hpush⟩ := Option.bind_eq_some_iff.1 h
    obtain ⟨rfl, rfl⟩ := Prod.mk.inj (Option.some.inj hpush)
    exact ((ih hbuild).under _).trans (rewrites_mapResult c₁ next)
  | «at» computation path ih =>
    obtain ⟨⟨c₁, w₁⟩, hbuild, hpush⟩ := Option.bind_eq_some_iff.1 h
    obtain ⟨rfl, rfl⟩ := Prod.mk.inj (Option.some.inj hpush)
    exact ((ih hbuild).under _).trans (rewrites_at c₁ path)
  | attach computation continuations ih =>
    obtain ⟨⟨c₁, w₁⟩, hbuild, hpush⟩ := Option.bind_eq_some_iff.1 h
    obtain ⟨rfl, rfl⟩ := Prod.mk.inj (Option.some.inj hpush)
    exact ((ih hbuild).queued _).trans (rewrites_attach c₁ continuations)
  | advance computation ih =>
    obtain ⟨⟨c₁, w₁⟩, hbuild, hadvance⟩ := Option.bind_eq_some_iff.1 h
    refine (ih hbuild).trans ?_
    cases c₁ with
    | step pending => exact (advances_step hsound hadvance).rewrites
    | done result | perform request resume =>
      obtain ⟨rfl, rfl⟩ := Prod.mk.inj (Option.some.inj hadvance)
      exact .refl
  | drive computation handler ih =>
    obtain ⟨⟨c₁, w₁⟩, hbuild, hdrive⟩ := Option.bind_eq_some_iff.1 h
    exact ((ih hbuild).under _).trans (rewrites_drive hsound hdrive)

end Sound

theorem sound_enter (code : Code X K σ) (fuel : ℕ) : Sound code (enter code fuel) := by
  induction fuel with
  | zero => exact fun _ _ _ _ h => by cases h
  | succ fuel ih => exact fun _ _ _ _ h => rewrites_build ih h

/-! ### A tree that settles is built -/

/-- With enough fuel the result is this one. -/
def Gives {A : Type} (f : ℕ → Option A) (a : A) : Prop := ∃ n, ∀ m ≥ n, f m = some a

section Gives

variable {A B : Type} {f : ℕ → Option A} {a : A}

theorem Gives.now (h : ∀ n, f n = some a) : Gives f a := ⟨0, fun n _ => h n⟩

theorem Gives.bind {g : ℕ → A → Option B} {b : B} (h : Gives f a) (hg : Gives (fun n => g n a) b) :
    Gives (fun n => (f n).bind (g n)) b := by
  obtain ⟨n, hn⟩ := h
  obtain ⟨k, hk⟩ := hg
  refine ⟨max n k, fun m hm => ?_⟩
  show (f m).bind (g m) = some b
  rw [hn m (le_trans (le_max_left n k) hm), Option.bind_some]
  exact hk m (le_trans (le_max_right n k) hm)

theorem Gives.later {g : ℕ → Option A} (h : Gives f a) (hg : ∀ n, g (n + 1) = f n) : Gives g a := by
  obtain ⟨n, hn⟩ := h
  refine ⟨n + 1, fun m hm => ?_⟩
  obtain ⟨m, rfl⟩ := Nat.exists_eq_add_of_le' (Nat.one_le_of_lt hm)
  rw [hg]
  exact hn m (by omega)

theorem Gives.congr {g : ℕ → Option A} (h : Gives f a) (hg : ∀ n, g n = f n) : Gives g a := by
  obtain ⟨n, hn⟩ := h
  exact ⟨n, fun m hm => (hg m).trans (hn m hm)⟩

theorem Gives.exists_eq (h : Gives f a) : ∃ n, f n = some a := by
  obtain ⟨n, hn⟩ := h
  exact ⟨n, hn n le_rfl⟩

end Gives

/-- Calls whose trees settle within less than `bound` steps are built. -/
def Total (code : Code X K σ) (bound : ℕ) : Prop :=
  ∀ n < bound, ∀ built w, Settles code n built.tree w.read →
    ∃ reached, Gives (fun fuel => enter code fuel built w) reached

theorem Total.mono {bound bound' : ℕ} (h : Total code bound) (hle : bound' ≤ bound) : Total code bound' :=
  fun n hn => h n (lt_of_lt_of_le hn hle)

section Total

variable {n : ℕ} {w : World σ (Resumption X K)} {c : Computation X K}

theorem gives_enterWith (htotal : Total code n) {tree : Tree X K} {run : σ → Built X K × σ}
    (hstep : tree.step code w.read = .inl (Tree.entered Built.tree run w.read)) (hs : Settles code n tree w.read) :
    ∃ reached, Gives (fun fuel => enterWith (enter code fuel) run w) reached := by
  obtain ⟨m, hm, hs'⟩ := hs.of_step hstep
  exact htotal m hm _ { w with rest := (run w.rest).2 } hs'

theorem gives_drive (htotal : Total code n) {handler : Handler X}
    (hs : Settles code n (.under c.tree (.handle handler)) w.read) :
    ∃ reached, Gives (fun fuel => c.drive code (enter code fuel) handler w) reached := by
  rcases c with (e | v) | pending | ⟨request, resume⟩
  · exact ⟨_, .now fun _ => rfl⟩
  · cases hreturns : handler.returns code v with
    | none => exact ⟨(.done (.ok v), w), .now fun _ => by simp only [Computation.drive, hreturns]⟩
    | some call =>
      have hstep : (Tree.under (Computation.done (.ok v)).tree (.handle handler)).step code w.read =
          .inl (.apply call, w.read) := by
        simp only [Computation.tree, Tree.step, Frame.after, hreturns]
      obtain ⟨m, hm, hs'⟩ := hs.of_step hstep
      simp only [Computation.drive, hreturns]
      exact htotal m hm (.apply call) w hs'
  · exact ⟨_, .now fun _ => rfl⟩
  · cases hclause : handler.clause request with
    | none =>
      exact ⟨(.perform request ⟨.drive resume.next resume.continuations handler, []⟩, w),
        .now fun _ => by simp only [Computation.drive, hclause]⟩
    | some function =>
      have hstep : (Tree.under (Computation.perform request resume).tree (.handle handler)).step code w.read =
          .inl (.apply (handler.call code function request
            (w.allocate (.drive resume.next resume.continuations handler)).1),
            (w.allocate (.drive resume.next resume.continuations handler)).2.read) := by
        simp only [Computation.tree, Tree.step, Frame.after, hclause]
        rw [show (fun v => Tree.under ((resume.next.tree v).queued resume.continuations) (.handle handler)) =
          (Resumption.drive resume.next resume.continuations handler).tree from rfl, read_allocate]
      obtain ⟨m, hm, hs'⟩ := hs.of_step hstep
      simp only [Computation.drive, hclause]
      exact htotal m hm (.apply _) _ hs'

/-- What follows a closure of `drive` is built when its tree settles. -/
theorem gives_driven (htotal : Total code n) {tree : Tree X K} {continuations : List (Continuation K)}
    {handler : Handler X} {w' : World σ (Resumption X K)}
    (hadvances : Advances code tree w.read c.tree w'.read)
    (hs : Settles code n (.under (tree.queued continuations) (.handle handler)) w.read) :
    ∃ reached, Gives (fun fuel => (c.attach continuations).drive code (enter code fuel) handler w') reached := by
  have hrewrites := ((hadvances.queued continuations).rewrites.trans (rewrites_attach c continuations)).under
    (.handle handler)
  obtain ⟨m, hm, hs'⟩ := hs.of_rewrites hrewrites
  exact gives_drive (htotal.mono hm) hs'

theorem gives_callback {callback : Callback X K} (htotal : Total code n) (hs : Settles code n callback.tree w.read) :
    ∃ reached, Gives (fun fuel => callback.call code (enter code fuel) w) reached := by
  induction callback generalizing n w with
  | code next | value next v | result next r => exact gives_enterWith htotal rfl hs
  | drive next continuations handler ih =>
    obtain ⟨k, hk, hinner⟩ := hs.inner
    obtain ⟨m, hm, hnext⟩ := hinner.queue
    obtain ⟨⟨c₁, w₁⟩, hgives⟩ := ih (htotal.mono (by omega)) hnext
    obtain ⟨fuel, hfuel⟩ := hgives.exists_eq
    obtain ⟨reached, hdriven⟩ := gives_driven htotal (advances_callback (sound_enter code fuel) hfuel) hs
    refine ⟨reached, Gives.congr (hgives.bind (g := fun fuel p =>
      (p.1.attach continuations).drive code (enter code fuel) handler p.2) hdriven) fun _ => rfl⟩

theorem gives_resumption {resumption : Resumption X K} {v : Value X} (htotal : Total code n)
    (hs : Settles code n (resumption.tree v) w.read) :
    ∃ reached, Gives (fun fuel => resumption.call code (enter code fuel) v w) reached := by
  induction resumption generalizing n w with
  | code next => exact gives_enterWith htotal rfl hs
  | drive next continuations handler ih =>
    obtain ⟨k, hk, hinner⟩ := hs.inner
    obtain ⟨m, hm, hnext⟩ := hinner.queue
    obtain ⟨⟨c₁, w₁⟩, hgives⟩ := ih (htotal.mono (by omega)) hnext
    obtain ⟨fuel, hfuel⟩ := hgives.exists_eq
    obtain ⟨reached, hdriven⟩ := gives_driven htotal (advances_resumption (sound_enter code fuel) hfuel) hs
    refine ⟨reached, Gives.congr (hgives.bind (g := fun fuel p =>
      (p.1.attach continuations).drive code (enter code fuel) handler p.2) hdriven) fun _ => rfl⟩

theorem gives_step {pending : ComputationStep X K} (htotal : Total code n)
    (hs : Settles code n (Computation.step pending).tree w.read) :
    ∃ reached, Gives (fun fuel => pending.advance code (enter code fuel) w) reached := by
  obtain ⟨m, hm, hnext⟩ := hs.queue
  obtain ⟨reached, hgives⟩ := gives_callback (htotal.mono hm) hnext
  exact ⟨_, Gives.congr (hgives.bind (g := fun _ p => some (p.1.attach pending.continuations, p.2)) (.now fun _ => rfl))
    fun _ => rfl⟩

theorem gives_resume {resume : ComputationResume X K} {v : Value X} (htotal : Total code n)
    (hs : Settles code n ((resume.next.tree v).queued resume.continuations) w.read) :
    ∃ reached, Gives (fun fuel => resume.advance code (enter code fuel) v w) reached := by
  obtain ⟨m, hm, hnext⟩ := hs.queue
  obtain ⟨reached, hgives⟩ := gives_resumption (htotal.mono hm) hnext
  exact ⟨_, Gives.congr (hgives.bind (g := fun _ p => some (p.1.attach resume.continuations, p.2)) (.now fun _ => rfl))
    fun _ => rfl⟩

theorem gives_apply {call : Application X} (htotal : Total code n) (hs : Settles code n (.apply call) w.read) :
    ∃ reached, Gives (fun fuel => call.apply code (enter code fuel) w) reached := by
  rcases apply_cases code call with ⟨continuation, hcall⟩ | ⟨happly, hstep⟩
  · obtain ⟨m, hm, hs'⟩ := hs.of_step (step_continuation hcall w.read)
    simp only [apply_continuation hcall]
    rw [read_take] at hs'
    rcases htake : w.take continuation with ⟨_ | resume, w₁⟩
    · exact ⟨_, .now fun _ => rfl⟩
    · rw [htake] at hs'
      exact gives_resumption (htotal.mono hm.le) hs'
  · simp only [happly]
    exact gives_enterWith htotal (hstep w.read) hs

/-- **What settles is built.** -/
theorem gives_build {built : Built X K} (htotal : Total code n) (hs : Settles code n built.tree w.read) :
    ∃ reached, Gives (fun fuel => built.build code (enter code fuel) w) reached := by
  induction built generalizing n w with
  | value v => exact ⟨_, .now fun _ => rfl⟩
  | error e => exact ⟨_, .now fun _ => rfl⟩
  | step next => exact ⟨_, .now fun _ => rfl⟩
  | perform request resume => exact ⟨_, .now fun _ => rfl⟩
  | apply call => exact gives_apply htotal hs
  | andThen computation next ih =>
    obtain ⟨m, hm, hinner⟩ := hs.inner
    obtain ⟨reached, hgives⟩ := ih (htotal.mono hm.le) hinner
    exact ⟨_, Gives.congr (hgives.bind (g := fun _ p => some (p.1.andThen next, p.2)) (.now fun _ => rfl)) fun _ => rfl⟩
  | mapResult computation next ih =>
    obtain ⟨m, hm, hinner⟩ := hs.inner
    obtain ⟨reached, hgives⟩ := ih (htotal.mono hm.le) hinner
    exact ⟨_, Gives.congr (hgives.bind (g := fun _ p => some (p.1.mapResult next, p.2)) (.now fun _ => rfl))
      fun _ => rfl⟩
  | «at» computation path ih =>
    obtain ⟨m, hm, hinner⟩ := hs.inner
    obtain ⟨reached, hgives⟩ := ih (htotal.mono hm.le) hinner
    exact ⟨_, Gives.congr (hgives.bind (g := fun _ p => some (p.1.at path, p.2)) (.now fun _ => rfl)) fun _ => rfl⟩
  | attach computation continuations ih =>
    obtain ⟨m, hm, hinner⟩ := hs.queue
    obtain ⟨reached, hgives⟩ := ih (htotal.mono hm) hinner
    exact ⟨_, Gives.congr (hgives.bind (g := fun _ p => some (p.1.attach continuations, p.2)) (.now fun _ => rfl))
      fun _ => rfl⟩
  | advance computation ih =>
    obtain ⟨⟨c₁, w₁⟩, hgives⟩ := ih htotal hs
    obtain ⟨fuel, hfuel⟩ := hgives.exists_eq
    obtain ⟨m, hm, hs'⟩ := hs.of_rewrites (rewrites_build (sound_enter code fuel) hfuel)
    cases c₁ with
    | step pending =>
      obtain ⟨reached, hadvance⟩ := gives_step (htotal.mono hm) hs'
      exact ⟨reached, hgives.bind hadvance⟩
    | done result => exact ⟨_, hgives.bind (.now fun _ => rfl)⟩
    | perform request resume => exact ⟨_, hgives.bind (.now fun _ => rfl)⟩
  | drive computation handler ih =>
    obtain ⟨m, hm, hinner⟩ := hs.inner
    obtain ⟨⟨c₁, w₁⟩, hgives⟩ := ih (htotal.mono hm.le) hinner
    obtain ⟨fuel, hfuel⟩ := hgives.exists_eq
    obtain ⟨k, hk, hs'⟩ := hs.of_rewrites ((rewrites_build (sound_enter code fuel) hfuel).under (.handle handler))
    obtain ⟨reached, hdrive⟩ := gives_drive (htotal.mono hk) hs'
    refine ⟨reached, Gives.congr (hgives.bind (g := fun fuel p =>
      p.1.drive code (enter code fuel) handler p.2) hdrive) fun _ => rfl⟩

end Total

theorem total (code : Code X K σ) (bound : ℕ) : Total code bound := by
  induction bound with
  | zero => exact fun n hn => absurd hn (Nat.not_lt_zero n)
  | succ bound ih =>
    intro n hn built w hs
    obtain ⟨reached, hgives⟩ := gives_build (ih.mono (Nat.le_of_lt_succ hn)) hs
    exact ⟨reached, hgives.later fun _ => rfl⟩

end Blot.Effects
