import Blot.Suspension.Interpreter
import Blot.Suspension.Validation

/-!
# What validation establishes

The facts that a validated graph gives the machine, read off the checks once:

* `Graph.Validated` — functions and continuations stand at their ids, entries keep their signatures, and every
  continuation passes `validateContinuation`;
* `declared_inputs` — what is available at the start of a continuation is an input, with its declared representation;
* `fits` — every edge leads to a continuation with as many parameters as the edge has arguments.
-/

namespace Blot.Suspension

open Blot.Hir Blot.Support

variable {graph : Graph} {tables : Tables} {f : Function}

def Function.Declares (f : Function) (value : ValueId) (type : TypeId) : Prop :=
  ∃ c ∈ f.continuations, ∃ d ∈ c.definitions, d.value = value ∧ d.typeId = type

def Function.Fits (f : Function) (edge : Edge) : Prop :=
  ∃ successor, f.continuations[edge.target]? = some successor ∧ successor.parameters.length = edge.arguments.length

structure Function.Validated (graph : Graph) (tables : Tables) (f : Function) (signature : RuntimeSignature)
    (definitions : Definitions) (live : Live) : Prop where
  signed : tables.signatures[f.signature]? = some signature
  entry : ∃ first, f.continuations[f.entry]? = some first ∧ first.captures = [] ∧
    first.parameters.map (·.typeId) = signature.parameters
  defined : f.continuations.zipIdx.foldlM (f.defineAll tables) [] = .ok definitions
  fits : ∀ c ∈ f.continuations, ∀ edge ∈ c.transition.edges, f.Fits edge
  checked : ∀ c ∈ f.continuations, graph.validateContinuation tables f signature definitions live c = .ok ()

def Graph.Validated (graph : Graph) (tables : Tables) : Prop :=
  ∀ (n : ℕ) (f : Function), graph.functions[n]? = some f → f.id = n ∧
    ∃ signature definitions live, f.Validated graph tables signature definitions live

/-! ### The loop of the live values -/

theorem Function.fits_of_visit {state state' : Live × Bool} {c : Continuation} (h : f.visit state c = .ok state')
    {edge : Edge} (he : edge ∈ c.transition.edges) : f.Fits edge := by
  simp only [Function.visit, Function.needed, bind_eq_ok] at h
  obtain ⟨_, ⟨_, hedges, _⟩, _⟩ := h
  obtain ⟨needed, needed', hstep⟩ := step_of_foldlM hedges he
  simp only [Function.neededByEdge, bind_eq_ok, demand_eq_ok, require_eq_ok, beq_iff_eq] at hstep
  obtain ⟨successor, hs, _, hlength, _⟩ := hstep
  exact ⟨successor, hs, hlength⟩

theorem Function.fits_of_settle {rounds : ℕ} {live live' : Live} (h : f.settle rounds live = .ok live')
    {c : Continuation} (hc : c ∈ f.continuations) {edge : Edge} (he : edge ∈ c.transition.edges) : f.Fits edge := by
  cases rounds with
  | zero => cases h
  | succ n =>
    simp only [Function.settle, bind_eq_ok] at h
    obtain ⟨_, hround, _⟩ := h
    obtain ⟨state, state', hvisit⟩ := step_of_foldlM hround (List.mem_reverse.2 hc)
    exact Function.fits_of_visit hvisit he

/-! ### From the checks to the facts -/

theorem Graph.validated_of_validate {rounds : ℕ} (h : graph.validate tables rounds = .ok ()) :
    graph.Validated tables := by
  intro n f hf
  simp only [Graph.validate, bind_eq_ok, each_eq_ok] at h
  obtain ⟨_, _, hfunctions⟩ := h
  have hentry := hfunctions (f, n) (List.mem_zipIdx_iff_getElem?.2 hf)
  simp only [Graph.validateFunction, bind_eq_ok, demand_eq_ok, require_eq_ok, each_eq_ok, beq_iff_eq,
    Bool.and_eq_true, List.isEmpty_iff] at hentry
  obtain ⟨_, hid, _, _, signature, hs, first, hfirst, _, ⟨hcaptures, hparameters⟩, definitions, hd, live, hlive,
    hcontinuations⟩ := hentry
  exact ⟨hid, signature, definitions, live, hs, ⟨first, hfirst, hcaptures, hparameters⟩, hd,
    fun c hc edge he => Function.fits_of_settle hlive hc he, hcontinuations⟩

/-- **A function is found at its id.** -/
theorem Graph.Validated.find_eq (hg : graph.Validated tables) (n : ℕ) :
    graph.functions.find? (·.id == n) = graph.functions[n]? := by
  cases hn : graph.functions[n]? with
  | some f =>
    rw [List.find?_eq_some_iff_getElem]
    obtain ⟨hlt, hget⟩ := List.getElem?_eq_some_iff.1 hn
    refine ⟨beq_iff_eq.2 (hg n f hn).1, n, hlt, hget, fun j hj => ?_⟩
    have := (hg j _ (List.getElem?_eq_getElem (by omega : j < graph.functions.length))).1
    simp only [this, Bool.not_eq_eq_eq_not, Bool.not_true, beq_eq_false_iff_ne]
    omega
  | none =>
    rw [List.find?_eq_none]
    intro f hf
    obtain ⟨i, hi, rfl⟩ := List.mem_iff_getElem.1 hf
    have := (hg i _ (List.getElem?_eq_getElem hi)).1
    have hlen := List.getElem?_eq_none_iff.1 hn
    rw [this, beq_iff_eq]
    omega

/-! ### Definitions -/

theorem Function.define_lookup {definitions definitions' : Definitions} {d : Definition}
    (h : f.define tables definitions d = .ok definitions') {value : ValueId} {o : Definition}
    (ho : definitions'.lookup value = some o) : definitions.lookup value = some o ∨ o = d ∧ d.value = value := by
  simp only [Function.define, bind_eq_ok, require_eq_ok, pure_eq_ok] at h
  obtain ⟨_, _, _, _, _, _, rfl⟩ := h
  rw [Table.lookup_insert] at ho
  split at ho
  · next hv => exact Or.inr ⟨(Option.some.inj ho).symm, hv.symm⟩
  · exact Or.inl ho

theorem Function.defineAll_lookup {definitions definitions' : Definitions} {l : List Definition}
    (h : l.foldlM (f.define tables) definitions = .ok definitions') {value : ValueId} {o : Definition}
    (ho : definitions'.lookup value = some o) :
    definitions.lookup value = some o ∨ ∃ d ∈ l, o = d ∧ d.value = value := by
  induction l generalizing definitions with
  | nil => exact Or.inl (foldlM_nil_eq_ok.1 h ▸ ho)
  | cons d l ih =>
    obtain ⟨next, hd, hl⟩ := foldlM_cons_eq_ok.1 h
    rcases ih hl with hn | ⟨d', hd', he⟩
    · rcases Function.define_lookup hd hn with hn | he
      · exact Or.inl hn
      · exact Or.inr ⟨d, by simp, he⟩
    · exact Or.inr ⟨d', by simp [hd'], he⟩

/-- **What the definitions of a function hold is defined by one of its continuations.** -/
theorem Function.defined_lookup {definitions definitions' : Definitions} {l : List (Continuation × ℕ)}
    (h : l.foldlM (f.defineAll tables) definitions = .ok definitions') {value : ValueId} {o : Definition}
    (ho : definitions'.lookup value = some o) :
    definitions.lookup value = some o ∨ ∃ entry ∈ l, o ∈ entry.1.definitions ∧ o.value = value := by
  induction l generalizing definitions with
  | nil => exact Or.inl (foldlM_nil_eq_ok.1 h ▸ ho)
  | cons entry l ih =>
    obtain ⟨next, hd, hl⟩ := foldlM_cons_eq_ok.1 h
    rcases ih hl with hn | ⟨entry', he', hd'⟩
    · simp only [Function.defineAll, bind_eq_ok, require_eq_ok] at hd
      obtain ⟨_, _, hd⟩ := hd
      rcases Function.defineAll_lookup hd hn with hn | ⟨d, hmem, rfl, hv⟩
      · exact Or.inl hn
      · exact Or.inr ⟨entry, by simp, hmem, hv⟩
    · exact Or.inr ⟨entry', by simp [he'], hd'⟩

theorem Function.Validated.declares {signature : RuntimeSignature} {definitions : Definitions} {live : Live}
    (hf : f.Validated graph tables signature definitions live) {value : ValueId} {o : Definition}
    (ho : definitions.lookup value = some o) : f.Declares value o.typeId := by
  rcases Function.defined_lookup hf.defined ho with h | ⟨entry, hentry, hmem, hv⟩
  · cases h
  · exact ⟨entry.1, List.mem_of_getElem? (List.mem_zipIdx_iff_getElem?.1 hentry), o, hmem, hv, rfl⟩

/-! ### The inputs of a continuation -/

theorem Continuation.declared_inputs {c : Continuation} {definitions : Definitions} {available available' : Available}
    {l : List Definition} (h : l.foldlM (c.declareInput definitions) available = .ok available') :
    (∀ d ∈ l, available.lookup d.value = none) ∧ (l.map (·.value)).Nodup ∧
      ∀ value type, available'.lookup value = some type → available.lookup value = some type ∨
        (∃ d ∈ l, d.value = value ∧ d.typeId = type) ∧
          ∃ o, definitions.lookup value = some o ∧ o.typeId = type := by
  induction l generalizing available with
  | nil => exact ⟨by simp, by simp, fun _ _ hv => Or.inl (foldlM_nil_eq_ok.1 h ▸ hv)⟩
  | cons d l ih =>
    obtain ⟨next, hd, hl⟩ := foldlM_cons_eq_ok.1 h
    simp only [Continuation.declareInput, bind_eq_ok, demand_eq_ok, require_eq_ok, pure_eq_ok, Bool.and_eq_true,
      beq_iff_eq,
      Option.isNone_iff_eq_none] at hd
    obtain ⟨o, ho, _, ⟨hty, _⟩, _, hfresh, rfl⟩ := hd
    obtain ⟨hnot, hnodup, hlookup⟩ := ih hl
    simp only [Table.lookup_insert] at hnot hlookup
    refine ⟨?_, ?_, ?_⟩
    · intro d' hd'
      rcases List.mem_cons.1 hd' with rfl | hd'
      · exact hfresh
      · have := hnot d' hd'
        split at this
        · cases this
        · exact this
    · refine List.nodup_cons.2 ⟨fun hmem => ?_, hnodup⟩
      obtain ⟨d', hd', he⟩ := List.mem_map.1 hmem
      have := hnot d' hd'
      rw [if_pos he] at this
      cases this
    · intro value type hv
      rcases hlookup value type hv with hv | ⟨⟨d', hd', he⟩, ho'⟩
      · split at hv
        · next hvalue =>
          cases hv
          exact Or.inr ⟨⟨d, by simp, hvalue.symm, rfl⟩, o, hvalue ▸ ho, hty⟩
        · exact Or.inl hv
      · exact Or.inr ⟨⟨d', by simp [hd'], he⟩, ho'⟩

end Blot.Suspension
