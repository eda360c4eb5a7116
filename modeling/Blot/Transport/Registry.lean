import Blot.Transport.Frame

/-!
# Modules by number (`wasm.ts`, `host_transport.rs`)

The host names modules to the compiler by numbers that the compiler gives out, and keeps its own table of them.

* `registered_agree` — whatever was registered and whatever failed, the two tables agree and numbers stay.
-/

namespace Blot.Transport

open Blot.Support

/-! ### The compiler -/

/-- `registered_paths` and `path_ids` of a session -/
structure Paths where
  registered : List String
  ids : String → Option ℕ
  few : registered.length < 2 ^ 32
  exact : ∀ path id, ids path = some id ↔ 0 < id ∧ registered[id - 1]? = some path

namespace Paths

def insert (s : Paths) (path : String) (hnew : s.ids path = none) (hfew : s.registered.length + 1 < 2 ^ 32) :
    Paths where
  registered := s.registered ++ [path]
  ids := Function.update s.ids path (some (s.registered.length + 1))
  few := by simpa using hfew
  exact other id := by
    have hexact := s.exact other id
    rw [List.getElem?_append, Function.update_apply]
    by_cases hpath : other = path
    · subst hpath
      rw [hnew] at hexact
      rw [if_pos rfl, Option.some.injEq]
      split
      · grind
      · simp only [List.getElem?_singleton]
        split <;> grind
    · rw [if_neg hpath, hexact]
      split
      · rfl
      · simp only [List.getElem?_singleton]
        split <;> grind

def registeredPath (s : Paths) (id : ℕ) : Except String String :=
  if id = 0 then .error "compiler ABI module ID 0 is invalid"
  else demand s.registered[id - 1]? s!"unknown compiler ABI module ID {id}"

theorem registeredPath_eq_ok {s : Paths} {path : String} {id : ℕ} :
    s.registeredPath id = .ok path ↔ s.ids path = some id := by
  rw [s.exact, registeredPath]
  split <;> simp <;> omega

/-- Paths are only added, behind those there are. -/
def Grows (s s' : Paths) : Prop := s.registered <+: s'.registered

theorem Grows.ids {s s' : Paths} (h : s.Grows s') {path : String} {id : ℕ} (hid : s.ids path = some id) :
    s'.ids path = some id := by
  obtain ⟨more, hmore⟩ := h
  rw [exact] at hid ⊢
  rw [← hmore, List.getElem?_append_left (List.getElem?_eq_some_iff.1 hid.2).1]
  exact hid

end Paths

/-- `register_paths` of a session -/
def registerPaths : List String → Attempt Paths String (List ℕ)
  | [], s => (.ok [], s)
  | path :: rest, s =>
    if path = "" then (.error "compiler ABI path registration cannot contain an empty path", s)
    else
      match h : s.ids path with
      | some id => (registerPaths rest >>= fun ids => pure (id :: ids)) s
      | none =>
        if hfew : s.registered.length + 1 < 2 ^ 32 then
          (registerPaths rest >>= fun ids => pure ((s.registered.length + 1) :: ids)) (s.insert path h hfew)
        else (.error "compiler ABI path registry exhausted u32 IDs", s)

/-- What a session does with a frame of paths (`register_paths` of the transport). -/
def registerFrame (explain : List UInt8 → String) (frame : List UInt8) (fits : frame.length < 2 ^ 32) :
    Attempt Paths String (List UInt8) := fun s =>
  let read : Read (List String) := do
    Decoder.frame
    let count ← Decoder.count "registered path"
    Decoder.times (Decoder.string explain "registered path") count
  match Decoder.whole "ABI" read frame fits with
  | .error message => (.error message, s)
  | .ok paths => (registerPaths paths >>= fun ids => pure (toLeBytes ids.length ++ ids.flatMap toLeBytes)) s

def encodeResponse : Except String (List UInt8) → List UInt8
  | .ok payload => header ++ (toLeBytes 1 ++ encodeBytes payload)
  | .error message => header ++ (toLeBytes 0 ++ encodeString message)

/-! ### The host -/

namespace Host

def u32 (value : ℕ) : Except String (List UInt8) :=
  if value ≤ 0xffffffff then .ok (toLeBytes value) else .error s!"compiler binary u32 cannot encode {value}"

def bytes (value : List UInt8) : Except String (List UInt8) := do
  let length ← u32 value.length
  pure (length ++ value)

/-- A string of the host: its UTF-16 code units, whether or not its surrogates are paired. -/
abbrev Units := List UInt16

/-- A surrogate without its other half. -/
def replacement : Char := '\uFFFD'

/-- The text that a `TextEncoder` encodes: pairs of surrogates are one character, a lone one is replaced. -/
def wellFormed : Units → List Char
  | [] => []
  | [unit] => [if 0xD800 ≤ unit ∧ unit < 0xE000 then replacement else .ofNat unit.toNat]
  | unit :: next :: rest =>
    if 0xD800 ≤ unit ∧ unit < 0xDC00 ∧ 0xDC00 ≤ next ∧ next < 0xE000 then
      .ofNat (0x10000 + (unit.toNat - 0xD800) * 0x400 + (next.toNat - 0xDC00)) :: wellFormed rest
    else (if 0xD800 ≤ unit ∧ unit < 0xE000 then replacement else .ofNat unit.toNat) :: wellFormed (next :: rest)

def text (value : Units) : String := .ofList (wellFormed value)

def string (value : Units) : Except String (List UInt8) := bytes (utf8 (text value))

/-- `BinaryDecoder.u32` -/
def word (label : String) : Read ℕ :=
  Decoder.word s!"compiler binary frame omitted {label}" s!"compiler binary frame omitted {label}"

/-- `BinaryDecoder.bytes` -/
def takeBytes (label : String) : Read (List UInt8) := do
  let length ← word s!"{label} byte length"
  slice length s!"compiler binary frame truncated {label}" s!"compiler binary frame truncated {label}"

/-- A frame is put in the linear memory, where an allocation is at most `isize::MAX` bytes long; a longer one traps. -/
def allocate (frame : List UInt8) : Except String { bytes : List UInt8 // bytes.length < 2 ^ 32 } :=
  if h : frame.length < 2 ^ 31 then .ok ⟨frame, by omega⟩ else .error "unreachable"

/-- Whether a response is one of success, and its payload. -/
def response : Read (ℕ × List UInt8) := do
  let magic ← word "response magic"
  if magic ≠ frameMagic then .stop s!"compiler returned binary frame magic {magic}"
  else do
    let schema ← word "response schema"
    if schema ≠ frameSchema then .stop s!"compiler returned binary frame schema {schema}, expected {frameSchema}"
    else do
      let success ← word "response success"
      let payload ← takeBytes "response payload"
      pure (success, payload)

/-- `#readBinaryResponse`; `decode` is what a `TextDecoder` makes of bytes. -/
def readBinaryResponse (decode : List UInt8 → String) (bytes : List UInt8) (fits : bytes.length < 2 ^ 32) :
    Except String (List UInt8) := do
  let (success, payload) ← Decoder.whole "binary" response bytes fits
  if success = 1 then pure payload else .error (decode payload)

/-- `[...new Set(paths)]` -/
def distinct : List Units → List Units := List.eraseDups

/-- The frame that registers paths. -/
def registration (paths : List Units) : Except String (List UInt8) := do
  let count ← u32 paths.length
  let strings ← collect string paths
  pure (header ++ (count ++ strings.flatten))

end Host

/-! ### Both -/

/-- A host and its session: the table of the host, and the paths of the session. -/
structure Link where
  host : Host.Units → Option ℕ
  guest : Paths

/-- The paths that the host does not know. -/
def Link.missing (link : Link) (paths : List Host.Units) : List Host.Units :=
  Host.distinct (paths.filter fun path => (link.host path).isNone)

/-- A session that was just created. -/
def Link.start : Link := ⟨fun _ => none, ⟨[], fun _ => none, by decide, by simp⟩⟩

/-- The loop over the numbers of a response. -/
def receiveIds : List Host.Units → Decoder → Attempt Link String Decoder
  | [], d, link => (.ok d, link)
  | path :: rest, d, link =>
    match Host.word "registered path ID" d with
    | (.error message, _) => (.error message, link)
    | (.ok id, d) => receiveIds rest d { link with host := Function.update link.host path (some id) }

/-- What the host does with the payload of a response. -/
def receive (missing : List Host.Units) (payload : List UInt8) (fits : payload.length < 2 ^ 32) :
    Attempt Link String Unit :=
  fun link =>
  match Host.word "registered path count" (.start payload fits) with
  | (.error message, _) => (.error message, link)
  | (.ok count, d) =>
    if count ≠ missing.length then
      (.error s!"compiler registered {count} paths for {missing.length} requests", link)
    else
      match receiveIds missing d link with
      | (.error message, link) => (.error message, link)
      | (.ok d, link) => ((Decoder.finish "binary" d).1, link)

section Exchange

variable (explain decode : List UInt8 → String)

/-- The payload of the response to a call, in the memory of the host. -/
def respond (answer : Except String (List UInt8)) : Except String { bytes : List UInt8 // bytes.length < 2 ^ 32 } := do
  let ⟨response, fits⟩ ← Host.allocate (encodeResponse answer)
  let payload ← Host.readBinaryResponse decode response fits
  Host.allocate payload

/-- A frame of paths goes to the session, and the response comes back. -/
def exchange (missing : List Host.Units) : Attempt Link String Unit := fun link =>
  match Host.registration missing >>= Host.allocate with
  | .error message => (.error message, link)
  | .ok ⟨frame, fits⟩ =>
    let (result, guest) := registerFrame explain frame fits link.guest
    match respond decode result with
    | .error message => (.error message, { link with guest })
    | .ok ⟨payload, fits⟩ => receive missing payload fits { link with guest }

def registerCompilerSessionPaths (paths : List Host.Units) : Attempt Link String (List ℕ) := fun link =>
  let missing := link.missing paths
  let (result, link) := if missing ≠ [] then exchange explain decode missing link else (.ok (), link)
  (result >>= fun _ => collect
      (fun path => demand (link.host path) s!"compiler did not register path {Host.text path}") paths, link)

/-- A registration, whatever comes of it. -/
def Registers (link link' : Link) : Prop :=
  ∃ paths, link' = (registerCompilerSessionPaths explain decode paths link).2

end Exchange

/-! ### What a registration does -/

theorem registerPaths_spec {paths : List String} {s s' : Paths} {result : Except String (List ℕ)}
    (h : registerPaths paths s = (result, s')) :
    s.Grows s' ∧ ∀ ids, result = .ok ids → List.Forall₂ (fun path id => s'.ids path = some id) paths ids := by
  induction paths generalizing s s' result with
  | nil =>
    cases h
    exact ⟨List.prefix_refl _, fun ids hids => by cases hids; exact .nil⟩
  | cons path rest ih =>
    -- The number of the path is in the table that the rest starts from.
    have hstep : ∀ {s₁ : Paths} {id : ℕ}, s.Grows s₁ → s₁.ids path = some id →
        (registerPaths rest >>= fun ids => pure (id :: ids)) s₁ = (result, s') →
          s.Grows s' ∧
            ∀ ids, result = .ok ids → List.Forall₂ (fun path id => s'.ids path = some id) (path :: rest) ids := by
      intro s₁ id hgrows hid hrun
      rw [Attempt.bind_run] at hrun
      cases hrest : registerPaths rest s₁ with
      | mk r s₂ =>
        obtain ⟨hgrows', hids⟩ := ih hrest
        rw [hrest] at hrun
        cases r with
        | error e =>
          cases hrun
          exact ⟨hgrows.trans hgrows', fun ids h => by cases h⟩
        | ok ids =>
          cases hrun
          refine ⟨hgrows.trans hgrows', fun ids' h => ?_⟩
          cases h
          exact .cons (hgrows'.ids hid) (hids ids rfl)
    rw [registerPaths] at h
    split at h
    · cases h
      exact ⟨List.prefix_refl _, fun ids h => by cases h⟩
    · split at h
      · next id hid => exact hstep (List.prefix_refl _) hid h
      · next hnew =>
        split at h
        · next hfew =>
          have hgrows : s.Grows (s.insert path hnew hfew) := List.prefix_append _ _
          exact hstep hgrows (Function.update_self ..) h
        · cases h
          exact ⟨List.prefix_refl _, fun ids h => by cases h⟩

/-- A session that has room for them registers paths that are not empty. -/
theorem registerPaths_finishes {paths : List String} {s : Paths} (hpaths : ∀ path ∈ paths, path ≠ "")
    (hroom : s.registered.length + paths.length < 2 ^ 32) : ∃ ids s', registerPaths paths s = (.ok ids, s') := by
  induction paths generalizing s with
  | nil => exact ⟨[], s, rfl⟩
  | cons path rest ih =>
    rw [List.forall_mem_cons] at hpaths
    rw [List.length_cons] at hroom
    rw [registerPaths, if_neg hpaths.1]
    split
    · next id hid =>
      obtain ⟨ids, s', hrest⟩ := ih hpaths.2 (s := s) (by omega)
      exact ⟨id :: ids, s', Attempt.bind_run_ok hrest⟩
    · next hnew =>
      have hlength : (s.insert path hnew (by omega)).registered.length = s.registered.length + 1 := List.length_append
      obtain ⟨ids, s', hrest⟩ := ih hpaths.2 (s := s.insert path hnew (by omega)) (by omega)
      rw [dif_pos (by omega)]
      exact ⟨_, s', Attempt.bind_run_ok hrest⟩

theorem u32_eq_ok {value : ℕ} {code : List UInt8} :
    Host.u32 value = .ok code ↔ value < 2 ^ 32 ∧ code = toLeBytes value := by
  unfold Host.u32
  split <;> grind

theorem bytes_eq_ok {value code : List UInt8} :
    Host.bytes value = .ok code ↔ value.length < 2 ^ 32 ∧ code = encodeBytes value := by
  simp only [Host.bytes, bind_eq_ok, u32_eq_ok, pure_eq_ok]
  constructor
  · rintro ⟨_, ⟨hlength, rfl⟩, rfl⟩
    exact ⟨hlength, rfl⟩
  · rintro ⟨hlength, rfl⟩
    exact ⟨_, ⟨hlength, rfl⟩, rfl⟩

theorem collect_encode {α : Type} {write : α → Except String (List UInt8)} {good : α → Prop} {encode : α → List UInt8}
    (h : ∀ value code, write value = .ok code ↔ good value ∧ code = encode value) {values : List α}
    {codes : List (List UInt8)} :
    collect write values = .ok codes ↔ (∀ value ∈ values, good value) ∧ codes = values.map encode := by
  induction values generalizing codes with
  | nil => simp [collect, eq_comm]
  | cons value values ih =>
    simp only [collect, bind_eq_ok, pure_eq_ok, h, ih, List.forall_mem_cons, List.map_cons]
    constructor
    · rintro ⟨_, ⟨hgood, rfl⟩, _, ⟨hall, rfl⟩, rfl⟩
      exact ⟨⟨hgood, hall⟩, rfl⟩
    · rintro ⟨⟨hgood, hall⟩, rfl⟩
      exact ⟨_, ⟨hgood, rfl⟩, _, ⟨hall, rfl⟩, rfl⟩

theorem text_eq_empty {path : Host.Units} : Host.text path = "" ↔ path = [] := by
  rw [Host.text, String.ofList_eq_empty_iff]
  match path with
  | [] => simp [Host.wellFormed]
  | [unit] => simp [Host.wellFormed]
  | unit :: next :: rest =>
    rw [Host.wellFormed]
    split <;> simp

/-- The frame that registers some paths. -/
def registrationFrame (paths : List String) : List UInt8 :=
  header ++ (toLeBytes paths.length ++ paths.flatMap encodeString)

theorem registration_eq_ok {paths : List Host.Units} {frame : List UInt8} : Host.registration paths = .ok frame ↔
    (paths.length < 2 ^ 32 ∧ ∀ path ∈ paths, (utf8 (Host.text path)).length < 2 ^ 32) ∧
      frame = registrationFrame (paths.map Host.text) := by
  have hstrings : ∀ codes, collect Host.string paths = .ok codes ↔
      (∀ path ∈ paths, (utf8 (Host.text path)).length < 2 ^ 32) ∧
        codes = paths.map fun path => encodeString (Host.text path) :=
    fun _ => collect_encode fun _ _ => bytes_eq_ok
  simp only [Host.registration, bind_eq_ok, u32_eq_ok, pure_eq_ok, hstrings, registrationFrame, List.flatMap_def,
    List.length_map, List.map_map, Function.comp_def]
  constructor
  · rintro ⟨_, ⟨hcount, rfl⟩, _, ⟨hall, rfl⟩, rfl⟩
    exact ⟨⟨hcount, hall⟩, rfl⟩
  · rintro ⟨⟨hcount, hall⟩, rfl⟩
    exact ⟨_, ⟨hcount, rfl⟩, _, ⟨hall, rfl⟩, rfl⟩

section Exchange

variable {explain decode : List UInt8 → String} {missing : List Host.Units} {link link' : Link}

theorem takes_registration (explain : List UInt8 → String) : Takes (do
    Decoder.frame
    let count ← Decoder.count "registered path"
    Decoder.times (Decoder.string explain "registered path") count) fun paths code =>
      (paths.length ≤ maxRecords ∧ ∀ path ∈ paths, (utf8 path).length < 2 ^ 32) ∧ code = registrationFrame paths := by
  refine (takes_frame.bind fun _ => (takes_count "registered path").bind fun n =>
    takes_times (takes_string explain "registered path") n).congr fun paths code => ?_
  constructor
  · rintro ⟨_, _, _, rfl, ⟨_, _, _, ⟨hmax, rfl⟩, ⟨rfl, hall, rfl⟩, rfl⟩, rfl⟩
    exact ⟨⟨hmax, hall⟩, rfl⟩
  · rintro ⟨⟨hmax, hall⟩, rfl⟩
    exact ⟨(), _, _, rfl, ⟨_, _, _, ⟨hmax, rfl⟩, ⟨rfl, hall, rfl⟩, rfl⟩, rfl⟩

/-- A session refuses the frame that registers some paths, or registers these. -/
theorem registerFrame_cases (explain : List UInt8 → String) {frame : List UInt8} (fits : frame.length < 2 ^ 32)
    (h : Host.registration missing = .ok frame) (s : Paths) :
    (missing.length ≤ maxRecords ∨ ∃ message, registerFrame explain frame fits s = (.error message, s)) ∧
      (missing.length ≤ maxRecords → registerFrame explain frame fits s =
        (registerPaths (missing.map Host.text) >>= fun ids =>
          pure (toLeBytes ids.length ++ ids.flatMap toLeBytes)) s) := by
  obtain ⟨⟨hcount, hall⟩, rfl⟩ := registration_eq_ok.1 h
  rw [← List.length_map Host.text] at hcount ⊢
  replace hall : ∀ path ∈ missing.map Host.text, (utf8 path).length < 2 ^ 32 := List.forall_mem_map.2 hall
  constructor
  · rw [registerFrame]
    split
    · next message _ => exact .inr ⟨message, rfl⟩
    · next paths hpaths =>
      obtain ⟨⟨hmax, -⟩, heq⟩ := (takes_registration explain).whole.1 hpaths
      -- The frame says how many paths it registers.
      have hnumber := (List.append_inj (List.append_cancel_left heq) rfl).1
      have hlength := (fromLeBytes_eq_iff rfl).2 ⟨Nat.lt_of_le_of_lt hmax (by decide), rfl⟩
      rw [← hnumber, (fromLeBytes_eq_iff rfl).2 ⟨hcount, rfl⟩] at hlength
      exact .inl (hlength ▸ hmax)
  · intro hmax
    rw [registerFrame, (takes_registration explain).whole.2 ⟨⟨hmax, hall⟩, rfl⟩]

theorem registerFrame_spec {frame : List UInt8} {fits : frame.length < 2 ^ 32} {s s' : Paths}
    {result : Except String (List UInt8)} (h : Host.registration missing = .ok frame)
    (hrun : registerFrame explain frame fits s = (result, s')) : s.Grows s' ∧ ∀ payload, result = .ok payload →
      ∃ ids, payload = toLeBytes ids.length ++ ids.flatMap toLeBytes ∧ ids.length < 2 ^ 32 ∧
        List.Forall₂ (fun path id => s'.ids (Host.text path) = some id) missing ids := by
  obtain ⟨hcases, hregister⟩ := registerFrame_cases explain fits h s
  by_cases hmax : missing.length ≤ maxRecords
  · rw [hregister hmax, Attempt.bind_run] at hrun
    cases hpaths : registerPaths (missing.map Host.text) s with
    | mk r s₁ =>
      obtain ⟨hgrows, hids⟩ := registerPaths_spec hpaths
      simp only [List.forall₂_map_left_iff] at hids
      rw [hpaths] at hrun
      cases r with
      | error e =>
        cases hrun
        exact ⟨hgrows, fun payload h => by cases h⟩
      | ok ids =>
        cases hrun
        have hlength : ids.length < 2 ^ 32 := (hids ids rfl).length_eq ▸ Nat.lt_of_le_of_lt hmax (by decide)
        exact ⟨hgrows, fun payload h => by cases h; exact ⟨ids, rfl, hlength, hids ids rfl⟩⟩
  · obtain ⟨message, hmessage⟩ := hcases.resolve_left hmax
    rw [hmessage] at hrun
    cases hrun
    exact ⟨List.prefix_refl _, fun payload h => by cases h⟩

theorem takes_hostWord (label : String) : Takes (Host.word label) fun value code =>
    value < 2 ^ 32 ∧ code = toLeBytes value :=
  takes_word _ _

theorem takes_response : Takes Host.response fun value code =>
    (value.1 < 2 ^ 32 ∧ value.2.length < 2 ^ 32) ∧ code = header ++ (toLeBytes value.1 ++ encodeBytes value.2) := by
  refine ((takes_hostWord _).guard fun _ => (takes_hostWord _).guard fun _ => (takes_hostWord _).bind fun success =>
    ((takes_hostWord _).prefixed _ _).bind fun payload => takes_pure (success, payload)).congr fun value code => ?_
  constructor
  · rintro ⟨magic, _, _, ⟨_, rfl⟩, ⟨hmagic, schema, _, _, ⟨_, rfl⟩, ⟨hschema, success, _, _, ⟨hsuccess, rfl⟩,
      ⟨payload, _, _, ⟨hpayload, rfl⟩, ⟨rfl, rfl⟩, rfl⟩, rfl⟩, rfl⟩, rfl⟩
    rw [not_not.1 hmagic, not_not.1 hschema, List.append_nil, header, List.append_assoc]
    exact ⟨⟨hsuccess, hpayload⟩, rfl⟩
  · rintro ⟨⟨hsuccess, hpayload⟩, rfl⟩
    rw [header, List.append_assoc]
    exact ⟨frameMagic, _, _, ⟨by decide, rfl⟩, ⟨not_not.2 rfl, frameSchema, _, _, ⟨by decide, rfl⟩,
      ⟨not_not.2 rfl, _, _, _, ⟨hsuccess, rfl⟩, ⟨_, _, [], ⟨hpayload, rfl⟩, ⟨rfl, rfl⟩, rfl⟩,
        by rw [List.append_nil]⟩, rfl⟩, rfl⟩

theorem readBinaryResponse_eq {answer : Except String (List UInt8)} {bytes : List UInt8} {fits : bytes.length < 2 ^ 32}
    (h : bytes = encodeResponse answer) : Host.readBinaryResponse decode bytes fits =
      match answer with
      | .ok payload => .ok payload
      | .error message => .error (decode (utf8 message)) := by
  have hread : ∀ flag payload, flag ≤ 1 → bytes = header ++ (toLeBytes flag ++ encodeBytes payload) →
      Decoder.whole "binary" Host.response bytes fits = .ok (flag, payload) := by
    intro flag payload hflag hbytes
    refine takes_response.whole.2 ⟨⟨Nat.lt_of_le_of_lt hflag (by decide), ?_⟩, hbytes⟩
    change payload.length < 2 ^ 32
    rw [hbytes] at fits
    simp only [encodeBytes, List.length_append] at fits
    omega
  cases answer with
  | ok payload =>
    rw [Host.readBinaryResponse, hread 1 payload (Nat.le_refl 1) h]
    rfl
  | error message =>
    rw [Host.readBinaryResponse, hread 0 (utf8 message) (Nat.zero_le 1) h]
    rfl

theorem receiveIds_eq (host : Host.Units → Option ℕ) {guest : Paths} {ids : List ℕ} {d : Decoder}
    (h : List.Forall₂ (fun path id => guest.ids (Host.text path) = some id) missing ids)
    (hahead : d.ahead = ids.flatMap toLeBytes) :
    ∃ host' d', receiveIds missing d ⟨host, guest⟩ = (.ok d', ⟨host', guest⟩) ∧ d'.ahead = [] ∧
      ∀ path, host' path = if path ∈ missing then guest.ids (Host.text path) else host path := by
  induction h generalizing d host with
  | nil => exact ⟨host, d, rfl, hahead, fun path => by simp⟩
  | @cons path id missing ids hid _ ih =>
    have hsmall : id < 2 ^ 32 := by
      have := guest.few
      have := (List.getElem?_eq_some_iff.1 ((guest.exact _ id).1 hid).2).1
      omega
    rw [List.flatMap_cons] at hahead
    obtain ⟨d₁, hrun, -, hrest⟩ := (takes_hostWord "registered path ID").run ⟨hsmall, rfl⟩ hahead
    obtain ⟨host', d', hreceive, hend, hhost⟩ := ih (Function.update host path (some id)) hrest
    refine ⟨host', d', ?_, hend, fun other => ?_⟩
    · rw [receiveIds, hrun]
      exact hreceive
    · simp only [hhost, List.mem_cons, Function.update_apply]
      by_cases hother : other = path <;> simp_all

theorem receive_eq (host : Host.Units → Option ℕ) {guest : Paths} {ids : List ℕ} {payload : List UInt8}
    (fits : payload.length < 2 ^ 32) (hpayload : payload = toLeBytes ids.length ++ ids.flatMap toLeBytes)
    (hsmall : ids.length < 2 ^ 32)
    (h : List.Forall₂ (fun path id => guest.ids (Host.text path) = some id) missing ids) :
    ∃ host', receive missing payload fits ⟨host, guest⟩ = (.ok (), ⟨host', guest⟩) ∧
      ∀ path, host' path = if path ∈ missing then guest.ids (Host.text path) else host path := by
  obtain ⟨d, hword, -, hrest⟩ := (takes_hostWord "registered path count").run (d := .start payload fits) ⟨hsmall, rfl⟩
    hpayload
  obtain ⟨host', d', hreceive, hend, hhost⟩ := receiveIds_eq host h hrest
  have hlast : d'.offset = d'.bytes.length := by
    have := List.drop_eq_nil_iff.1 hend
    have := d'.within
    omega
  refine ⟨host', ?_, hhost⟩
  rw [receive, hword]
  dsimp only
  rw [if_neg (not_not.2 h.length_eq.symm), hreceive]
  dsimp only
  rw [Decoder.finish, if_neg (not_not.2 hlast)]

/-- What a link keeps: what the host knows is what the session gave out. -/
def Link.Agrees (link : Link) : Prop :=
  ∀ path id, link.host path = some id → link.guest.ids (Host.text path) = some id

/-- The tables only grow. -/
def Link.Grows (link link' : Link) : Prop :=
  (∀ path id, link.host path = some id → link'.host path = some id) ∧ link.guest.Grows link'.guest

theorem allocate_eq_ok {bytes : List UInt8} {memory : { bytes : List UInt8 // bytes.length < 2 ^ 32 }} :
    Host.allocate bytes = .ok memory ↔ bytes = memory.1 ∧ bytes.length < 2 ^ 31 := by
  unfold Host.allocate
  split <;> grind

theorem respond_eq_ok {answer : Except String (List UInt8)} {memory : { bytes : List UInt8 // bytes.length < 2 ^ 32 }} :
    respond decode answer = .ok memory ↔ answer = .ok memory.1 ∧ (encodeResponse answer).length < 2 ^ 31 := by
  simp only [respond, bind_eq_ok, allocate_eq_ok]
  constructor
  · rintro ⟨⟨response, _⟩, ⟨hresponse, fits⟩, payload, hread, rfl, _⟩
    rw [readBinaryResponse_eq hresponse.symm] at hread
    cases answer with
    | error message => cases hread
    | ok sent => exact ⟨hread, fits⟩
  · rintro ⟨rfl, fits⟩
    have hshorter : memory.1.length < 2 ^ 31 := by
      simp only [encodeResponse, encodeBytes, List.length_append] at fits
      omega
    have hwhole := Nat.lt_trans fits (by decide : 2 ^ 31 < 2 ^ 32)
    exact ⟨⟨_, hwhole⟩, ⟨rfl, fits⟩, _, @readBinaryResponse_eq decode (.ok memory.1) _ hwhole rfl, rfl, hshorter⟩

/-- What an exchange does, whether or not it succeeds. -/
theorem exchange_spec (h : link.Agrees) (hmissing : ∀ path ∈ missing, link.host path = none)
    {result : Except String Unit}
    (hrun : exchange explain decode missing link = (result, link')) : link'.Agrees ∧ link.Grows link' := by
  unfold exchange at hrun
  split at hrun
  · cases hrun
    exact ⟨h, fun _ _ => id, List.prefix_refl _⟩
  · next frame fits hframe =>
    obtain ⟨_, hregistration, hallocate⟩ := bind_eq_ok.1 hframe
    rw [(allocate_eq_ok.1 hallocate).1] at hregistration
    cases hguest : registerFrame explain frame fits link.guest with
    | mk answer guest =>
      obtain ⟨hgrows, hanswer⟩ := registerFrame_spec hregistration hguest
      have hkept : ∀ {path id}, link.host path = some id → guest.ids (Host.text path) = some id :=
        fun hid => hgrows.ids (h _ _ hid)
      rw [hguest] at hrun
      dsimp only at hrun
      split at hrun
      · cases hrun
        exact ⟨fun _ _ => hkept, fun _ _ => id, hgrows⟩
      · next payload fits' htrip =>
        obtain ⟨ids, hsent, hsmall, hids⟩ := hanswer _ (respond_eq_ok.1 htrip).1
        obtain ⟨host, hreceive, hhost⟩ := receive_eq link.host fits' hsent hsmall hids
        cases hreceive.symm.trans hrun
        refine ⟨fun path id hid => ?_, fun path id hid => ?_, hgrows⟩
        · change host path = some id at hid
          rw [hhost] at hid
          split at hid
          · exact hid
          · exact hkept hid
        · change host path = some id
          rw [hhost, if_neg fun hmem => by simp [hmissing path hmem] at hid]
          exact hid

theorem mem_missing {paths : List Host.Units} {path : Host.Units} :
    path ∈ link.missing paths ↔ path ∈ paths ∧ link.host path = none := by
  rw [Link.missing, Host.distinct, List.mem_eraseDups, List.mem_filter, Option.isNone_iff_eq_none]

theorem register_spec (h : link.Agrees) (paths : List Host.Units) {result : Except String (List ℕ)}
    (hrun : registerCompilerSessionPaths explain decode paths link = (result, link')) :
    link'.Agrees ∧ link.Grows link' ∧ ∀ ids, result = .ok ids →
      List.Forall₂ (fun path id => link'.host path = some id) paths ids := by
  cases hstep : (if link.missing paths ≠ [] then exchange explain decode (link.missing paths) link
      else (.ok (), link)) with
  | mk r l =>
    rw [registerCompilerSessionPaths, hstep] at hrun
    cases hrun
    have hboth : link'.Agrees ∧ link.Grows link' := by
      split at hstep
      · exact exchange_spec h (fun path hpath => (mem_missing.1 hpath).2) hstep
      · cases hstep
        exact ⟨h, fun _ _ => id, List.prefix_refl _⟩
    refine ⟨hboth.1, hboth.2, fun ids hids => ?_⟩
    obtain ⟨_, _, hids⟩ := bind_eq_ok.1 hids
    exact (collect_eq_ok.1 hids).imp fun _ _ => demand_eq_ok.1

theorem registration_finishes (h : (registrationFrame (missing.map Host.text)).length < 2 ^ 31)
    (hmax : missing.length ≤ maxRecords) :
    Host.registration missing = .ok (registrationFrame (missing.map Host.text)) := by
  refine registration_eq_ok.2 ⟨⟨Nat.lt_of_le_of_lt hmax (by decide), fun path hpath => ?_⟩, rfl⟩
  obtain ⟨before, after, rfl⟩ := List.append_of_mem hpath
  simp only [registrationFrame, List.map_append, List.map_cons, List.flatMap_append, List.flatMap_cons, encodeString,
    encodeBytes, List.length_append] at h
  omega

theorem length_flatMap_toLeBytes (ids : List ℕ) : (ids.flatMap toLeBytes).length = 4 * ids.length := by
  induction ids with
  | nil => rfl
  | cons id ids ih =>
    rw [List.flatMap_cons, List.length_append, ih, List.length_cons]
    change 4 + _ = _
    omega

theorem exchange_finishes (hpaths : ∀ path ∈ missing, path ≠ []) (hmax : missing.length ≤ maxRecords)
    (hroom : link.guest.registered.length + missing.length < 2 ^ 32)
    (hfits : (registrationFrame (missing.map Host.text)).length < 2 ^ 31) :
    ∃ link', exchange explain decode missing link = (.ok (), link') ∧
      ∀ path, link'.host path = none → path ∉ missing ∧ link.host path = none := by
  have hregistration := registration_finishes hfits hmax
  have hmemory : Host.allocate (registrationFrame (missing.map Host.text)) =
      .ok ⟨registrationFrame (missing.map Host.text), Nat.lt_trans hfits (by decide)⟩ := allocate_eq_ok.2 ⟨rfl, hfits⟩
  obtain ⟨ids, guest, hregister⟩ := registerPaths_finishes
    (List.forall_mem_map.2 fun path hpath => mt text_eq_empty.1 (hpaths path hpath)) (by rwa [List.length_map])
  obtain ⟨-, hids⟩ := registerPaths_spec hregister
  simp only [List.forall₂_map_left_iff] at hids
  have hguest := (registerFrame_cases explain (by omega) hregistration link.guest).2 hmax
  rw [Attempt.bind_run_ok hregister] at hguest
  obtain ⟨payload, hpayload⟩ : ∃ payload, payload = toLeBytes ids.length ++ ids.flatMap toLeBytes := ⟨_, rfl⟩
  have hsmall : ids.length ≤ 1000000 := (hids ids rfl).length_eq ▸ hmax
  have hlength : payload.length = 4 + 4 * ids.length := by
    rw [hpayload, List.length_append, length_flatMap_toLeBytes]
    rfl
  have hresponse : (encodeResponse (.ok payload)).length = 16 + payload.length := by
    simp only [encodeResponse, encodeBytes, List.length_append]
    change 8 + (4 + (4 + _)) = _
    omega
  obtain ⟨host, hreceive, hhost⟩ := receive_eq link.host (by omega) hpayload (by omega) (hids ids rfl)
  have htrip : respond decode (.ok payload) = .ok ⟨payload, by omega⟩ := respond_eq_ok.2 ⟨rfl, by omega⟩
  refine ⟨⟨host, guest⟩, ?_, fun path hpath => ?_⟩
  · rw [exchange, hregistration, ok_bind, hmemory]
    dsimp only
    rw [hguest, Attempt.pure_run, ← hpayload]
    dsimp only
    rw [htrip]
    exact hreceive
  · change host path = none at hpath
    rw [hhost] at hpath
    split at hpath
    · next hmem =>
      obtain ⟨id, -, hid⟩ := exists_right_of_forall₂ (hids ids rfl) hmem
      simp [hid] at hpath
    · next hmem => exact ⟨hmem, hpath⟩

/-- What has to be there for a registration: names, numbers for them, and room. -/
structure Link.Admits (link : Link) (missing : List Host.Units) : Prop where
  named : ∀ path ∈ missing, path ≠ []
  few : missing.length ≤ maxRecords
  numbers : link.guest.registered.length + missing.length < 2 ^ 32
  fits : (registrationFrame (missing.map Host.text)).length < 2 ^ 31

theorem register_finishes (explain decode : List UInt8 → String) {paths : List Host.Units}
    (h : link.Admits (link.missing paths)) :
    ∃ ids, (registerCompilerSessionPaths explain decode paths link).1 = .ok ids := by
  obtain ⟨link', hstep, hhost⟩ : ∃ link', (if link.missing paths ≠ [] then
      exchange explain decode (link.missing paths) link else (.ok (), link)) = (.ok (), link') ∧
        ∀ path, link'.host path = none → path ∉ link.missing paths ∧ link.host path = none := by
    split
    · exact exchange_finishes h.named h.few h.numbers h.fits
    · next hnone => exact ⟨link, rfl, fun path hpath => ⟨by simp [not_not.1 hnone], hpath⟩⟩
  rw [registerCompilerSessionPaths, hstep]
  refine collect_of_forall fun path hpath => ?_
  cases hid : link'.host path with
  | none => exact absurd (mem_missing.2 ⟨hpath, (hhost path hid).2⟩) (hhost path hid).1
  | some id => exact ⟨id, rfl⟩

end Exchange

/-- **The tables of the host and of the session agree**, whatever was registered and whatever failed: a number that the
host knows stays, and the session has its path there; a registration that has room succeeds, with such numbers. -/
theorem registered_agree (explain decode : List UInt8 → String) {link link' : Link}
    (hlink : Relation.ReflTransGen (Registers explain decode) .start link)
    (hlater : Relation.ReflTransGen (Registers explain decode) link link') :
    (∀ path id, link.host path = some id →
        link'.host path = some id ∧ link'.guest.registeredPath id = .ok (Host.text path)) ∧
      ∀ paths result last, registerCompilerSessionPaths explain decode paths link' = (result, last) →
        (∀ ids, result = .ok ids →
          List.Forall₂ (fun path id => last.guest.registeredPath id = .ok (Host.text path)) paths ids) ∧
          (link'.Admits (link'.missing paths) → ∃ ids, result = .ok ids) := by
  have hagrees : ∀ {link}, Relation.ReflTransGen (Registers explain decode) .start link → link.Agrees := by
    intro link h
    induction h with
    | refl => exact fun _ _ h => by cases h
    | tail _ hstep ih =>
      obtain ⟨paths, rfl⟩ := hstep
      exact (register_spec ih paths rfl).1
  have hgrows : link.Grows link' := by
    induction hlater with
    | refl => exact ⟨fun _ _ => id, List.prefix_refl _⟩
    | tail hreach hstep ih =>
      obtain ⟨paths, rfl⟩ := hstep
      obtain ⟨-, hgrows, -⟩ := register_spec (hagrees (hlink.trans hreach)) paths rfl
      exact ⟨fun path id h => hgrows.1 path id (ih.1 path id h), ih.2.trans hgrows.2⟩
  refine ⟨fun path id hid => ?_, fun paths result last hrun => ⟨fun ids hids => ?_, fun hadmits => ?_⟩⟩
  · exact ⟨hgrows.1 path id hid, Paths.registeredPath_eq_ok.2 (hgrows.2.ids (hagrees hlink path id hid))⟩
  · obtain ⟨hlast, -, hall⟩ := register_spec (hagrees (hlink.trans hlater)) paths hrun
    exact (hall ids hids).imp fun path id hid => Paths.registeredPath_eq_ok.2 (hlast path id hid)
  · obtain ⟨ids, hids⟩ := register_finishes explain decode hadmits
    exact ⟨ids, (congrArg Prod.fst hrun).symm.trans hids⟩

/-- The code units of a text in ASCII. -/
def ascii (text : String) : Host.Units := text.toList.map fun c => .ofNat c.toNat

/-- A host that registered a module. -/
def Link.started : Link :=
  (registerCompilerSessionPaths (fun _ => "") (fun code => (fromUtf8 code).getD "") [ascii "a.blot"] .start).2

/-- The same, after it tried an empty path. -/
def Link.retried : Link :=
  (registerCompilerSessionPaths (fun _ => "") (fun code => (fromUtf8 code).getD "") [[]] .started).2

/-- A module keeps its number when an empty path is refused after it, and a path that is a lone surrogate gets one under
which the session has the character that replaces it. -/
theorem registered_agree_module :
    Link.retried.host (ascii "a.blot") = some 1 ∧ Link.retried.guest.registeredPath 1 = .ok "a.blot" ∧
      Host.text [0xD800] = "\uFFFD" ∧
      ∃ ids last, registerCompilerSessionPaths (fun _ => "") (fun code => (fromUtf8 code).getD "")
        [[0xD800], ascii "a.blot"] .retried = (.ok ids, last) ∧
        List.Forall₂ (fun path id => last.guest.registeredPath id = .ok (Host.text path))
          [[0xD800], ascii "a.blot"] ids := by
  obtain ⟨hkept, hall⟩ := registered_agree (fun _ => "") (fun code => (fromUtf8 code).getD "")
    (.single ⟨[ascii "a.blot"], rfl⟩ : Relation.ReflTransGen _ .start Link.started)
    (.single ⟨[[]], rfl⟩ : Relation.ReflTransGen _ _ Link.retried)
  obtain ⟨hsame, hregistered⟩ := hkept (ascii "a.blot") 1 (by decide)
  obtain ⟨hids, hfinishes⟩ := hall [[0xD800], ascii "a.blot"] _ _ rfl
  obtain ⟨ids, hok⟩ := hfinishes ⟨by decide, by decide, by decide, by decide⟩
  exact ⟨hsame, hregistered, rfl, ids, _, Prod.ext hok rfl, hids ids hok⟩

end Blot.Transport
