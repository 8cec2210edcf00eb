import Qdrop.Cli.Waybar
import Qdrop.Clipboard.History
import Qdrop.Control
import Qdrop.Lib.JsonPrint

/-!
# The control socket (`qdropd/src/control.rs`, `qdrop-core/src/control.rs`)

A request and its reply are one line of JSON each.  A line that was printed for a request is decoded to that request,
whatever texts stand in it (`decode_json`), it is one line, and so is the reply (`exchange_eq`): through the socket the
daemon does what it does for the request itself.

The members of a printed object are in the order of their keys, as in a `serde_json::Map`.
-/

namespace Qdrop

open Lib

inductive Request where
  | clipPause
  | clipResume
  | clipStatus
  | status
  | send (paths : List String) (dest : Option String)
  | openUrl (url : String) (dest : Option String)
  | auth (name : String) (mutualAuth : Bool)
  | clipGet
  | clipSet (text : String)
  | clipHistory
  | clipRestore (index : Nat)
  | clipSend (index : Nat) (dest : Option String)
deriving DecidableEq, Repr

namespace Request

/-- Indices are `usize`. -/
def InRange : Request → Prop
  | .clipRestore index | .clipSend index _ => index < 2 ^ 64
  | _ => True

def jsonOption (s : Option String) : Json := (s.map Json.str).getD .null

/-- `serde_json::json!` of the request, as the commands of `qdrop` write it. -/
def json : Request → Json
  | .clipPause => .obj [("cmd", .str "clip_pause")]
  | .clipResume => .obj [("cmd", .str "clip_resume")]
  | .clipStatus => .obj [("cmd", .str "clip_status")]
  | .status => .obj [("cmd", .str "status")]
  | .send paths dest => .obj [("cmd", .str "send"), ("paths", .arr (paths.map Json.str)), ("to", jsonOption dest)]
  | .openUrl url dest => .obj [("cmd", .str "open"), ("to", jsonOption dest), ("url", .str url)]
  | .auth name mutualAuth => .obj [("cmd", .str "auth"), ("mutual", .bool mutualAuth), ("name", .str name)]
  | .clipGet => .obj [("cmd", .str "clip_get")]
  | .clipSet text => .obj [("cmd", .str "clip_set"), ("text", .str text)]
  | .clipHistory => .obj [("cmd", .str "clip_history")]
  | .clipRestore index => .obj [("cmd", .str "clip_restore"), ("index", jsonNumber index)]
  | .clipSend index dest =>
    .obj [("cmd", .str "clip_send"), ("index", jsonNumber index), ("to", jsonOption dest)]

/-! ### Decoding (`#[derive(Deserialize)]`, `#[serde(tag = "cmd", rename_all = "snake_case")]`) -/

/-- What stands beside the tag: the members of an object, or the items of an array, which give the fields in their
order. -/
inductive Content where
  | members (members : List (String × Json))
  | items (items : List Json)

/-- The field `key`, the `i`th one, which may be missing but not stand there twice. -/
def field (c : Content) (i : Nat) (key : String) : Option (Option Json) :=
  match c with
  | .members members =>
    match members.filter (·.1 == key) with
    | [] => some none
    | [m] => some (some m.2)
    | _ => none
  | .items items => some items[i]?

def required {α : Type} (c : Content) (i : Nat) (key : String) (f : Json → Option α) : Option α :=
  (field c i key).bind fun v => v.bind f

/-- `#[serde(default)]` -/
def defaulted {α : Type} (c : Content) (i : Nat) (key : String) (f : Json → Option α) (default : α) : Option α :=
  match field c i key with
  | none => none
  | some none => some default
  | some (some v) => f v

def asOption : Json → Option (Option String)
  | .null => some none
  | .str s => some (some s)
  | _ => none

/-- A `usize`: a number without a fraction or an exponent. -/
def asUsize : Json → Option Nat
  | .num text => (parseNumber text.toList).filter (· < 2 ^ 64)
  | _ => none

def asStrings (v : Json) : Option (List String) := v.asArray.bind fun items => items.mapM Json.asStr

/-- The variant with the tag `cmd`. -/
def decodeVariant (cmd : String) (c : Content) : Option Request :=
  match cmd with
  | "clip_pause" => some .clipPause
  | "clip_resume" => some .clipResume
  | "clip_status" => some .clipStatus
  | "status" => some .status
  | "send" =>
    (required c 0 "paths" asStrings).bind fun paths =>
      (defaulted c 1 "to" asOption none).map fun dest => .send paths dest
  | "open" =>
    (required c 0 "url" Json.asStr).bind fun url =>
      (defaulted c 1 "to" asOption none).map fun dest => .openUrl url dest
  | "auth" =>
    (required c 0 "name" Json.asStr).bind fun name =>
      (defaulted c 1 "mutual" Json.asBool false).map fun mutualAuth => .auth name mutualAuth
  | "clip_get" => some .clipGet
  | "clip_set" => (required c 0 "text" Json.asStr).map .clipSet
  | "clip_history" => some .clipHistory
  | "clip_restore" => (required c 0 "index" asUsize).map .clipRestore
  | "clip_send" =>
    (required c 0 "index" asUsize).bind fun index =>
      (defaulted c 1 "to" asOption none).map fun dest => .clipSend index dest
  | _ => none

/-- The number of fields of the variant. -/
def arity : Request → Nat
  | .send .. | .openUrl .. | .auth .. | .clipSend .. => 2
  | .clipSet _ | .clipRestore _ => 1
  | .clipPause | .clipResume | .clipStatus | .status | .clipGet | .clipHistory => 0

/-- `serde_json::from_str::<Request>`, from the value of the text: an object, or an array that begins with the tag and
has no items to spare. -/
def decode : Json → Option Request
  | .obj members =>
    (required (.members members) 0 "cmd" Json.asStr).bind fun cmd => decodeVariant cmd (.members members)
  | .arr (.str cmd :: items) => (decodeVariant cmd (.items items)).filter fun req => items.length ≤ req.arity
  | _ => none

example : decode (.arr [.str "auth", .str "b"]) = some (.auth "b" false) := by decide

theorem asOption_jsonOption (s : Option String) : asOption (jsonOption s) = some s := by
  cases s <;> rfl

theorem asUsize_jsonNumber {n : Nat} (h : n < 2 ^ 64) : asUsize (jsonNumber n) = some n := by
  rw [jsonNumber, asUsize, parseNumber_toString, Option.filter_some, if_pos (by simpa using h)]

theorem asStrings_map (texts : List String) : asStrings (.arr (texts.map Json.str)) = some texts := by
  have hmap : (texts.map Json.str).mapM Json.asStr = some texts := by
    induction texts with
    | nil => rfl
    | cons t ts ih =>
      rw [List.map_cons, List.mapM_cons, ih]
      rfl
  exact hmap

/-- What is printed for a request is decoded to it. -/
theorem decode_json (req : Request) (h : req.InRange) : decode req.json = some req := by
  cases req with
  | clipRestore index =>
    have hindex := asUsize_jsonNumber h
    simp [decode, decodeVariant, json, required, field, Json.asStr, hindex]
  | clipSend index dest =>
    have hindex := asUsize_jsonNumber h
    simp [decode, decodeVariant, json, required, defaulted, field, Json.asStr, hindex, asOption_jsonOption]
  | send paths dest =>
    simp [decode, decodeVariant, json, required, defaulted, field, Json.asStr, asStrings_map, asOption_jsonOption]
  | openUrl url dest =>
    simp [decode, decodeVariant, json, required, defaulted, field, Json.asStr, asOption_jsonOption]
  | auth name mutualAuth =>
    simp [decode, decodeVariant, json, required, defaulted, field, Json.asStr, Json.asBool]
  | clipSet text => simp [decode, decodeVariant, json, required, field, Json.asStr]
  | _ => rfl

end Request

namespace Control

/-! ### The requests -/

/-- What the handlers share. -/
structure ControlDeps where
  controls : Controls
  bus : Bus
  registry : PeersFile
  /-- There is a clipboard on this host. -/
  hasClipboard : Bool
  history : DiskHistory
  disk : FileSys PathBuf
  ownId : DeviceId
  port : Nat
  version : String
  /-- `state.json`: since when a peer is online, and when it was seen last. -/
  online : DeviceId → Option Nat
  lastSeen : DeviceId → Option Nat

structure SendOutcome where
  name : String
  peer : String
  ok : Bool
  detail : String

/-- What the other subsystems answer, and the texts of the libraries' errors. -/
structure Answers where
  /-- `FileXfer::send`. -/
  send : List String → Option String → List SendOutcome
  /-- `AuthManager::authorize`. -/
  authorize : DeviceId → Bool → Except String String
  /-- `ClipboardHandle::get_text`. -/
  text : Option String
  /-- `format!("{name:?}")`. -/
  debug : String → String
  /-- Why `serde_json` refuses a line. -/
  badRequest : String → String

/-- What a handler makes the other subsystems do. -/
inductive ControlEffect where
  | sendFiles (paths : List String) (dest : Option String)
  | queue (frames : List (DeviceId × Message))
  | applyText (text : String)
  | applyImage (png : Bytes)
  | authorize (peer : DeviceId) (mutualAuth : Bool)
  | sendClipImage (png : Bytes)

structure Handled where
  controls : Controls
  effects : List ControlEffect
  reply : Json

def errorReply (text : String) : Json := .obj [("error", .str text), ("ok", .bool false)]

def okReply : Json := .obj [("ok", .bool true)]

def noClipboard : Json := errorReply "clipboard unavailable on this host"

def noEntry : Json := errorReply "no such history entry"

def SendOutcome.json (o : SendOutcome) : Json :=
  .obj [("detail", .str o.detail), ("name", .str o.name), ("ok", .bool o.ok), ("peer", .str o.peer)]

/-- `Peers::load().unwrap_or_default()`. -/
def ControlDeps.peers (deps : ControlDeps) : Peers :=
  match deps.registry.load with
  | .ok doc => doc
  | .error _ => ⟨[]⟩

def peerJson (deps : ControlDeps) (p : Peer) : Json := .obj [
  ("device_id", .str p.deviceId),
  ("last_seen_unix", jsonSeconds (deps.lastSeen p.deviceId)),
  ("name", .str p.name),
  ("online", .bool (deps.bus.connected.contains p.deviceId)),
  ("since_unix", jsonSeconds (deps.online p.deviceId))]

def statusReply (deps : ControlDeps) (controls : Controls) : Json := .obj [
  ("clipboard_paused", .bool controls.clipboardPaused),
  ("connected", .arr (deps.bus.connected.map Json.str)),
  ("ok", .bool true),
  ("peers", .arr (deps.peers.peers.map (peerJson deps))),
  ("port", jsonNumber deps.port),
  ("sync_images", .bool controls.syncImages),
  ("version", .str deps.version)]

namespace Entry

open DiskHistory

/-- The first characters, on one line. -/
def preview (e : Entry) : String :=
  match e.body with
  | .text text => String.ofList ((text.toList.take 60).map fun c => if c = '\n' then '⏎' else c)
  | .image _ w h => "[image " ++ toString w.toNat ++ "×" ++ toString h.toNat ++ "]"

def kind (e : Entry) : String :=
  match e.body with
  | .text _ => "text"
  | .image .. => "image"

end Entry

/-- The name of the device a history entry comes from. -/
def nameOf (peers : Peers) (origin : String) : String :=
  if origin = "local" then "local"
  else match peers.findById origin with
    | some p => p.name
    | none => String.ofList (origin.toList.take 8)

/-- `History::list`. -/
def historyList (deps : ControlDeps) : List Json :=
  deps.history.entries.zipIdx.map fun (e, i) => .obj [
    ("index", jsonNumber i),
    ("kind", .str (Entry.kind e)),
    ("origin", .str (nameOf deps.peers e.origin)),
    ("preview", .str (Entry.preview e)),
    ("when_unix", jsonNumber e.when.toNat)]

/-- The `Open` arm. -/
def openUrl (deps : ControlDeps) (url : String) (dest : Option String) : Handled :=
  match Qdrop.dispatch deps.bus deps.registry url dest with
  | .ok targets =>
    let frames := deps.bus.handed targets (.openUrl url)
    ⟨deps.controls, [.queue frames], .obj [("dispatched", jsonNumber frames.length), ("ok", .bool true)]⟩
  | .error e => ⟨deps.controls, [], errorReply e⟩

/-- The `ClipRestore` arm. -/
def clipRestore (deps : ControlDeps) (index : Nat) : Handled :=
  match deps.history.get deps.disk index, deps.hasClipboard with
  | some (.text t), true => ⟨deps.controls, [.applyText t], okReply⟩
  | some (.image png), true => ⟨deps.controls, [.applyImage png], okReply⟩
  | none, _ => ⟨deps.controls, [], noEntry⟩
  | some _, false => ⟨deps.controls, [], noClipboard⟩

/-- The `ClipSend` arm; a broadcast counts the connected peers. -/
def clipSend (deps : ControlDeps) (index : Nat) (dest : Option String) : Handled :=
  match deps.history.get deps.disk index with
  | none => ⟨deps.controls, [], noEntry⟩
  | some (.text t) =>
    let frames := deps.bus.handed (clipTargets deps.bus deps.registry dest) (Qdrop.clipSend deps.ownId t)
    let n := match dest with
      | some _ => frames.length
      | none => deps.bus.connected.length
    ⟨deps.controls, [.queue frames], .obj [("ok", .bool (0 < n)), ("sent_to", jsonNumber n)]⟩
  | some (.image png) => ⟨deps.controls, [.sendClipImage png], okReply⟩

/-- The `Auth` arm. -/
def auth (deps : ControlDeps) (answers : Answers) (name : String) (mutualAuth : Bool) : Handled :=
  match resolve deps.registry name with
  | none => ⟨deps.controls, [], errorReply ("no paired peer matching " ++ answers.debug name)⟩
  | some id =>
    match answers.authorize id mutualAuth with
    | .ok host => ⟨deps.controls, [.authorize id mutualAuth], .obj [("hostname", .str host), ("ok", .bool true)]⟩
    | .error e => ⟨deps.controls, [.authorize id mutualAuth], errorReply e⟩

def dispatch (deps : ControlDeps) (answers : Answers) : Request → Handled
  | .clipPause =>
    let controls := { deps.controls with clipboardPaused := true }
    ⟨controls, [], statusReply deps controls⟩
  | .clipResume =>
    let controls := { deps.controls with clipboardPaused := false }
    ⟨controls, [], statusReply deps controls⟩
  | .clipStatus | .status => ⟨deps.controls, [], statusReply deps deps.controls⟩
  | .send paths dest =>
    let outcomes := answers.send paths dest
    let ok := !outcomes.isEmpty && outcomes.all (·.ok)
    ⟨deps.controls, [.sendFiles paths dest], .obj [("ok", .bool ok), ("sent", .arr (outcomes.map SendOutcome.json))]⟩
  | .openUrl url dest => openUrl deps url dest
  | .clipGet =>
    if deps.hasClipboard then
      ⟨deps.controls, [], .obj [("ok", .bool true), ("text", Request.jsonOption answers.text)]⟩
    else ⟨deps.controls, [], noClipboard⟩
  | .clipSet text =>
    if deps.hasClipboard then ⟨deps.controls, [.applyText text], okReply⟩ else ⟨deps.controls, [], noClipboard⟩
  | .clipHistory => ⟨deps.controls, [], .obj [("entries", .arr (historyList deps)), ("ok", .bool true)]⟩
  | .clipRestore index => clipRestore deps index
  | .clipSend index dest => clipSend deps index dest
  | .auth name mutualAuth => auth deps answers name mutualAuth

/-! ### The lines -/

/-- `read_line`: what comes up to a newline, with it. -/
def readLine (stream : List Char) : List Char :=
  match stream.dropWhile (· ≠ '\n') with
  | [] => stream
  | _ :: _ => stream.takeWhile (· ≠ '\n') ++ ['\n']

/-- A JSON text and a newline. -/
def printLine (v : Json) : List Char := v.print ++ ['\n']

/-- What a connection to the socket does: the new switches, the effects, and the bytes written back. -/
def handle (deps : ControlDeps) (answers : Answers) (stream : List Char) :
    Controls × List ControlEffect × List Char :=
  let line := trim (readLine stream)
  if line = [] then (deps.controls, [], [])
  else
    let handled := match (Json.parse (String.ofList line)).bind Request.decode with
      | some req => dispatch deps answers req
      | none => ⟨deps.controls, [], errorReply ("bad request: " ++ answers.badRequest (String.ofList line))⟩
    (handled.controls, handled.effects, printLine handled.reply)

/-- `request_json`, and what it makes the daemon do; `none` is an error of the parser. -/
def requestJson (deps : ControlDeps) (answers : Answers) (req : Json) :
    Controls × List ControlEffect × Option Json :=
  let (controls, effects, resp) := handle deps answers (printLine req)
  (controls, effects, Json.parse (String.ofList (trim (readLine resp))))

/-! ### Replies -/

theorem jsonNumber_numeric (n : Nat) : (jsonNumber n).Numeric := Json.number_toString n

theorem jsonSeconds_numeric (t : Option Nat) : (jsonSeconds t).Numeric := by
  cases t with
  | none => exact trivial
  | some n => exact jsonNumber_numeric n

theorem jsonOption_numeric (s : Option String) : (Request.jsonOption s).Numeric := by
  cases s <;> exact trivial

theorem strings_numeric (texts : List String) : Json.NumericItems (texts.map Json.str) :=
  Json.numericItems_map fun _ _ => trivial

theorem statusReply_numeric (deps : ControlDeps) (controls : Controls) : (statusReply deps controls).Numeric := by
  have hrows : Json.NumericItems (deps.peers.peers.map (peerJson deps)) := Json.numericItems_map fun p _ =>
    ⟨trivial, jsonSeconds_numeric _, trivial, trivial, jsonSeconds_numeric _, trivial⟩
  exact ⟨trivial, strings_numeric _, trivial, hrows, jsonNumber_numeric _, trivial, trivial, trivial⟩

theorem historyList_numeric (deps : ControlDeps) : Json.NumericItems (historyList deps) :=
  Json.numericItems_map fun _ _ => ⟨jsonNumber_numeric _, trivial, trivial, trivial, jsonNumber_numeric _, trivial⟩

/-- Every reply is an object that is printed. -/
theorem dispatch_reply (deps : ControlDeps) (answers : Answers) (req : Request) :
    ∃ members, (dispatch deps answers req).reply = .obj members ∧ (Json.obj members).Numeric := by
  have herror : ∀ text, ∃ members, errorReply text = .obj members ∧ (Json.obj members).Numeric := fun text =>
    ⟨_, rfl, trivial, trivial, trivial⟩
  have hok : ∃ members, okReply = .obj members ∧ (Json.obj members).Numeric := ⟨_, rfl, trivial, trivial⟩
  cases req with
  | clipPause => exact ⟨_, rfl, statusReply_numeric deps _⟩
  | clipResume => exact ⟨_, rfl, statusReply_numeric deps _⟩
  | clipStatus => exact ⟨_, rfl, statusReply_numeric deps _⟩
  | status => exact ⟨_, rfl, statusReply_numeric deps _⟩
  | send paths dest =>
    have hsent : Json.NumericItems ((answers.send paths dest).map SendOutcome.json) := Json.numericItems_map fun _ _ =>
      ⟨trivial, trivial, trivial, trivial, trivial⟩
    exact ⟨_, rfl, trivial, hsent, trivial⟩
  | openUrl url dest =>
    simp only [dispatch, openUrl]
    split
    · exact ⟨_, rfl, jsonNumber_numeric _, trivial, trivial⟩
    · exact herror _
  | auth name mutualAuth =>
    simp only [dispatch, auth]
    split
    · exact herror _
    · split
      · exact ⟨_, rfl, trivial, trivial, trivial⟩
      · exact herror _
  | clipGet =>
    simp only [dispatch]
    split
    · exact ⟨_, rfl, trivial, jsonOption_numeric _, trivial⟩
    · exact herror _
  | clipSet text =>
    simp only [dispatch]
    split
    · exact hok
    · exact herror _
  | clipHistory => exact ⟨_, rfl, historyList_numeric deps, trivial, trivial⟩
  | clipRestore index =>
    simp only [dispatch, clipRestore]
    split
    · exact hok
    · exact hok
    · exact herror _
    · exact herror _
  | clipSend index dest =>
    simp only [dispatch, clipSend]
    split
    · exact herror _
    · exact ⟨_, rfl, trivial, jsonNumber_numeric _, trivial⟩
    · exact hok

/-- Every request is an object that is printed. -/
theorem json_members (req : Request) : ∃ members, req.json = .obj members ∧ (Json.obj members).Numeric := by
  cases req with
  | send paths dest => exact ⟨_, rfl, trivial, strings_numeric _, jsonOption_numeric _, trivial⟩
  | openUrl url dest => exact ⟨_, rfl, trivial, jsonOption_numeric _, trivial, trivial⟩
  | auth name mutualAuth => exact ⟨_, rfl, trivial, trivial, trivial, trivial⟩
  | clipSet text => exact ⟨_, rfl, trivial, trivial, trivial⟩
  | clipRestore index => exact ⟨_, rfl, trivial, jsonNumber_numeric _, trivial⟩
  | clipSend index dest => exact ⟨_, rfl, trivial, jsonNumber_numeric _, jsonOption_numeric _, trivial⟩
  | _ => exact ⟨_, rfl, trivial, trivial⟩

/-! ### Through the socket -/

theorem readLine_line {line : List Char} (h : ∀ c ∈ line, 0x20 ≤ c.toNat) (rest : List Char) :
    readLine (line ++ '\n' :: rest) = line ++ ['\n'] := by
  have hplain : ∀ c ∈ line, (decide (c ≠ '\n')) = true := by
    intro c hc
    have hle := h c hc
    refine decide_eq_true fun hn => ?_
    subst hn
    exact absurd hle (by decide)
  have hdrop : (line ++ '\n' :: rest).dropWhile (· ≠ '\n') = '\n' :: rest := by
    rw [List.dropWhile_append_of_pos hplain]
    rfl
  have htake : (line ++ '\n' :: rest).takeWhile (· ≠ '\n') = line := by
    rw [List.takeWhile_append_of_pos hplain]
    simp
  rw [readLine, hdrop, htake]

/-- A printed object has nothing to trim but the newline. -/
theorem trim_printLine (members : List (String × Json)) :
    trim (printLine (.obj members)) = (Json.obj members).print := by
  have hprint : (Json.obj members).print = '{' :: ([','].intercalate (Json.printMembers members)) ++ ['}'] := by
    rw [Json.print, List.cons_append]
  have hspace : isWhitespace '\n' = true := by decide
  have hbrace : ¬ isWhitespace '}' = true := by decide
  have hopen : ¬ isWhitespace '{' = true := by decide
  rw [printLine, hprint, trim, List.cons_append, List.cons_append, List.dropWhile_cons_of_neg hopen]
  rw [← List.cons_append, ← List.cons_append, List.rdropWhile_concat_pos _ _ _ hspace,
    List.rdropWhile_concat_neg _ _ _ hbrace]

/-- A printed object is parsed from its line. -/
theorem parse_printLine {members : List (String × Json)} (h : (Json.obj members).Numeric) :
    Json.parse (String.ofList (trim (readLine (printLine (.obj members))))) = some (.obj members) := by
  have hline := readLine_line (Json.print_isLine _ h) []
  have hread : readLine (printLine (.obj members)) = printLine (.obj members) := hline
  rw [hread, trim_printLine, Json.parse_print _ h]

/-- A request through the socket is the request itself. -/
theorem requestJson_eq (deps : ControlDeps) (answers : Answers) (req : Request) (h : req.InRange) :
    requestJson deps answers req.json =
      ((dispatch deps answers req).controls, (dispatch deps answers req).effects,
        some (dispatch deps answers req).reply) := by
  obtain ⟨members, hjson, hnumeric⟩ := json_members req
  obtain ⟨fields, hreply, hfields⟩ := dispatch_reply deps answers req
  have hread : readLine (printLine req.json) = printLine req.json :=
    readLine_line (Json.print_isLine _ (hjson ▸ hnumeric)) []
  have hline : trim (readLine (printLine req.json)) = req.json.print := by
    rw [hread, hjson, trim_printLine]
  have hne : req.json.print ≠ [] := by
    rw [hjson, Json.print]
    exact List.cons_ne_nil _ _
  have hparse : (Json.parse (String.ofList req.json.print)).bind Request.decode = some req := by
    rw [Json.parse_print _ (hjson ▸ hnumeric), Option.bind_some, Request.decode_json req h]
  have hhandle : handle deps answers (printLine req.json) =
      ((dispatch deps answers req).controls, (dispatch deps answers req).effects,
        printLine (dispatch deps answers req).reply) := by
    unfold handle
    dsimp only
    rw [hline, if_neg hne, hparse]
  have hresp := parse_printLine hfields
  rw [← hreply] at hresp
  rw [requestJson, hhandle]
  dsimp only
  rw [hresp]

/-- A line that is no request has no effect, and the reply says so. -/
theorem handle_bad (deps : ControlDeps) (answers : Answers) (stream : List Char)
    (hne : trim (readLine stream) ≠ [])
    (h : (Json.parse (String.ofList (trim (readLine stream)))).bind Request.decode = none) :
    ∃ text, handle deps answers stream = (deps.controls, [], printLine (errorReply text)) := by
  unfold handle
  dsimp only
  rw [if_neg hne, h]
  exact ⟨_, rfl⟩

end Control

end Qdrop
