import Qdrop.Control.Requests
import Qdrop.Lib.JsonPretty

/-!
# The subcommands that ask the daemon (`qdrop/src/main.rs`)

A subcommand is a dialog: requests, each with what is done with the reply, and in the end what was printed and why it
failed.  `command_over_socket` says that a subcommand prints, fails and moves the daemon through the control socket as
it would if it called the daemon's request handlers itself, whatever the daemon's state is at each of its requests.
`qdrop doctor`, which asks for the status among its other checks, is left out.
-/

namespace Qdrop

open Lib Lib.Json Control

/-- What a subcommand leaves behind. -/
structure Printed where
  out : List String
  err : List String
  /-- The error `main` returns. -/
  failed : Option String
deriving DecidableEq, Repr

namespace Printed

def ok (out : List String) : Printed := ⟨out, [], none⟩

def bail (error : String) : Printed := ⟨[], [], some error⟩

end Printed

inductive Dialog where
  | done (printed : Printed)
  /-- `println!`, before a request. -/
  | say (lines : List String) (next : Dialog)
  | ask (req : Request) (next : Json → Dialog)

/-! ### Reading replies -/

def getBool (v : Json) (key : String) : Bool := ((v.get? key).bind asBool).getD false

def getStr (v : Json) (key default : String) : String := ((v.get? key).bind asStr).getD default

def getArray (v : Json) (key : String) : List Json := ((v.get? key).bind asArray).getD []

/-- `as_u64`, or zero. -/
def getNumber (v : Json) (key : String) : Nat := ((v.get? key).bind Request.asUsize).getD 0

def println (line : String) : String := line ++ "\n"

/-- `{:<n}`. -/
def padRight (n : Nat) (s : String) : String := s ++ String.ofList (List.replicate (n - s.length) ' ')

/-- `{:>n}`. -/
def padLeft (n : Nat) (s : String) : String := String.ofList (List.replicate (n - s.length) ' ') ++ s

def bailReply (resp : Json) : Printed := .bail (getStr resp "error" "failed")

/-- `json_ok`. -/
def jsonOk (resp : Json) (msg : String) : Printed := if getBool resp "ok" then .ok [println msg] else bailReply resp

/-! ### The subcommands -/

def cmdPaste : Dialog := .ask .clipGet fun resp => .done <|
  if getBool resp "ok" then .ok ((resp.get? "text").bind asStr).toList else bailReply resp

def cmdCopy (quiet : Bool) (text : String) : Dialog := .ask (.clipSet text) fun resp => .done <|
  if getBool resp "ok" then
    ⟨[], if quiet then [] else [println s!"Copied {text.utf8ByteSize} bytes to the shared clipboard."], none⟩
  else bailReply resp

/-- `debug` is `format!("{url:?}")`. -/
def cmdOpen (debug : String → String) (url : String) (dest : Option String) : Dialog :=
  if isAllowedUrl url then
    .ask (.openUrl url dest) fun resp => .done <|
      let n := getNumber resp "dispatched"
      if getBool resp "ok" then .ok [println s!"Opened on {n} peer(s)."] else bailReply resp
  else
    .done (.bail ("refusing " ++ debug url ++ ": only " ++ ", ".intercalate urlSchemeAllowlist ++ " URLs are allowed"))

/-- `qdrop auth <name>`. -/
def cmdAuth (name : String) (mutualAuth : Bool) : Dialog := .ask (.auth name mutualAuth) fun resp => .done <|
  let host := getStr resp "hostname" "?"
  if getBool resp "ok" then
    .ok (println s!"Authorized {name} ({host}) — it can now send here unattended." ::
      if mutualAuth then [println s!"Asked {name} to authorize this machine back."] else [])
  else bailReply resp

/-- The line of one outcome. -/
def outcomeLine (s : Json) : String :=
  let name := getStr s "name" "?"
  let peer := getStr s "peer" "?"
  let detail := getStr s "detail" ""
  if getBool s "ok" then println s!"  ✓ {name} → {peer}" else println s!"  ✗ {name} → {peer}: {detail}"

/-- `cmd_send` from the absolute paths on. -/
def cmdSend (quiet : Bool) (paths : List String) (dest : Option String) : Dialog :=
  let target := (dest.map (" to " ++ ·)).getD ""
  .say (if quiet then [] else [println s!"Sending {paths.length} file(s){target}..."]) <|
    .ask (.send paths dest) fun resp => .done <|
      match (resp.get? "sent").bind asArray, (resp.get? "error").bind asStr with
      | some sent, _ =>
        let good := sent.filter (getBool · "ok")
        let bad := sent.filter fun s => !getBool s "ok"
        ⟨if quiet then [] else good.map outcomeLine, bad.map outcomeLine,
          if bad.isEmpty then none else some "one or more transfers failed"⟩
      | none, some error => .bail error
      | none, none => .ok []

inductive ClipAction where
  | pause
  | resume
  | toggle
  | status
  | history
  | restore (n : Nat)
  | send (n : Nat)
deriving DecidableEq, Repr

def historyLine (e : Json) : String :=
  println (padLeft 3 (toString (getNumber e "index")) ++ "  " ++ padRight 5 (getStr e "kind" "?") ++ "  " ++
    padRight 28 (getStr e "preview" "") ++ "  " ++ getStr e "origin" "")

/-- What is printed when the switch was read or set. -/
def clipPrinted (action : ClipAction) (resp : Json) : Printed :=
  let paused := getBool resp "clipboard_paused"
  let state := if paused then "paused" else "active"
  let became := if paused then "paused" else "resumed"
  match action with
  | .status =>
    let connected := (getArray resp "connected").length
    .ok [println s!"Clipboard sync: {state}", println s!"Connected peers: {connected}"]
  | _ => .ok [println s!"Clipboard sync {became}."]

def cmdClip (action : ClipAction) (dest : Option String) : Dialog :=
  match action with
  | .history => .ask .clipHistory fun resp =>
    let entries := getArray resp "entries"
    .done <| .ok <|
      if entries.isEmpty then [println "(clipboard history is empty or disabled)"] else entries.map historyLine
  | .restore n => .ask (.clipRestore n) fun resp => .done (jsonOk resp s!"Restored history entry {n} to the clipboard.")
  | .send n => .ask (.clipSend n dest) fun resp => .done (jsonOk resp s!"Sent history entry {n}.")
  | .pause => .ask .clipPause fun resp => .done (clipPrinted .pause resp)
  | .resume => .ask .clipResume fun resp => .done (clipPrinted .resume resp)
  | .status => .ask .clipStatus fun resp => .done (clipPrinted .status resp)
  | .toggle => .ask .clipStatus fun now =>
    .ask (if getBool now "clipboard_paused" then .clipResume else .clipPause) fun resp =>
      .done (clipPrinted .toggle resp)

/-- `qdrop status`; `--json` comes before `--waybar`. -/
def cmdStatus (json waybar : Bool) : Dialog := .ask .status fun resp => .done <|
  if json then .ok [println (String.ofList (pretty 0 resp))]
  else if waybar then .ok [println (cmdStatusWaybar resp)]
  else
    let state := if getBool resp "clipboard_paused" then "PAUSED" else "active"
    let peers := getArray resp "peers"
    let version := getStr resp "version" "?"
    .ok <| println s!"qdrop {version} — clipboard sync {state}" ::
      if peers.isEmpty then [println "No paired peers."]
      else println (padRight 20 "PEER" ++ " STATUS") :: peers.map fun p =>
        println (padRight 20 (getStr p "name" "?") ++ " " ++ if getBool p "online" then "online" else "offline")

/-! ### With the daemon -/

/-- Every request of the dialog. -/
def Dialog.Asks (P : Request → Prop) : Dialog → Prop
  | .done _ => True
  | .say _ next => next.Asks P
  | .ask req next => P req ∧ ∀ resp, (next resp).Asks P

/-- How a request is put to a daemon: what it does, and the reply. -/
abbrev Asking := ControlDeps → Answers → Request → Controls × List ControlEffect × Option Json

section Run

variable (sockPath : PathBuf) (ask : Asking)

/-- The subcommand with the daemon as it is at each request, or without one: what is printed, and what each request
does to the daemon. -/
def Dialog.run : Dialog → List (ControlDeps × Answers) → Printed × List (Controls × List ControlEffect)
  | .done printed, _ => (printed, [])
  | .say lines next, daemons =>
    let (printed, after) := next.run daemons
    ({ printed with out := lines ++ printed.out }, after)
  | .ask _ _, [] => (.bail s!"connecting to {sockPath} (is qdropd running?)", [])
  | .ask req next, (deps, answers) :: daemons =>
    let (controls, effects, resp) := ask deps answers req
    match resp with
    | none => (.bail "parsing control response", [(controls, effects)])
    | some resp =>
      let (printed, after) := (next resp).run daemons
      (printed, (controls, effects) :: after)

end Run

/-- Through the socket. -/
def socket : Asking := fun deps answers req => requestJson deps answers req.json

/-- By calling the handlers. -/
def direct : Asking := fun deps answers req =>
  let handled := Control.dispatch deps answers req
  (handled.controls, handled.effects, some handled.reply)

theorem Dialog.run_socket (sockPath : PathBuf) (d : Dialog) (h : d.Asks Request.InRange)
    (daemons : List (ControlDeps × Answers)) : d.run sockPath socket daemons = d.run sockPath direct daemons := by
  induction d generalizing daemons with
  | done printed => rfl
  | say lines next ih => rw [Dialog.run, Dialog.run, ih h daemons]
  | ask req next ih =>
    cases daemons with
    | nil => rfl
    | cons daemon daemons =>
      have heq : socket daemon.1 daemon.2 req = direct daemon.1 daemon.2 req :=
        requestJson_eq daemon.1 daemon.2 req h.1
      have hnext := ih (Control.dispatch daemon.1 daemon.2 req).reply (h.2 _) daemons
      rw [Dialog.run, Dialog.run, heq]
      simp only [direct, hnext]

/-- A subcommand with its arguments. -/
inductive CliCommand where
  | paste
  | copy (quiet : Bool) (text : String)
  | openUrl (url : String) (dest : Option String)
  | auth (name : String) (mutualAuth : Bool)
  | send (quiet : Bool) (paths : List String) (dest : Option String)
  | clip (action : ClipAction) (dest : Option String)
  | status (json waybar : Bool)

def CliCommand.dialog (debug : String → String) : CliCommand → Dialog
  | .paste => cmdPaste
  | .copy quiet text => cmdCopy quiet text
  | .openUrl url dest => cmdOpen debug url dest
  | .auth name mutualAuth => cmdAuth name mutualAuth
  | .send quiet paths dest => cmdSend quiet paths dest
  | .clip action dest => cmdClip action dest
  | .status json waybar => cmdStatus json waybar

/-- The numbers among the arguments are `usize`. -/
def CliCommand.InRange : CliCommand → Prop
  | .clip (.restore n) _ | .clip (.send n) _ => n < 2 ^ 64
  | _ => True

theorem CliCommand.asks (debug : String → String) (cmd : CliCommand) (h : cmd.InRange) :
    (cmd.dialog debug).Asks Request.InRange := by
  have hone : ∀ {req : Request} {f : Json → Printed}, req.InRange →
      (Dialog.ask req fun resp => .done (f resp)).Asks Request.InRange := fun hreq => ⟨hreq, fun _ => trivial⟩
  cases cmd with
  | paste => exact hone trivial
  | copy quiet text => exact hone trivial
  | openUrl url dest =>
    simp only [dialog, cmdOpen]
    split
    · exact hone trivial
    · exact trivial
  | auth name mutualAuth => exact hone trivial
  | send quiet paths dest =>
    have hsend : (Request.send paths dest).InRange := trivial
    exact hone hsend
  | clip action dest =>
    cases action with
    | restore n => exact hone h
    | send n => exact hone h
    | toggle =>
      refine ⟨trivial, fun now => ⟨?_, fun _ => trivial⟩⟩
      split <;> exact trivial
    | pause | resume | status | history => exact hone trivial
  | status json waybar => exact hone trivial

/-- A subcommand over the socket is the subcommand with the request handlers. -/
theorem command_over_socket (sockPath : PathBuf) (debug : String → String) (cmd : CliCommand) (h : cmd.InRange)
    (daemons : List (ControlDeps × Answers)) :
    (cmd.dialog debug).run sockPath socket daemons = (cmd.dialog debug).run sockPath direct daemons :=
  Dialog.run_socket sockPath _ (cmd.asks debug h) daemons

/-- `qdrop clip --toggle` sets the switch to the opposite of what its first request finds. -/
theorem toggle_flips (sockPath : PathBuf) (dest : Option String) (first second : ControlDeps × Answers) :
    (((cmdClip .toggle dest).run sockPath socket [first, second]).2.getLast?.map fun r => r.1.clipboardPaused) =
      some !first.1.controls.clipboardPaused := by
  have hasks : (cmdClip .toggle dest).Asks Request.InRange := CliCommand.asks id (.clip .toggle dest) trivial
  rw [Dialog.run_socket sockPath _ hasks]
  obtain ⟨deps, answers⟩ := first
  obtain ⟨deps', answers'⟩ := second
  have hnow : getBool (statusReply deps deps.controls) "clipboard_paused" = deps.controls.clipboardPaused := rfl
  simp only [cmdClip, Dialog.run, direct, Control.dispatch, hnow]
  cases deps.controls.clipboardPaused <;> rfl

private def bareHost : ControlDeps where
  controls := ⟨false, true⟩
  bus := ⟨[], List.nodup_nil, fun _ => false⟩
  registry := .absent
  hasClipboard := true
  history := ⟨"/h", 0, [], 0⟩
  disk := FileSys.empty
  ownId := "me"
  port := 47654
  version := "1"
  online := fun _ => none
  lastSeen := fun _ => none

private def bareAnswers : Answers where
  send := fun _ _ => []
  authorize := fun _ _ => .error ""
  text := none
  debug := id
  badRequest := id

/-- `qdrop copy` of two lines with quotes, `qdrop clip --restore` of an entry that is not there, and
`qdrop status --json`. -/
theorem command_over_socket_copy :
    (cmdCopy true "say \"hi\"\n\\o/").run "/s" socket [(bareHost, bareAnswers)] =
      (⟨[], [], none⟩, [(⟨false, true⟩, [.applyText "say \"hi\"\n\\o/"])]) ∧
    (cmdClip (.restore 3) none).run "/s" socket [(bareHost, bareAnswers)] =
      (.bail "no such history entry", [(⟨false, true⟩, [])]) ∧
    (cmdStatus true false).run "/s" socket [(bareHost, bareAnswers)] =
      (.ok [println (String.ofList (pretty 0 (statusReply bareHost ⟨false, true⟩)))], [(⟨false, true⟩, [])]) := by
  refine ⟨?_, ?_, ?_⟩
  · exact (command_over_socket "/s" id (.copy true "say \"hi\"\n\\o/") trivial [(bareHost, bareAnswers)]).trans rfl
  · exact (command_over_socket "/s" id (.clip (.restore 3) none) (show 3 < 2 ^ 64 by decide)
      [(bareHost, bareAnswers)]).trans rfl
  · exact (command_over_socket "/s" id (.status true false) trivial [(bareHost, bareAnswers)]).trans rfl

end Qdrop
