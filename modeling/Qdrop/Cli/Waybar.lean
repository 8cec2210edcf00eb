import Mathlib.Algebra.Order.BigOperators.Group.List
import Qdrop.FileXfer.Paths
import Qdrop.Lib.Json
import Qdrop.Peers

/-!
# The line of `qdrop status --waybar` (`cmd_status` of `qdrop/src/main.rs`, `status_json` of `qdropd/src/control.rs`)

The line is a JSON object put together by formatting, and the names of the peers stand in its tooltip as they are.  So
it decodes to what is meant exactly when no name has a quote, a backslash or a control character (`waybar_line_iff`).
-/

namespace Qdrop

open Lib Lib.Json

/-- What `status_json` looks at. -/
structure StatusDeps where
  connected : List DeviceId
  peers : Peers
  /-- Since when a peer is online, and when it was seen last. -/
  online : DeviceId → Option Nat
  lastSeen : DeviceId → Option Nat
  version : String
  port : Nat
  clipboardPaused : Bool
  syncImages : Bool

def jsonNumber (n : Nat) : Json := .num (toString n)

def jsonSeconds (t : Option Nat) : Json := (t.map jsonNumber).getD .null

def StatusDeps.isOnline (deps : StatusDeps) (p : Peer) : Bool := deps.connected.contains p.deviceId

def peerRow (deps : StatusDeps) (p : Peer) : Json := .obj [
  ("name", .str p.name),
  ("device_id", .str p.deviceId),
  ("online", .bool (deps.isOnline p)),
  ("since_unix", jsonSeconds (deps.online p.deviceId)),
  ("last_seen_unix", jsonSeconds (deps.lastSeen p.deviceId))]

def statusJson (deps : StatusDeps) : Json := .obj [
  ("ok", .bool true),
  ("version", .str deps.version),
  ("port", jsonNumber deps.port),
  ("clipboard_paused", .bool deps.clipboardPaused),
  ("sync_images", .bool deps.syncImages),
  ("connected", .arr (deps.connected.map Json.str)),
  ("peers", .arr (deps.peers.peers.map (peerRow deps)))]

/-! ### `cmd_status` -/

/-- A row of the reply: the name and whether the peer is online. -/
def statusRow (p : Json) : String × Bool :=
  (((p.get? "name").bind asStr).getD "?", ((p.get? "online").bind asBool).getD false)

def rowLine (row : String × Bool) : String := row.1 ++ ": " ++ if row.2 then "online" else "offline"

def waybarIcon (paused : Bool) (online : Nat) : String := if paused then "󰅘" else if 0 < online then "󰓅" else "󰤭"

def waybarClass (paused : Bool) (online : Nat) : String :=
  if paused then "paused" else if 0 < online then "connected" else "idle"

def clipboardState (paused : Bool) : String := if paused then "paused" else "active"

/-- The line, where the newlines of the tooltip are a backslash and an n, as in a raw string. -/
def waybarLine (paused : Bool) (rows : List (String × Bool)) : String :=
  let online := rows.countP (·.2)
  let icon := waybarIcon paused online
  let tip := "\\n".intercalate (rows.map rowLine)
  let cls := waybarClass paused online
  "\x7b\"text\":\"" ++ icon ++ " " ++ toString online ++ "\",\"tooltip\":\"qdrop — clipboard " ++
    clipboardState paused ++ "\\n" ++ tip ++ "\",\"class\":\"" ++ cls ++ "\"\x7d"

/-- What is printed for the reply `resp`. -/
def cmdStatusWaybar (resp : Json) : String :=
  let paused := ((resp.get? "clipboard_paused").bind asBool).getD false
  let peers := ((resp.get? "peers").bind asArray).getD []
  waybarLine paused (peers.map statusRow)

/-! ### What is meant -/

/-- The peers of the reply, with their names. -/
def StatusDeps.rows (deps : StatusDeps) : List (String × Bool) :=
  deps.peers.peers.map fun p => (p.name, deps.isOnline p)

/-- The clipboard line and one line for each peer. -/
def tooltip (paused : Bool) (rows : List (String × Bool)) : String :=
  "qdrop — clipboard " ++ clipboardState paused ++ "\n" ++ "\n".intercalate (rows.map rowLine)

/-- The icon and the number of peers that are online. -/
def waybarText (paused : Bool) (rows : List (String × Bool)) : String :=
  waybarIcon paused (rows.countP (·.2)) ++ " " ++ toString (rows.countP (·.2))

/-- What `cmd_status` puts between the quotes of the tooltip. -/
def rawTooltip (paused : Bool) (rows : List (String × Bool)) : String :=
  "qdrop — clipboard " ++ clipboardState paused ++ "\\n" ++ "\\n".intercalate (rows.map rowLine)

/-- The members, each with what it should decode to and what stands between its quotes. -/
def waybarFields (paused : Bool) (rows : List (String × Bool)) : List (String × String × List Char) :=
  [("text", waybarText paused rows, (waybarText paused rows).toList),
    ("tooltip", tooltip paused rows, (rawTooltip paused rows).toList),
    ("class", waybarClass paused (rows.countP (·.2)), (waybarClass paused (rows.countP (·.2))).toList)]

/-- Three members with what the format string has around them. -/
private theorem format_eq (opening second third closing k₁ k₂ k₃ : String)
    (h₁ : opening.toList = '{' :: '"' :: (k₁.toList ++ ['"', ':', '"']))
    (h₂ : second.toList = '"' :: ',' :: '"' :: (k₂.toList ++ ['"', ':', '"']))
    (h₃ : third.toList = '"' :: ',' :: '"' :: (k₃.toList ++ ['"', ':', '"']))
    (h₄ : closing.toList = ['"', '}']) (v₁ v₂ v₃ : String) :
    opening ++ v₁ ++ second ++ v₂ ++ third ++ v₃ ++ closing =
      String.ofList (rawObject [(k₁, v₁.toList), (k₂, v₂.toList), (k₃, v₃.toList)]) := by
  rw [← String.toList_inj, String.toList_ofList]
  simp [rawObject, rawMember, h₁, h₂, h₃, h₄]

/-- The line is a formatted object. -/
theorem waybarLine_raw (paused : Bool) (rows : List (String × Bool)) :
    waybarLine paused rows = String.ofList (rawObject ((waybarFields paused rows).map fun f => (f.1, f.2.2))) := by
  have hformat := format_eq "\x7b\"text\":\"" "\",\"tooltip\":\"" "\",\"class\":\"" "\"\x7d" "text" "tooltip" "class"
    (by decide) (by decide) (by decide) (by decide) (waybarText paused rows) (rawTooltip paused rows)
    (waybarClass paused (rows.countP (·.2)))
  have hsecond : "\",\"tooltip\":\"qdrop — clipboard " = "\",\"tooltip\":\"" ++ "qdrop — clipboard " := by decide
  have hmap : (waybarFields paused rows).map (fun f => (f.1, f.2.2)) =
      [("text", (waybarText paused rows).toList), ("tooltip", (rawTooltip paused rows).toList),
        ("class", (waybarClass paused (rows.countP (·.2))).toList)] := by
    simp only [waybarFields, List.map_cons, List.map_nil]
  rw [hmap, ← hformat]
  unfold waybarLine waybarText rawTooltip
  rw [hsecond]
  simp only [String.append_assoc]

/-- The rows that `cmd_status` reads from the reply. -/
theorem cmdStatusWaybar_statusJson (deps : StatusDeps) :
    cmdStatusWaybar (statusJson deps) = waybarLine deps.clipboardPaused deps.rows := by
  have hrows : (deps.peers.peers.map (peerRow deps)).map statusRow = deps.rows := by
    rw [List.map_map]
    rfl
  rw [← hrows]
  rfl

/-! ### Which characters need an escape -/

private theorem plain_of_countP {l : List Char} (h : l.countP (Special ·) = 0) : ∀ c ∈ l, ¬ Special c := fun c hc =>
  of_decide_eq_false (Bool.eq_false_of_not_eq_true (List.countP_eq_zero.1 h c hc))

theorem not_special_of_isDigit {c : Char} (h : c.isDigit = true) : ¬ Special c := by
  rintro (rfl | rfl | hlt)
  · exact absurd h (by decide)
  · exact absurd h (by decide)
  · simp only [Char.isDigit, Bool.and_eq_true, decide_eq_true_eq, UInt32.le_iff_toNat_le] at h
    have hval : c.toNat = c.val.toNat := rfl
    have hzero : '0'.val.toNat = 48 := rfl
    omega

theorem waybarText_plain (paused : Bool) (rows : List (String × Bool)) :
    ∀ c ∈ (waybarText paused rows).toList, ¬ Special c := by
  intro c hc
  rw [waybarText, String.toList_append, String.toList_append, List.mem_append, List.mem_append] at hc
  rcases hc with (hc | hc) | hc
  · have hicon : ∀ paused online, ∀ c ∈ (waybarIcon paused online).toList, ¬ Special c := by
      intro paused online
      refine plain_of_countP ?_
      unfold waybarIcon
      split
      · decide
      split <;> decide
    exact hicon _ _ c hc
  · exact plain_of_countP (by decide) c hc
  · by_cases hdigit : c.isDigit = true
    · exact not_special_of_isDigit hdigit
    · exact absurd hc (not_mem_toString (by simpa using hdigit) _)

theorem waybarClass_plain (paused : Bool) (online : Nat) : ∀ c ∈ (waybarClass paused online).toList, ¬ Special c := by
  refine plain_of_countP ?_
  unfold waybarClass
  split
  · decide
  split <;> decide

/-- Of a line of the tooltip only the name needs escapes. -/
theorem countP_rowLine (row : String × Bool) :
    (rowLine row).toList.countP (Special ·) = row.1.toList.countP (Special ·) := by
  have hcolon : ": ".toList.countP (Special ·) = 0 := by decide
  have hstate : (if row.2 then "online" else "offline").toList.countP (Special ·) = 0 := by
    split <;> decide
  rw [rowLine, String.toList_append, String.toList_append, List.countP_append, List.countP_append, hcolon, hstate]
  rfl

/-- Lines without special characters are escaped at their ends only. -/
private theorem escaped_lines {lines : List (List Char)} (h : ∀ l ∈ lines, ∀ c ∈ l, ¬ Special c) :
    (['\n'].intercalate lines).flatMap escaped = ['\\', 'n'].intercalate lines := by
  induction lines with
  | nil => rfl
  | cons l lines ih =>
    have hl := flatMap_escaped (h l (List.mem_cons_self ..))
    cases lines with
    | nil =>
      rw [List.intercalate_singleton, List.intercalate_singleton]
      exact hl
    | cons l' lines =>
      rw [List.intercalate_cons_cons, List.intercalate_cons_cons, List.flatMap_append, List.flatMap_append, hl,
        ih fun l hmem => h l (List.mem_cons_of_mem _ hmem)]
      rfl

/-- Each newline between lines costs what a backslash and an n do. -/
private theorem cost_lines (lines : List (List Char)) :
    charsCost (['\n'].intercalate lines) =
      (['\\', 'n'].intercalate lines).length + (lines.map (List.countP (Special ·))).sum := by
  induction lines with
  | nil => rfl
  | cons l lines ih =>
    cases lines with
    | nil => simp [charsCost_eq]
    | cons l' lines =>
      have hnewline : charsCost ['\n'] = 2 := by decide
      simp only [List.intercalate_cons_cons, charsCost_append, List.length_append, List.map_cons, List.sum_cons,
        charsCost_eq l, hnewline] at ih ⊢
      simp only [List.length_cons, List.length_nil]
      omega

private theorem clipboard_plain (paused : Bool) :
    ∀ c ∈ "qdrop — clipboard ".toList ++ (clipboardState paused).toList, ¬ Special c := by
  refine plain_of_countP ?_
  unfold clipboardState
  split <;> decide

private theorem lines_toList {newline : String} {nl : List Char} (h : newline.toList = nl) (clipboard state : String)
    (rows : List (String × Bool)) :
    (clipboard ++ state ++ newline ++ newline.intercalate (rows.map rowLine)).toList =
      (clipboard.toList ++ state.toList) ++ (nl ++ nl.intercalate (rows.map fun row => (rowLine row).toList)) := by
  simp only [String.toList_append, String.toList_intercalate, h, List.map_map, List.append_assoc, Function.comp_def]

private theorem tooltip_toList (paused : Bool) (rows : List (String × Bool)) :
    (tooltip paused rows).toList = ("qdrop — clipboard ".toList ++ (clipboardState paused).toList) ++ (['\n'] ++
      ['\n'].intercalate (rows.map fun row => (rowLine row).toList)) := by
  unfold tooltip
  exact lines_toList (by decide) _ _ _

private theorem rawTooltip_toList (paused : Bool) (rows : List (String × Bool)) :
    (rawTooltip paused rows).toList = ("qdrop — clipboard ".toList ++ (clipboardState paused).toList) ++ (['\\', 'n'] ++
      ['\\', 'n'].intercalate (rows.map fun row => (rowLine row).toList)) := by
  unfold rawTooltip
  exact lines_toList (by decide) _ _ _

/-- The tooltip costs what stands between its quotes, and one more for each special character of a name. -/
theorem tooltip_cost (paused : Bool) (rows : List (String × Bool)) :
    charsCost (tooltip paused rows).toList =
      (rawTooltip paused rows).toList.length + (rows.map fun row => row.1.toList.countP (Special ·)).sum := by
  have hclipboard : ("qdrop — clipboard ".toList ++ (clipboardState paused).toList).countP (Special ·) = 0 :=
    List.countP_eq_zero.2 fun c hc => by simpa using clipboard_plain paused c hc
  have hnewline : charsCost ['\n'] = 2 := by decide
  have hnames : (rows.map fun row => (rowLine row).toList).map (List.countP (Special ·)) =
      rows.map fun row => row.1.toList.countP (Special ·) := by
    rw [List.map_map]
    exact List.map_congr_left fun row _ => countP_rowLine row
  rw [tooltip_toList, rawTooltip_toList]
  generalize "qdrop — clipboard ".toList ++ (clipboardState paused).toList = front at hclipboard ⊢
  rw [charsCost_append, charsCost_append, cost_lines, hnames, hnewline, charsCost_eq, hclipboard, List.length_append,
    List.length_append]
  simp only [List.length_cons, List.length_nil]
  omega

/-- Where no name has a special character the raw tooltip is the escaped one. -/
theorem tooltip_escaped {paused : Bool} {rows : List (String × Bool)}
    (h : ∀ row ∈ rows, ∀ c ∈ row.1.toList, ¬ Special c) :
    (tooltip paused rows).toList.flatMap escaped = (rawTooltip paused rows).toList := by
  have hlines : ∀ l ∈ rows.map fun row => (rowLine row).toList, ∀ c ∈ l, ¬ Special c := by
    intro l hl c hc hspecial
    obtain ⟨row, hrow, rfl⟩ := List.mem_map.1 hl
    have hname : row.1.toList.countP (Special ·) = 0 :=
      List.countP_eq_zero.2 fun c hc => by simpa using h row hrow c hc
    rw [← countP_rowLine, List.countP_eq_zero] at hname
    exact hname c hc (decide_eq_true hspecial)
  have hfront := flatMap_escaped (clipboard_plain paused)
  rw [tooltip_toList, rawTooltip_toList]
  generalize "qdrop — clipboard ".toList ++ (clipboardState paused).toList = front at hfront ⊢
  rw [List.flatMap_append, List.flatMap_append, escaped_lines hlines, hfront]
  rfl

/-- The line is the text of an object with the text, the tooltip and the class that are meant exactly when no name of a
peer has a character that JSON escapes. -/
theorem waybar_line_iff (deps : StatusDeps) :
    parse (cmdStatusWaybar (statusJson deps)) = some (.obj [
        ("text", .str (waybarText deps.clipboardPaused deps.rows)),
        ("tooltip", .str (tooltip deps.clipboardPaused deps.rows)),
        ("class", .str (waybarClass deps.clipboardPaused (deps.rows.countP (·.2))))]) ↔
      ∀ p ∈ deps.peers.peers, ∀ c ∈ p.name.toList, ¬ Special c := by
  have hnames : (∀ p ∈ deps.peers.peers, ∀ c ∈ p.name.toList, ¬ Special c) ↔
      ∀ row ∈ deps.rows, ∀ c ∈ row.1.toList, ¬ Special c := by
    rw [StatusDeps.rows, List.forall_mem_map]
  rw [cmdStatusWaybar_statusJson, waybarLine_raw, hnames]
  generalize deps.clipboardPaused = paused, deps.rows = rows
  have hne : waybarFields paused rows ≠ [] := List.cons_ne_nil _ _
  constructor
  · intro h row hrow c hc hspecial
    have hcost := parse_rawObject_cost hne h
    have hpos : 0 < row.1.toList.countP (Special ·) := List.countP_pos_iff.2 ⟨c, hc, decide_eq_true hspecial⟩
    have hsum : row.1.toList.countP (Special ·) ≤ (rows.map fun row => row.1.toList.countP (Special ·)).sum :=
      List.single_le_sum (fun _ _ => Nat.zero_le _) _ (List.mem_map_of_mem hrow)
    simp only [waybarFields, List.map_cons, List.map_nil, List.sum_cons, List.sum_nil, tooltip_cost,
      charsCost_eq (waybarText paused rows).toList, charsCost_eq (waybarClass paused _).toList] at hcost
    omega
  · intro h
    have hkeys : ∀ f ∈ waybarFields paused rows, ∀ c ∈ f.1.toList, ¬ Special c := by
      intro f hf
      simp only [waybarFields, List.mem_cons, List.not_mem_nil, or_false] at hf
      rcases hf with rfl | rfl | rfl
      · exact plain_of_countP (l := "text".toList) (by decide)
      · exact plain_of_countP (l := "tooltip".toList) (by decide)
      · exact plain_of_countP (l := "class".toList) (by decide)
    have hraw : ∀ f ∈ waybarFields paused rows, f.2.1.toList.flatMap escaped = f.2.2 := by
      intro f hf
      simp only [waybarFields, List.mem_cons, List.not_mem_nil, or_false] at hf
      rcases hf with rfl | rfl | rfl
      · exact flatMap_escaped (waybarText_plain paused rows)
      · exact tooltip_escaped h
      · exact flatMap_escaped (waybarClass_plain paused _)
    rw [rawObject_eq_print hkeys hraw, parse_printObject (by simpa using hne), List.map_map]
    rfl

/-- One peer, which is offline. -/
private def onePeer (name : String) : StatusDeps where
  connected := []
  peers := ⟨[⟨name, "peer", "", none, false, [], none, none⟩]⟩
  online _ := none
  lastSeen _ := none
  version := "0.0.1"
  port := defaultPort
  clipboardPaused := false
  syncImages := true

example : cmdStatusWaybar (statusJson (onePeer "desk")) =
    "\x7b\"text\":\"󰤭 0\",\"tooltip\":\"qdrop — clipboard active\\ndesk: offline\",\"class\":\"idle\"\x7d" := by
  decide +kernel

/-- A quote in a name ends the tooltip, and the rest of the name is no JSON. -/
theorem quoted_name_breaks_line : parse (cmdStatusWaybar (statusJson (onePeer "14\" laptop"))) = none :=
  Option.isNone_iff_eq_none.1 (by decide +kernel)

end Qdrop
