import Qdrop.Clipboard.Sync
import Qdrop.Peers

/-!
# Requests that put frames on the bus (`qdropd/src/control.rs`, `weblink.rs`, `history.rs`, `bus.rs`)

`qdrop open` and `qdrop clip --send`: the check of a URL and the peers it goes to, the clipboard history, and the bus
they are sent through.  The image of a history entry is kept with the entry; its file in the history directory is not
modelled.
-/

namespace Qdrop

/-! ### The bus -/

/-- `PeerBus`: the connected peers, and whether the channel of one has a free slot. -/
structure Bus where
  connected : List DeviceId
  nodup : connected.Nodup
  hasSlot : DeviceId → Bool

/-- `send_to`: whether the frame was queued. -/
def Bus.sendTo (bus : Bus) (peer : DeviceId) : Bool := decide (peer ∈ bus.connected) && bus.hasSlot peer

/-- The frames that reach a channel when `msg` is sent to each of `targets`. -/
def Bus.handed (bus : Bus) (targets : List DeviceId) (msg : Message) : List (DeviceId × Message) :=
  (targets.filter bus.sendTo).map fun p => (p, msg)

/-- `broadcast(&msg, None)`. -/
def Bus.broadcast (bus : Bus) (msg : Message) : List (DeviceId × Message) := bus.handed bus.connected msg

/-! ### Opening a URL -/

/-- URL schemes the peer will actually open. -/
def urlSchemeAllowlist : List String := ["http", "https", "mailto"]

/-- `char::is_control`. -/
def isControl (c : Char) : Bool :=
  let n := c.toNat
  n < 0x20 || (0x7F ≤ n && n ≤ 0x9F)

/-- The double quote, the single quote and the backtick. -/
def isQuote (c : Char) : Bool := c.toNat == 0x22 || c.toNat == 0x27 || c.toNat == 0x60

/-- `str::split_once`. -/
def splitOnce (sep : Char) (s : List Char) : Option (List Char × List Char) :=
  match s.dropWhile (· ≠ sep) with
  | [] => none
  | _ :: rest => some (s.takeWhile (· ≠ sep), rest)

/-- `str::to_ascii_lowercase`. -/
def toAsciiLowercase (s : List Char) : String := String.ofList (s.map Char.toLower)

/-- The checks of `is_allowed_url` on a URL that is already trimmed. -/
def isAllowedTrimmed (url : List Char) : Bool :=
  if url = [] ∨ 4096 < (String.ofList url).utf8ByteSize then false
  else if url.any (fun c => isControl c || isWhitespace c || isQuote c) then false
  else match splitOnce ':' url with
    | none => false
    | some (scheme, rest) =>
      if toAsciiLowercase scheme ∉ urlSchemeAllowlist then false
      else match toAsciiLowercase scheme with
        | "http" | "https" => ['/', '/'].isPrefixOf rest && 2 < (String.ofList rest).utf8ByteSize
        | "mailto" => rest.contains '@'
        | _ => false

/-- Whether `url` is safe to hand to `open` / `xdg-open` on the peer. -/
def isAllowedUrl (url : String) : Bool := isAllowedTrimmed (trim url.toList)

/-- `weblink::resolve`, and how `control.rs` finds the peer of a name. -/
def resolve (registry : PeersFile) (name : String) : Option DeviceId :=
  match registry.load with
  | .ok doc => ((doc.find name).or (doc.findById name)).map (·.deviceId)
  | .error _ => none

/-- The peers that `weblink::dispatch` and `FileXfer::send` pick. -/
def Bus.targets (bus : Bus) (registry : PeersFile) : Option String → List DeviceId
  | some name => if name ∈ bus.connected then [name] else (resolve registry name).toList
  | none => bus.connected

/-- `weblink::dispatch` up to the sending: the peers the URL goes to. -/
def dispatch (bus : Bus) (registry : PeersFile) (url : String) (dest : Option String) :
    Except String (List DeviceId) :=
  if isAllowedUrl url = false then
    .error ("URL scheme not allowed (permitted: " ++ ", ".intercalate urlSchemeAllowlist ++ ")")
  else match bus.targets registry dest, dest with
    | [], some name => .error s!"no such paired peer: {name}"
    | [], none => .error "no connected peers"
    | targets, _ => .ok targets

/-! ### The clipboard history -/

/-- Restored content, ready to put back on the clipboard or send. -/
inductive Restored where
  | text (t : String)
  | image (png : Bytes)
deriving DecidableEq, Repr

structure HistoryEntry where
  body : Restored
  origin : String
  /-- SHA-256 of the content, for dedup. -/
  hash : Digest
deriving DecidableEq, Repr

/-- The entries, newest first, and how many are kept. -/
structure ClipHistory where
  max : Nat
  entries : List HistoryEntry
deriving DecidableEq, Repr

namespace ClipHistory

/-- `History::load`, with what `index.json` holds. -/
def load (max : Nat) (index : List HistoryEntry) : ClipHistory := ⟨max, index.take max⟩

def enabled (h : ClipHistory) : Bool := 0 < h.max

def push (h : ClipHistory) (entry : HistoryEntry) : ClipHistory :=
  if h.entries.head?.any (·.hash == entry.hash) then h else ⟨h.max, (entry :: h.entries).take h.max⟩

def recordText (sha256 : Bytes → Digest) (h : ClipHistory) (t : String) (origin : String) : ClipHistory :=
  if h.enabled = false ∨ t = "" then h else h.push ⟨.text t, origin, sha256 (asBytes t)⟩

def recordImage (sha256 : Bytes → Digest) (h : ClipHistory) (png : Bytes) (origin : String) : ClipHistory :=
  if h.enabled = false then h else h.push ⟨.image png, origin, sha256 png⟩

/-- What the sync loop records of a clip. -/
def record (sha256 : Bytes → Digest) (h : ClipHistory) (clip : LocalClip) (origin : String) : ClipHistory :=
  match clip with
  | .text t => h.recordText sha256 t origin
  | .image png => h.recordImage sha256 png origin

/-- Fetch an entry for restore or send. -/
def get (h : ClipHistory) (index : Nat) : Option Restored := (h.entries[index]?).map (·.body)

end ClipHistory

/-- The peers a `ClipSend` goes to. -/
def clipTargets (bus : Bus) (registry : PeersFile) : Option String → List DeviceId
  | some name => (resolve registry name).toList
  | none => bus.connected

/-- The `ClipSend` arm of `dispatch` for a text: the frame it sends. -/
def clipSend (ownId : DeviceId) (t : String) : Message := .clipboard 0 ownId [ClipEntry.text t]

end Qdrop
