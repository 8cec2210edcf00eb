import Mathlib.Algebra.Group.Nat.Defs
import Qdrop.Proto

/-!
# The PIN-keyed exchange (`qdrop-core/src/pairing.rs`)

`exchange` on one side of a byte stream, between two bytes it reads: the SPAKE2 message, the identity payload with its
tag, and the confirmation byte.  SPAKE2, SHA-256, HMAC and msgpack are parameters (`PairCrypto`).  The bytes read and
the answers of the stream are inputs, so whoever controls the stream controls them.
-/

namespace Qdrop

/-- Which side of the exchange we are. -/
inductive PairRole where
  | offerer
  | requester
deriving DecidableEq, Repr

def PairRole.other : PairRole → PairRole
  | .offerer => .requester
  | .requester => .offerer

/-- What we learned about the peer during a successful pairing. -/
structure Paired where
  deviceId : DeviceId
  deviceName : String
  publicKey : Key
deriving DecidableEq, Repr

/-- The errors `exchange` returns. -/
inductive PairError where
  | badPin
  | peerAborted
  | protocol (detail : String)
  | io (err : String)
deriving DecidableEq, Repr

structure PairPayload where
  deviceId : DeviceId
  deviceName : String
  publicKey : Bytes
deriving DecidableEq, Repr

/-- Our own side's inputs to the exchange. -/
structure LocalInfo where
  deviceId : DeviceId
  deviceName : String
  publicKey : Key
deriving DecidableEq, Repr

/-- The crates the exchange is built on: `spake2`, `sha2`, `hmac` and `rmp_serde`. -/
structure PairCrypto where
  /-- What `start_a` and `start_b` draw. -/
  Rand : Type
  /-- `Spake2`. -/
  State : Type
  startA : (password idA idB : Bytes) → Rand → State × Bytes
  startB : (password idA idB : Bytes) → Rand → State × Bytes
  finish : State → Bytes → Option Bytes
  sha256 : Bytes → Digest
  hmacSha256 : Bytes → Bytes → Digest
  toVecNamed : PairPayload → Except String Bytes
  fromSlice : Bytes → Except String PairPayload

def spakeIdA : Bytes := "qdrop-pair-offerer".toUTF8.toList

def spakeIdB : Bytes := "qdrop-pair-requester".toUTF8.toList

def maxPairFrame : Nat := 4096

/-! ### Small helpers -/

/-- The labels of the direction-separated subkeys: `b"a2b"` and `b"b2a"`. -/
inductive KeyLabel where
  | a2b
  | b2a
deriving DecidableEq, Repr

def KeyLabel.bytes : KeyLabel → Bytes
  | .a2b => [0x61, 0x32, 0x62]
  | .b2a => [0x62, 0x32, 0x61]

def derive (sha256 : Bytes → Digest) (key : Bytes) (label : KeyLabel) : Digest := sha256 (label.bytes ++ [0] ++ key)

def PairRole.sendLabel : PairRole → KeyLabel
  | .offerer => .a2b
  | .requester => .b2a

def PairRole.recvLabel : PairRole → KeyLabel
  | .offerer => .b2a
  | .requester => .a2b

/-- `u16::to_be_bytes`. -/
def beU16 (n : Nat) : Bytes := [UInt8.ofNat (n / 256), UInt8.ofNat n]

/-- The bytes `write_chunk` writes; `none`: the length does not fit its prefix. -/
def chunkBytes (data : Bytes) : Option Bytes := if data.length < 2 ^ 16 then some (beU16 data.length ++ data) else none

/-- `read_chunk` between two bytes. -/
inductive ChunkReader where
  | header (got : Bytes)
  | body (len : Nat) (got : Bytes)
deriving DecidableEq, Repr

/-- What one more byte makes of a `read_chunk`. -/
inductive ChunkStep where
  | more (r : ChunkReader)
  | done (data : Bytes)
  | bad (len : Nat)
deriving DecidableEq, Repr

def ChunkReader.feed (r : ChunkReader) (b : UInt8) : ChunkStep :=
  match r with
  | .header got =>
    if got.length + 1 < 2 then .more (.header (got ++ [b]))
    else
      let len := (got ++ [b]).foldl (fun n b => n * 256 + b.toNat) 0
      if len = 0 ∨ maxPairFrame < len then .bad len else .more (.body len [])
  | .body len got => if got.length + 1 < len then .more (.body len (got ++ [b])) else .done (got ++ [b])

/-- A `[u8; 32]` filled by `read_exact`. -/
def toDigest (bytes : Bytes) : Digest := Vector.ofFn fun i : Fin 32 => bytes.getD i 0

/-! ### One call -/

/-- What one call is made with; `rand` is what SPAKE2 draws. -/
structure PairSetup (P : PairCrypto) where
  role : PairRole
  pin : String
  info : LocalInfo
  rand : P.Rand

/-- Where a call is. -/
inductive PairPhase where
  /-- About to write its SPAKE2 message. -/
  | starting
  | spake (r : ChunkReader)
  | payload (r : ChunkReader)
  | tag (theirs : Bytes) (got : Bytes)
  | confirm (theirs : Bytes)
  | returned (result : Except PairError Paired)

/-- A call in progress.  `tagged` and `accepted` record the payload the call has authenticated and the one whose tag
it has accepted, `ack` the confirmation byte it has written. -/
structure PairCall where
  phase : PairPhase
  theirSpake : Option Bytes
  key : Option Bytes
  tagged : Option Bytes
  accepted : Option Bytes
  ack : Option UInt8
  /-- Everything written to the stream. -/
  written : Bytes

namespace PairCall

def start : PairCall := ⟨.starting, none, none, none, none, none, []⟩

def finish (c : PairCall) (result : Except PairError Paired) : PairCall := { c with phase := .returned result }

variable {P : PairCrypto} (setup : PairSetup P)

/-- `Spake2::start_a` or `start_b`. -/
def spakeStart : P.State × Bytes :=
  match setup.role with
  | .offerer => P.startA setup.pin.toUTF8.toList spakeIdA spakeIdB setup.rand
  | .requester => P.startB setup.pin.toUTF8.toList spakeIdA spakeIdB setup.rand

def payloadOf (info : LocalInfo) : PairPayload := ⟨info.deviceId, info.deviceName, info.publicKey.toList⟩

/-- The first write. -/
def begin (c : PairCall) (writeErr : Option String) : Option PairCall :=
  match c.phase with
  | .starting =>
    match chunkBytes (spakeStart setup).2, writeErr with
    | none, _ => some (c.finish (.error (.protocol "chunk too large")))
    | some _, some err => some (c.finish (.error (.io err)))
    | some bytes, none => some { c with phase := .spake (.header []), written := c.written ++ bytes }
  | _ => none

/-- The peer's SPAKE2 message is complete: derive the key and send our identity under it. -/
def onSpake (c : PairCall) (theirs : Bytes) (writeErr : Option String) : PairCall :=
  match P.finish (spakeStart setup).1 theirs with
  | none => { c with theirSpake := some theirs }.finish (.error (.protocol "SPAKE2 finish failed"))
  | some key =>
    let c := { c with theirSpake := some theirs, key := some key }
    match P.toVecNamed (payloadOf setup.info) with
    | .error err => c.finish (.error (.protocol err))
    | .ok payload =>
      match chunkBytes payload, writeErr with
      | none, _ => c.finish (.error (.protocol "chunk too large"))
      -- the first or the second of the two writes fails
      | some _, some err => { c with tagged := some payload }.finish (.error (.io err))
      | some bytes, none =>
        let sendKey := derive P.sha256 key setup.role.sendLabel
        { c with
          phase := .payload (.header [])
          tagged := some payload
          written := c.written ++ bytes ++ (P.hmacSha256 sendKey.toList payload).toList }

/-- Whether the tag is right for the payload. -/
def verifies (c : PairCall) (theirs tag : Bytes) : Bool :=
  match c.key with
  | some key => ctEq (P.hmacSha256 (derive P.sha256 key setup.role.recvLabel).toList theirs) (toDigest tag)
  | none => false

/-- The peer's tag is complete: check it, and tell the peer. -/
def onTag (c : PairCall) (theirs tag : Bytes) (writeErr : Option String) : PairCall :=
  if verifies setup c theirs tag then
    match writeErr with
    | some err => { c with accepted := some theirs }.finish (.error (.io err))
    | none =>
      { c with phase := .confirm theirs, accepted := some theirs, ack := some 1, written := c.written ++ [1] }
  else
    -- the result of this write is ignored
    match writeErr with
    | some _ => c.finish (.error .badPin)
    | none => { c with ack := some 0, written := c.written ++ [0] }.finish (.error .badPin)

/-- The payload as the peer's identity. -/
def parse (P : PairCrypto) (theirs : Bytes) : Except PairError Paired :=
  match P.fromSlice theirs with
  | .error err => .error (.protocol err)
  | .ok parsed =>
    if h : parsed.publicKey.toArray.size = 32 then
      .ok ⟨parsed.deviceId, parsed.deviceName, ⟨parsed.publicKey.toArray, h⟩⟩
    else .error (.protocol "peer sent a malformed public key")

/-- The peer's confirmation byte. -/
def onAck (P : PairCrypto) (c : PairCall) (theirs : Bytes) (ack : UInt8) : PairCall :=
  if ack = 1 then c.finish (parse P theirs) else c.finish (.error .peerAborted)

/-- One more byte; `writeErr` is the error of a write that the byte leads to. -/
def feed (c : PairCall) (b : UInt8) (writeErr : Option String) : Option PairCall :=
  match c.phase with
  | .starting | .returned _ => none
  | .spake r =>
    match r.feed b with
    | .more r => some { c with phase := .spake r }
    | .bad len => some (c.finish (.error (.protocol s!"bad chunk length {len}")))
    | .done theirs => some (onSpake setup c theirs writeErr)
  | .payload r =>
    match r.feed b with
    | .more r => some { c with phase := .payload r }
    | .bad len => some (c.finish (.error (.protocol s!"bad chunk length {len}")))
    | .done theirs => some { c with phase := .tag theirs [] }
  | .tag theirs got =>
    if got.length + 1 < 32 then some { c with phase := .tag theirs (got ++ [b]) }
    else some (onTag setup c theirs (got ++ [b]) writeErr)
  | .confirm theirs => some (onAck P c theirs b)

/-- A read fails: at the end of the stream, or with an error; the confirmation does not tell the two apart. -/
def readFails (c : PairCall) (err : Option String) : Option PairCall :=
  match c.phase with
  | .starting | .returned _ => none
  | .confirm _ => some (c.finish (.error .peerAborted))
  | .spake _ | .payload _ | .tag _ _ =>
    match err with
    | none => some (c.finish (.error .peerAborted))
    | some err => some (c.finish (.error (.io err)))

/-- The 15 seconds for the confirmation are over. -/
def timesOut (c : PairCall) : Option PairCall :=
  match c.phase with
  | .confirm _ => some (c.finish (.error .peerAborted))
  | _ => none

end PairCall

end Qdrop
