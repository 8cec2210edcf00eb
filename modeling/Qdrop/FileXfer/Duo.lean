import Qdrop.Connection.Loop
import Qdrop.FileXfer.Acks
import Qdrop.FileXfer.Integrity

/-!
# A sender and a receiver

Two daemons on one connection that stays up: `a` sends files (`send_one_with_retry`) and clipboard images, `b` receives
them.  Blob frames wait for room in the outbound channel and arrive in order; a `BlobAck` goes back through `b`'s
outbound channel of 64 slots with `try_send`, so it is dropped when the channel is full.  Other frames share both
channels, other peers send blobs to `b` too, and `a` sends to other peers under ids of its own.

A frame concerns one transfer, so each transfer can be looked at on its own: `Transfer` is what the system knows of one
id, and `transfer_step` says how it moves when the system does.
-/

namespace Qdrop

open Lib

/-- One `send_one_with_retry` call. -/
structure RetryCall where
  path : PathBuf
  /-- How many attempts have begun. -/
  attempt : Nat
  /-- The ids of the attempts that failed. -/
  failed : List Nat
  /-- The attempt that is running. -/
  current : Option Nat
  /-- The text of the last error. -/
  last : String
  outcome : Option (Except String String)

/-- The ids under which the call has sent its file. -/
def RetryCall.ids (j : RetryCall) : List Nat := j.failed ++ j.current.toList

structure Duo where
  a : Sender
  /-- Frames queued for `b`, on the wire or in its hub. -/
  toB : List Message
  b : History
  /-- `b`'s outbound channel to `a`. -/
  out : List Message
  /-- Frames that left `b`'s channel and were not handled by `a` yet. -/
  toA : List Message
  retries : List RetryCall

def Duo.start (fs : FileSys PathBuf) : Duo := ⟨Sender.start, [], History.start fs, [], [], []⟩

inductive DuoEvent where
  | sendWithRetry (path : PathBuf)
  /-- The next attempt of a call begins, with what `metadata` says about its path. -/
  | attempt (j : Nat) (stat : Except String (Bool × Nat))
  /-- The attempt has returned. -/
  | settle (j : Nat)
  | sendClipImage (png : Bytes)
  /-- `a` takes an id for a transfer to another peer. -/
  | elsewhere
  | queue (id : Nat)
  | openFile (id : Nat) (err : Option String)
  | read (id : Nat) (res : Except String Bytes)
  | nextChunk (id : Nat)
  | answer (id : Nat)
  | timeout (id : Nat)
  /-- Another frame of `a` for `b`. -/
  | chatA (msg : Message)
  /-- `b`'s router handles the next frame of `a`. -/
  | process (io : Io) (registry : PeersFile)
  /-- `b`'s router handles a frame of another peer. -/
  | foreign (f : Frame)
  /-- Another frame of `b` for `a`. -/
  | chatB (msg : Message)
  /-- `b`'s connection sends the next frame. -/
  | transmit
  /-- `a`'s router handles the next frame of `b`. -/
  | receive

/-- `try_send` on the outbound channel. -/
def trySend (out : List Message) (msg : Message) : List Message :=
  if out.length < outboundCap then out ++ [msg] else out

/-- The message an effect sends to `p`. -/
def Effect.sentTo (p : DeviceId) : Effect → Option Message
  | .send q msg => if q = p then some msg else none
  | _ => none

def sentTo (p : DeviceId) (effects : List Effect) : List Message := effects.filterMap (Effect.sentTo p)

@[simp] theorem sentTo_nil (p : DeviceId) : sentTo p [] = [] := rfl

@[simp] theorem sentTo_append (p : DeviceId) (es es' : List Effect) :
    sentTo p (es ++ es') = sentTo p es ++ sentTo p es' := List.filterMap_append

@[simp] theorem sentTo_send (p q : DeviceId) (msg : Message) (es : List Effect) :
    sentTo p (.send q msg :: es) = if q = p then msg :: sentTo p es else sentTo p es := by
  by_cases h : q = p <;> simp [sentTo, Effect.sentTo, h]

@[simp] theorem sentTo_mkdir (p : DeviceId) (path : PathBuf) (es : List Effect) :
    sentTo p (.mkdir path :: es) = sentTo p es := rfl

@[simp] theorem sentTo_write (p : DeviceId) (path : PathBuf) (es : List Effect) :
    sentTo p (.write path :: es) = sentTo p es := rfl

@[simp] theorem sentTo_rename (p : DeviceId) (src dst : PathBuf) (es : List Effect) :
    sentTo p (.rename src dst :: es) = sentTo p es := rfl

@[simp] theorem sentTo_notify (p : DeviceId) (summary body : String) (es : List Effect) :
    sentTo p (.notify summary body :: es) = sentTo p es := rfl

/-- The transfer a `BlobAck` answers. -/
def ackId : Message → Option Nat
  | .blobAck id _ _ => some id
  | _ => none

section Step

-- the digest function, the receiver's configuration, and the device ids of `a` and `b`
variable (sha256 : Bytes → Digest) (cfg : XferConfig) (ida idb : DeviceId)

/-- `b` handles a frame. -/
def Duo.handle (s : Duo) (f : Frame) : Duo :=
  { s with
    b := receive sha256 cfg s.b f
    out := (sentTo ida (handled sha256 cfg s.b f).2).foldl trySend s.out }

/-- `send_one` up to `stream_blob`; an error ends the attempt. -/
def Duo.beginAttempt (s : Duo) (j : Nat) (r : RetryCall) (stat : Except String (Bool × Nat)) : Duo :=
  match sendOne (some 0) r.path stat with
  | .ok c =>
    { s with
      a := s.a.begin idb c
      retries := s.retries.set j { r with attempt := r.attempt + 1, current := some s.a.nextId } }
  | .error err =>
    { s with
      retries := s.retries.set j { r with
        attempt := r.attempt + 1
        last := err
        outcome := if r.attempt + 1 = sendAttempts then some (.error err) else none } }

/-- The attempt under `id` has returned `result`. -/
def RetryCall.settle (r : RetryCall) (id : Nat) : Except String String → RetryCall
  | .ok detail => { r with outcome := some (.ok detail) }
  | .error err => { r with
      failed := r.failed ++ [id]
      current := none
      last := err
      outcome := if r.attempt = sendAttempts then some (.error err) else none }

def duoStep (s : Duo) : DuoEvent → Option Duo
  | .sendWithRetry path => some { s with retries := s.retries ++ [⟨path, 0, [], none, "", none⟩] }
  | .attempt j stat =>
    match s.retries[j]? with
    | none => none
    | some r =>
      if r.current = none ∧ r.outcome.isNone ∧ r.attempt < sendAttempts then some (s.beginAttempt idb j r stat)
      else none
  | .settle j =>
    match s.retries[j]? with
    | none => none
    | some r =>
      match r.current with
      | none => none
      | some id =>
        match s.a.calls.lookup id with
        | none => none
        | some o =>
          match o.call.phase with
          | .returned result => some { s with retries := s.retries.set j (r.settle id result) }
          | _ => none
  | .sendClipImage png => some { s with a := s.a.begin idb (Qdrop.sendClipImage 0 png) }
  | .elsewhere => some { s with a := { s.a with nextId := s.a.nextId + 1 } }
  | .queue id => (s.a.queue sha256 id).map fun out => { s with a := out.1, toB := s.toB ++ [out.2.2] }
  | .openFile id err => (s.a.update id (·.call.opened err)).map fun a => { s with a := a }
  | .read id res => (s.a.update id (·.call.read res)).map fun a => { s with a := a }
  | .nextChunk id => (s.a.update id (·.call.nextChunk)).map fun a => { s with a := a }
  | .answer id => (s.a.answer id).map fun a => { s with a := a }
  | .timeout id => (s.a.timeout id).map fun a => { s with a := a }
  | .chatA msg => if blobId msg = none then some { s with toB := s.toB ++ [msg] } else none
  | .process io registry =>
    match s.toB with
    | [] => none
    | msg :: rest => some ({ s with toB := rest }.handle sha256 cfg ida ⟨ida, msg, registry, io⟩)
  | .foreign f => if f.peer = ida then none else some (s.handle sha256 cfg ida f)
  | .chatB msg => if ackId msg = none then some { s with out := trySend s.out msg } else none
  | .transmit =>
    match s.out with
    | [] => none
    | msg :: rest => some { s with out := rest, toA := s.toA ++ [msg] }
  | .receive =>
    match s.toA with
    | [] => none
    | msg :: rest => some { s with toA := rest, a := s.a.inbound idb msg }

end Step

/-! ### What handling a frame does -/

def Effect.isRename : Effect → Bool
  | .rename _ _ => true
  | _ => false

def Incoming.isFile (inc : Incoming) : Bool :=
  match inc.sink with
  | .file .. => true
  | .memory _ => false

/-- What a frame of transfer `id` does to the entry of the transfer, with the messages sent back and whether a file was
renamed into place. -/
inductive Handling (id : Nat) : Option Incoming → Message → Option Incoming → List Message → Bool → Prop
  | ignored (m : Message) (hm : ∀ name size purpose, m ≠ .blobStart id name size purpose) :
      Handling id none m none [] false
  | refused (entry : Option Incoming) (name : String) (size : Nat) (purpose : BlobPurpose) (detail : String) :
      Handling id entry (.blobStart id name size purpose) entry [.blobAck id false detail] false
  | opened (entry : Option Incoming) (name : String) (size : Nat) (purpose : BlobPurpose) (inc : Incoming)
      (hfile : inc.isFile = (purpose == .file)) (hname : purpose = .file → safeBlobName name = some inc.name)
      (hnew : inc.hasher = [] ∧ inc.written = 0 ∧ inc.declared = size) :
      Handling id entry (.blobStart id name size purpose) (some inc) [] false
  | extended (inc : Incoming) (data : Bytes) (sink : Sink) (hfile : (inc.push sink data).isFile = inc.isFile) :
      Handling id (some inc) (.blobChunk id data) (some (inc.push sink data)) [] false
  | cut (inc : Incoming) (m : Message) (detail : String)
      (hm : ∀ name size purpose, m ≠ .blobStart id name size purpose) :
      Handling id (some inc) m none [.blobAck id false detail] false
  | clipped (inc : Incoming) (sha : Digest) (detail : String) (hfile : inc.isFile = false) :
      Handling id (some inc) (.blobEnd id sha) none [.blobAck id true detail] false
  | placed (inc : Incoming) (sha : Digest) (hfile : inc.isFile = true) :
      Handling id (some inc) (.blobEnd id sha) none [.blobAck id true inc.name] true

section Handling

variable (sha256 : Bytes → Digest) (cfg : XferConfig) (registry : PeersFile) (io : Io) (rx : Rx) (p : DeviceId)

private theorem sentTo_removed (fs : FileSys PathBuf) (path : PathBuf) :
    (∀ q, sentTo q (tryRemove io fs path).2 = []) ∧ (tryRemove io fs path).2.any Effect.isRename = false := by
  rcases tryRemove_cases io fs path with ⟨_, _, heq⟩ | ⟨_, heq⟩
  · rw [heq]; exact ⟨fun _ => rfl, rfl⟩
  · rw [heq]; exact ⟨fun _ => rfl, rfl⟩

private theorem sentTo_cleanup (fs : FileSys PathBuf) (sink : Sink) :
    (∀ q, sentTo q (cleanup io fs sink).2 = []) ∧ (cleanup io fs sink).2.any Effect.isRename = false := by
  cases sink with
  | file tmp dir file => exact sentTo_removed io fs tmp
  | memory buf => exact ⟨fun _ => rfl, rfl⟩

/-- A handler does one of the things `Handling` lists, to the entry of its transfer only, and sends to nobody else. -/
structure Handles (m : Message) (id : Nat) (out : Rx × List Effect) : Prop where
  entry : Handling id (rx.incoming.lookup (p, id)) m (out.1.incoming.lookup (p, id)) (sentTo p out.2)
    (out.2.any Effect.isRename)
  others : ∀ k, k ≠ (p, id) → out.1.incoming.lookup k = rx.incoming.lookup k
  sends : ∀ q, p ≠ q → sentTo q out.2 = []

theorem onStart_handles (id : Nat) (name : String) (size : Nat) (purpose : BlobPurpose) :
    Handles rx p (.blobStart id name size purpose) id (onStart cfg registry io rx p id name size purpose) := by
  rcases onStart_cases cfg registry io rx p id name size purpose with
    ⟨detail, h⟩ | ⟨fs, detail, -, h⟩ | ⟨hp, -, -, h⟩ | ⟨safe, fs, fs', handle, hp, hsafe, -, -, -, h⟩
  · rw [h]
    refine ⟨?_, fun _ _ => rfl, fun q hq => by simp [reject, hq]⟩
    simpa [reject, Effect.isRename] using Handling.refused _ name size purpose detail
  · rw [h]
    refine ⟨?_, fun _ _ => rfl, fun q hq => by simp [reject, hq]⟩
    simpa [reject, Effect.isRename] using Handling.refused _ name size purpose detail
  · rw [h]
    refine ⟨?_, fun k hk => AList.lookup_insert_ne hk, fun q hq => rfl⟩
    rw [AList.lookup_insert]
    exact .opened _ name size purpose _ (by simp [hp, Incoming.isFile]) (fun h => by rw [hp] at h; cases h)
      ⟨rfl, rfl, rfl⟩
  · rw [h]
    refine ⟨?_, fun k hk => AList.lookup_insert_ne hk, fun q hq => rfl⟩
    rw [AList.lookup_insert]
    exact .opened _ name size purpose _ (by simp [hp, Incoming.isFile]) (fun _ => hsafe) ⟨rfl, rfl, rfl⟩

theorem onChunk_handles (id : Nat) (data : Bytes) :
    Handles rx p (.blobChunk id data) id (onChunk io rx p id data) := by
  rcases onChunk_cases io rx p id data with
    ⟨hl, h⟩ | ⟨inc, tmp, dir, file, fs, file', hl, hs, -, h⟩ | ⟨inc, tmp, dir, file, fs, file', hl, hs, -, h⟩ |
    ⟨inc, buf, hl, hs, -, h⟩ | ⟨inc, buf, hl, hs, h⟩
  · rw [h]
    refine ⟨?_, fun _ _ => rfl, fun q hq => rfl⟩
    rw [hl]
    exact .ignored _ (fun _ _ _ h => by cases h)
  · rw [h]
    refine ⟨?_, fun k hk => AList.lookup_insert_ne hk, fun q hq => rfl⟩
    rw [hl, AList.lookup_insert]
    exact .extended inc data _ (by simp [Incoming.isFile, Incoming.push, hs])
  · rw [h]
    obtain ⟨h₁, h₂⟩ := sentTo_removed io fs tmp
    refine ⟨?_, fun k hk => AList.lookup_erase_ne hk, fun q hq => by simp [h₁, reject, hq]⟩
    rw [hl, AList.lookup_erase]
    simpa [h₁, h₂, reject, Effect.isRename] using
      Handling.cut inc (.blobChunk id data) "write failed" (fun _ _ _ h => by cases h)
  · rw [h]
    refine ⟨?_, fun k hk => AList.lookup_insert_ne hk, fun q hq => rfl⟩
    rw [hl, AList.lookup_insert]
    exact .extended inc data _ (by simp [Incoming.isFile, Incoming.push, hs])
  · rw [h]
    refine ⟨?_, fun k hk => AList.lookup_erase_ne hk, fun q hq => by simp [reject, hq]⟩
    rw [hl, AList.lookup_erase]
    simpa [reject, Effect.isRename] using
      Handling.cut inc (.blobChunk id data) "clipboard image too large" (fun _ _ _ h => by cases h)

theorem onEnd_handles (id : Nat) (sha : Digest) :
    Handles rx p (.blobEnd id sha) id (onEnd sha256 cfg registry io rx p id sha) := by
  rcases onEnd_cases sha256 cfg registry io rx p id sha with
    ⟨hl, h⟩ | ⟨inc, detail, hl, h⟩ | ⟨inc, bytes, hl, -, hs, h⟩ | ⟨inc, tmp, dir, file, fs, shown, hl, -, hs, -, h⟩ |
    ⟨inc, tmp, dir, file, detail, hl, hs, h⟩
  · rw [h]
    refine ⟨?_, fun _ _ => rfl, fun q hq => rfl⟩
    rw [hl]
    exact .ignored _ (fun _ _ _ h => by cases h)
  · rw [h]
    obtain ⟨h₁, h₂⟩ := sentTo_cleanup io rx.fs inc.sink
    refine ⟨?_, fun k hk => AList.lookup_erase_ne hk, fun q hq => by simp [h₁, reject, hq]⟩
    rw [hl, AList.lookup_erase]
    simpa [h₁, h₂, reject, Effect.isRename] using
      Handling.cut inc (.blobEnd id sha) detail (fun _ _ _ h => by cases h)
  · rw [h]
    have h₁ : ∀ q, sentTo q (if cfg.clipSink then [Effect.clip bytes] else []) = [] := by
      intro q
      split <;> rfl
    have h₂ : (if cfg.clipSink then [Effect.clip bytes] else []).any Effect.isRename = false := by
      split <;> rfl
    refine ⟨?_, fun k hk => AList.lookup_erase_ne hk, fun q hq => by simp [h₁, hq]⟩
    rw [hl, AList.lookup_erase, sentTo_append, h₁, List.any_append, h₂]
    simpa [Effect.isRename] using Handling.clipped inc sha "clipboard-image" (by simp [Incoming.isFile, hs])
  · rw [h]
    refine ⟨?_, fun k hk => AList.lookup_erase_ne hk, fun q hq => by simp [hq]⟩
    rw [hl, AList.lookup_erase]
    simpa [Effect.isRename] using Handling.placed inc sha (by simp [Incoming.isFile, hs])
  · rw [h]
    obtain ⟨h₁, h₂⟩ := sentTo_removed io rx.fs tmp
    refine ⟨?_, fun k hk => AList.lookup_erase_ne hk, fun q hq => by simp [h₁, reject, hq]⟩
    rw [hl, AList.lookup_erase]
    simpa [h₁, h₂, reject, Effect.isRename] using
      Handling.cut inc (.blobEnd id sha) detail (fun _ _ _ h => by cases h)

/-- A frame either belongs to a transfer, or does nothing. -/
theorem handleBlob_handles (m : Message) :
    (∃ id, blobId m = some id ∧ Handles rx p m id (handleBlob sha256 cfg registry io rx p m)) ∨
      (blobId m = none ∧ handleBlob sha256 cfg registry io rx p m = (rx, [])) := by
  cases m with
  | blobStart id name size purpose => exact Or.inl ⟨id, rfl, onStart_handles cfg registry io rx p id name size purpose⟩
  | blobChunk id data => exact Or.inl ⟨id, rfl, onChunk_handles io rx p id data⟩
  | blobEnd id sha => exact Or.inl ⟨id, rfl, onEnd_handles sha256 cfg registry io rx p id sha⟩
  | _ => exact Or.inr ⟨rfl, rfl⟩

end Handling

/-! ### One transfer at a time -/

/-- The id of a transfer of `p` whose file a logged frame has put in place. -/
def placedId (p : DeviceId) (h : Frame × List Effect) : Option Nat :=
  match h.1.msg with
  | .blobEnd id _ => if h.1.peer = p ∧ h.2.any Effect.isRename = true then some id else none
  | _ => none

/-- The transfers of `p` whose files were renamed into place, in order. -/
def placedIds (p : DeviceId) (log : Log) : List Nat := log.filterMap (placedId p)

/-- What the system knows of one transfer. -/
structure Transfer where
  call : Option Outgoing
  waiter : Bool
  /-- Its frames on their way to the receiver. -/
  frames : List Message
  /-- The receiver's entry. -/
  entry : Option Incoming
  /-- Its acknowledgements on their way back. -/
  answers : List Message
  /-- Its acknowledgements that have come in. -/
  heard : List Message
  /-- How often its file was put in place. -/
  placed : Nat

/-- The transfer `id` of the device `p`. -/
def Duo.transfer (p : DeviceId) (s : Duo) (id : Nat) : Transfer where
  call := s.a.calls.lookup id
  waiter := decide (id ∈ s.a.acks)
  frames := s.toB.filter (blobId · = some id)
  entry := s.b.rx.incoming.lookup (p, id)
  answers := (s.toA ++ s.out).filter (ackId · = some id)
  heard := (s.a.heard.map Prod.snd).filter (ackId · = some id)
  placed := (placedIds p s.b.log).count id

/-- The steps of `stream_blob` that neither queue nor wait. -/
inductive LocalStep where
  | opened (err : Option String)
  | read (res : Except String Bytes)
  | nextChunk

def SendCall.goOn (c : SendCall) : LocalStep → Option SendCall
  | .opened err => c.opened err
  | .read res => c.read res
  | .nextChunk => c.nextChunk

theorem SendCall.goOn_readsOn {c c' : SendCall} {l : LocalStep} (h : c.goOn l = some c') : c.ReadsOn c' := by
  cases l with
  | opened err => exact (opened_cases h).1
  | read res => exact (read_cases h).1
  | nextChunk => exact (nextChunk_cases h).1

inductive Move where
  | begin (c : SendCall)
  | queue
  | goOn (l : LocalStep)
  | answer
  | timeout
  /-- The receiver handles a frame: its answers, whether a file was renamed into place, and whether there was room for
  the answers. -/
  | handle (acks : List Message) (renamed room : Bool)
  | hear

/-- The steps of one transfer. -/
inductive TransferStep (sha256 : Bytes → Digest) (peer : DeviceId) (id : Nat) : Move → Transfer → Transfer → Prop
  | begin (t : Transfer) (c : SendCall) (hnone : t.call = none) (hc : c.isStarting = true) :
      TransferStep sha256 peer id (.begin c) t { t with call := some ⟨peer, c, none, none⟩, waiter := true }
  | queue (t : Transfer) (o : Outgoing) (m : Message) (hl : t.call = some o) (hm : o.call.frame sha256 id = some m) :
      TransferStep sha256 peer id .queue t
        { t with call := some { o with call := o.call.queued }, frames := t.frames ++ [m] }
  | goOn (t : Transfer) (o : Outgoing) (l : LocalStep) (c : SendCall) (hl : t.call = some o)
      (hc : o.call.goOn l = some c) :
      TransferStep sha256 peer id (.goOn l) t
        { t with call := some { o with call := c }, waiter := t.waiter && !c.hasReturned }
  | answer (t : Transfer) (o : Outgoing) (ok : Bool) (detail : String) (c : SendCall) (hl : t.call = some o)
      (hack : o.ack = some (ok, detail)) (hc : o.call.answered (.ack ok detail) = some c) :
      TransferStep sha256 peer id .answer t { t with call := some { o with call := c }, waiter := false }
  | timeout (t : Transfer) (o : Outgoing) (c : SendCall) (hl : t.call = some o) (hack : o.ack = none)
      (hc : o.call.answered .timeout = some c) :
      TransferStep sha256 peer id .timeout t { t with call := some { o with call := c }, waiter := false }
  | handle (t : Transfer) (m : Message) (rest : List Message) (entry : Option Incoming) (acks : List Message)
      (renamed room : Bool) (hm : t.frames = m :: rest) (hh : Handling id t.entry m entry acks renamed) :
      TransferStep sha256 peer id (.handle acks renamed room) t
        { t with
          frames := rest
          entry := entry
          answers := t.answers ++ if room then acks else []
          placed := t.placed + renamed.toNat }
  | hear (t : Transfer) (ok : Bool) (detail : String) (rest : List Message)
      (ha : t.answers = .blobAck id ok detail :: rest) :
      TransferStep sha256 peer id .hear t
        { t with
          call := if t.waiter then
            t.call.map fun o => { o with ack := some (ok, detail), resolvedBy := some peer } else t.call
          waiter := false
          answers := rest
          heard := t.heard ++ [.blobAck id ok detail] }

/-- What the system has to do for a transfer to begin, to queue a frame, to go on, to time out or to have a frame
handled. -/
def Move.Caused (sha256 : Bytes → Digest) (cfg : XferConfig) (ida : DeviceId) (s : Duo) (e : DuoEvent) (id : Nat) :
    Move → Prop
  | .begin c => id = s.a.nextId ∧
      ((∃ j r stat, e = .attempt j stat ∧ s.retries[j]? = some r ∧ sendOne (some 0) r.path stat = .ok c) ∨
        ∃ png, e = .sendClipImage png ∧ c = sendClipImage 0 png)
  | .queue => e = .queue id
  | .goOn (.opened err) => e = .openFile id err
  | .goOn (.read res) => e = .read id res
  | .timeout => e = .timeout id
  | .handle acks renamed room => ∃ io registry m rest, e = .process io registry ∧ s.toB = m :: rest ∧
      blobId m = some id ∧ acks = sentTo ida (handled sha256 cfg s.b ⟨ida, m, registry, io⟩).2 ∧
      renamed = (handled sha256 cfg s.b ⟨ida, m, registry, io⟩).2.any Effect.isRename ∧
      room = decide (s.out.length < outboundCap)
  | _ => True

section Transfers

variable {sha256 : Bytes → Digest} {cfg : XferConfig} {ida idb : DeviceId} {s s' : Duo} {e : DuoEvent} {id k : Nat}

/-- The transfer either stays as it is, or takes a step that the event causes. -/
def Moves (sha256 : Bytes → Digest) (cfg : XferConfig) (ida idb : DeviceId) (s : Duo) (e : DuoEvent) (s' : Duo)
    (id : Nat) : Prop :=
  s'.transfer ida id = s.transfer ida id ∨
    ∃ mv, TransferStep sha256 idb id mv (s.transfer ida id) (s'.transfer ida id) ∧ mv.Caused sha256 cfg ida s e id

private theorem transfer_put {o : Outgoing} {c : SendCall} {toB : List Message} (hne : id ≠ k)
    (hf : toB.filter (blobId · = some id) = s.toB.filter (blobId · = some id)) :
    { s with a := s.a.put k o c, toB := toB }.transfer ida id = s.transfer ida id := by
  have hw : (id ∈ if c.hasReturned = true then s.a.acks.erase k else s.a.acks) ↔ id ∈ s.a.acks := by
    split
    · exact ⟨Finset.mem_of_mem_erase, fun h => Finset.mem_erase.2 ⟨hne, h⟩⟩
    · exact Iff.rfl
  simp only [Duo.transfer, Sender.put, AList.lookup_insert_ne hne, hw, hf]

private theorem transfer_put_self (o : Outgoing) (c : SendCall) (toB : List Message) :
    { s with a := s.a.put k o c, toB := toB }.transfer ida k =
      { s.transfer ida k with
        call := some { o with call := c }
        waiter := decide (k ∈ s.a.acks) && !c.hasReturned
        frames := toB.filter (blobId · = some k) } := by
  simp only [Duo.transfer, Sender.put, AList.lookup_insert]
  congr 1
  by_cases h : c.hasReturned = true <;> simp [h]

private theorem moves_begin (hf : ∀ id, s.a.nextId ≤ id → s.a.calls.lookup id = none) {c : SendCall}
    (hc : c.isStarting = true) (retries : List RetryCall) {e : DuoEvent}
    (hcaused : (Move.begin c).Caused sha256 cfg ida s e s.a.nextId) :
    Moves sha256 cfg ida idb s e { s with a := s.a.begin idb c, retries := retries } id := by
  by_cases hne : id = s.a.nextId
  · subst hne
    refine Or.inr ⟨.begin c, ?_, hcaused⟩
    have : TransferStep sha256 idb s.a.nextId (.begin c) _ _ :=
      .begin (s.transfer ida s.a.nextId) c (hf _ le_rfl) hc
    simpa [Duo.transfer, Sender.begin, AList.lookup_insert] using this
  · left
    have hw : id ∈ insert s.a.nextId s.a.acks ↔ id ∈ s.a.acks := by simp [hne]
    simp only [Duo.transfer, Sender.begin, AList.lookup_insert_ne hne, hw]

private theorem SendCall.queued_hasReturned {c : SendCall} {m : Message} (h : c.frame sha256 id = some m) :
    c.queued.hasReturned = false := by
  obtain ⟨conn, name, size, purpose, source, hasher, phase⟩ := c
  cases phase with
  | starting => cases source <;> rfl
  | sending data => rfl
  | ending => rfl
  | opening | reading | awaiting | returned => cases h

private theorem SendCall.blobId_frame {c : SendCall} {m : Message} (h : c.frame sha256 id = some m) :
    blobId m = some id := by
  rcases c.frame_cases h with ⟨-, rfl, -⟩ | ⟨data, -, rfl, -⟩ | ⟨sha, -, rfl, -⟩ <;> rfl

private theorem moves_queue {out : Sender × DeviceId × Message} (hq : s.a.queue sha256 k = some out) :
    Moves sha256 cfg ida idb s (.queue k) { s with a := out.1, toB := s.toB ++ [out.2.2] } id := by
  obtain ⟨o, m, hl, hm, rfl⟩ := Sender.queue_cases hq
  have hk := SendCall.blobId_frame hm
  by_cases hne : id = k
  · subst hne
    refine Or.inr ⟨.queue, ?_, rfl⟩
    dsimp only
    rw [transfer_put_self, SendCall.queued_hasReturned hm, List.filter_append]
    have : TransferStep sha256 idb id .queue _ _ := .queue (s.transfer ida id) o m hl hm
    simpa [Duo.transfer, hk] using this
  · left
    refine transfer_put hne ?_
    have : ¬ k = id := fun h => hne h.symm
    simp [List.filter_append, hk, this]

private theorem moves_update {f : Outgoing → Option SendCall} {a : Sender} (h : s.a.update k f = some a)
    (hmv : ∀ o c, s.a.calls.lookup k = some o → f o = some c → ∃ mv, TransferStep sha256 idb k mv (s.transfer ida k)
      { s.transfer ida k with call := some { o with call := c }, waiter := decide (k ∈ s.a.acks) && !c.hasReturned } ∧
      mv.Caused sha256 cfg ida s e k) : Moves sha256 cfg ida idb s e { s with a := a } id := by
  obtain ⟨o, c, hl, hc, rfl⟩ := Sender.update_cases h
  obtain ⟨mv, hmv, hcaused⟩ := hmv o c hl hc
  by_cases hne : id = k
  · subst hne
    refine Or.inr ⟨mv, ?_, hcaused⟩
    rw [transfer_put_self o c s.toB]
    exact hmv
  · exact Or.inl (transfer_put hne rfl)

private theorem moves_local {a : Sender} (l : LocalStep) (h : s.a.update k (·.call.goOn l) = some a)
    (hcaused : (Move.goOn l).Caused sha256 cfg ida s e k) : Moves sha256 cfg ida idb s e { s with a := a } id :=
  moves_update h fun o c hl hc => ⟨.goOn l, .goOn (s.transfer ida k) o l c hl hc, hcaused⟩

private theorem answered_hasReturned {c c' : SendCall} {answer : SendCall.Answer} (h : c.answered answer = some c') :
    c'.hasReturned = true := by
  unfold SendCall.answered at h
  split at h
  · split at h <;> (cases h; rfl)
  · cases h

private theorem moves_answer {a : Sender} (h : s.a.answer k = some a) :
    Moves sha256 cfg ida idb s e { s with a := a } id := by
  refine moves_update h fun o c hl hc => ⟨.answer, ?_, trivial⟩
  split at hc
  · rename_i ok detail hack
    rw [answered_hasReturned hc, Bool.not_true, Bool.and_false]
    exact .answer (s.transfer ida k) o ok detail c hl hack hc
  · cases hc

private theorem moves_timeout {a : Sender} (h : s.a.timeout k = some a) :
    Moves sha256 cfg ida idb s (.timeout k) { s with a := a } id := by
  refine moves_update h fun o c hl hc => ⟨.timeout, ?_, rfl⟩
  split at hc
  · cases hc
  · rename_i hack
    rw [answered_hasReturned hc, Bool.not_true, Bool.and_false]
    exact .timeout (s.transfer ida k) o c hl hack hc

/-! The receiver's steps. -/

private theorem Handling.acks {entry entry' : Option Incoming} {m : Message} {acks : List Message} {renamed : Bool}
    (h : Handling id entry m entry' acks renamed) : ∀ a ∈ acks, ackId a = some id := by
  cases h <;> simp [ackId]

theorem Handling.acks_length {entry entry' : Option Incoming} {m : Message} {acks : List Message}
    {renamed : Bool} (h : Handling id entry m entry' acks renamed) : acks.length ≤ 1 := by
  cases h <;> simp

/-- Only the end of a transfer puts a file in place. -/
theorem Handling.renamed_end {entry entry' : Option Incoming} {m : Message} {acks : List Message}
    (h : Handling id entry m entry' acks true) : ∃ sha, m = .blobEnd id sha := by
  cases h
  exact ⟨_, rfl⟩

theorem placedId_none {f : Frame} {effs : List Effect} (h : effs.any Effect.isRename = false) :
    placedId ida (f, effs) = none := by
  unfold placedId
  split <;> simp [h]

private theorem Handling.placedId {entry entry' : Option Incoming} {f : Frame} {acks : List Message}
    {effs : List Effect} (h : Handling id entry f.msg entry' acks (effs.any Effect.isRename)) (hp : f.peer = ida) :
    Qdrop.placedId ida (f, effs) = if effs.any Effect.isRename then some id else none := by
  cases hr : effs.any Effect.isRename with
  | false => simp [placedId_none hr]
  | true =>
    rw [hr] at h
    obtain ⟨sha, hm⟩ := h.renamed_end
    simp [Qdrop.placedId, hm, hp, hr]

theorem placedIds_receive (f : Frame) :
    placedIds ida (receive sha256 cfg s.b f).log =
      placedIds ida s.b.log ++ (placedId ida (f, (handled sha256 cfg s.b f).2)).toList := by
  simp only [placedIds, receive, List.filterMap_append]
  cases h : placedId ida (f, (handled sha256 cfg s.b f).2) <;> simp [h]

private theorem filter_trySend (out msgs : List Message) (hlen : msgs.length ≤ 1) (q : Message → Bool) :
    (msgs.foldl trySend out).filter q =
      out.filter q ++ (if out.length < outboundCap then msgs else []).filter q := by
  match msgs with
  | [] => split <;> simp
  | [m] =>
    simp only [List.foldl_cons, List.foldl_nil, trySend]
    split
    · rw [List.filter_append]
    · simp
  | _ :: _ :: _ => simp at hlen

/-- The receiver's log grows by one frame, and the acknowledgements by what there is room for. -/
private theorem transfer_handle {f : Frame} {toB : List Message} (h : Handles s.b.rx f.peer f.msg k
      (handled sha256 cfg s.b f)) (hp : f.peer = ida) (hne : id ≠ k)
    (hf : toB.filter (blobId · = some id) = s.toB.filter (blobId · = some id)) :
    ({ s with toB := toB }.handle sha256 cfg ida f).transfer ida id = s.transfer ida id := by
  obtain ⟨he, hothers, -⟩ := h
  have hlk : (receive sha256 cfg s.b f).rx.incoming.lookup (ida, id) = s.b.rx.incoming.lookup (ida, id) :=
    hothers (ida, id) (by simp [hne])
  have hans : ((sentTo ida (handled sha256 cfg s.b f).2).foldl trySend s.out).filter (ackId · = some id) =
      s.out.filter (ackId · = some id) := by
    subst hp
    rw [filter_trySend _ _ he.acks_length]
    have hnil : (if s.out.length < outboundCap then sentTo f.peer (handled sha256 cfg s.b f).2 else []).filter
        (ackId · = some id) = [] := by
      split
      · refine List.filter_eq_nil_iff.2 fun a ha => ?_
        rw [he.acks a ha]
        simpa using fun h => hne h.symm
      · rfl
    rw [hnil, List.append_nil]
  have hcount : (placedIds ida (receive sha256 cfg s.b f).log).count id = (placedIds ida s.b.log).count id := by
    rw [placedIds_receive, he.placedId hp, List.count_append]
    split <;> simp [hne.symm]
  simp only [Duo.transfer, Duo.handle, hlk, hf, List.filter_append, hans, hcount]
  rfl

private theorem transfer_handle_self {f : Frame} {toB : List Message}
    (h : Handles s.b.rx f.peer f.msg k (handled sha256 cfg s.b f)) (hp : f.peer = ida) :
    ({ s with toB := toB }.handle sha256 cfg ida f).transfer ida k =
      { s.transfer ida k with
        frames := toB.filter (blobId · = some k)
        entry := (handled sha256 cfg s.b f).1.incoming.lookup (ida, k)
        answers := (s.transfer ida k).answers ++
          if decide (s.out.length < outboundCap) then sentTo ida (handled sha256 cfg s.b f).2 else []
        placed := (s.transfer ida k).placed + ((handled sha256 cfg s.b f).2.any Effect.isRename).toNat } := by
  obtain ⟨he, -, -⟩ := h
  have hans : ((sentTo ida (handled sha256 cfg s.b f).2).foldl trySend s.out).filter (ackId · = some k) =
      s.out.filter (ackId · = some k) ++
        if decide (s.out.length < outboundCap) then sentTo ida (handled sha256 cfg s.b f).2 else [] := by
    subst hp
    rw [filter_trySend _ _ he.acks_length]
    congr 1
    simp only [decide_eq_true_eq]
    split
    · exact List.filter_eq_self.2 fun a ha => by simp [he.acks a ha]
    · rfl
  have hcount : (placedIds ida (receive sha256 cfg s.b f).log).count k =
      (placedIds ida s.b.log).count k + ((handled sha256 cfg s.b f).2.any Effect.isRename).toNat := by
    rw [placedIds_receive, he.placedId hp, List.count_append]
    cases (handled sha256 cfg s.b f).2.any Effect.isRename <;> simp
  simp only [Duo.transfer, Duo.handle, List.filter_append, hans, hcount, List.append_assoc]
  rfl

private theorem moves_process {io : Io} {registry : PeersFile} {m : Message} {rest : List Message}
    (hq : s.toB = m :: rest) :
    Moves sha256 cfg ida idb s (.process io registry)
      ({ s with toB := rest }.handle sha256 cfg ida ⟨ida, m, registry, io⟩) id := by
  rcases handleBlob_handles sha256 cfg registry io s.b.rx ida m with ⟨k, hk, h⟩ | ⟨hk, h⟩
  · have h : Handles s.b.rx ida m k (handled sha256 cfg s.b ⟨ida, m, registry, io⟩) := h
    by_cases hne : id = k
    · subst hne
      refine Or.inr ⟨.handle (sentTo ida (handled sha256 cfg s.b ⟨ida, m, registry, io⟩).2)
        ((handled sha256 cfg s.b ⟨ida, m, registry, io⟩).2.any Effect.isRename) (decide (s.out.length < outboundCap)),
        ?_, io, registry, m, rest, rfl, hq, hk, rfl, rfl, rfl⟩
      rw [transfer_handle_self (f := ⟨ida, m, registry, io⟩) h rfl]
      refine .handle (s.transfer ida id) m _ _ _ _ _ ?_ h.entry
      simp [Duo.transfer, hq, hk]
    · refine Or.inl (transfer_handle (f := ⟨ida, m, registry, io⟩) h rfl hne ?_)
      have : ¬ k = id := fun h => hne h.symm
      simp [hq, hk, this]
  · left
    have h : handled sha256 cfg s.b ⟨ida, m, registry, io⟩ = (s.b.rx, []) := h
    have hrx : (receive sha256 cfg s.b ⟨ida, m, registry, io⟩).rx = s.b.rx := by simp [receive, h]
    have hlog : placedIds ida (receive sha256 cfg s.b ⟨ida, m, registry, io⟩).log = placedIds ida s.b.log := by
      rw [placedIds_receive, h, placedId_none rfl]
      simp
    simp [Duo.transfer, Duo.handle, hrx, hlog, h, hq, hk]

private theorem moves_foreign {f : Frame} (hp : f.peer ≠ ida) :
    Moves sha256 cfg ida idb s e (s.handle sha256 cfg ida f) id := by
  left
  have hlog : placedIds ida (receive sha256 cfg s.b f).log = placedIds ida s.b.log := by
    have hnone : placedId ida (f, (handled sha256 cfg s.b f).2) = none := by
      unfold placedId
      split <;> simp [hp]
    rw [placedIds_receive, hnone]
    simp
  rcases handleBlob_handles sha256 cfg f.registry f.io s.b.rx f.peer f.msg with ⟨k, hk, h⟩ | ⟨hk, h⟩
  · have hsent : sentTo ida (handled sha256 cfg s.b f).2 = [] := h.sends ida hp
    have hlk : (receive sha256 cfg s.b f).rx.incoming.lookup (ida, id) = s.b.rx.incoming.lookup (ida, id) :=
      h.others (ida, id) (fun h => hp (congrArg Prod.fst h).symm)
    simp [Duo.transfer, Duo.handle, hlk, hlog, hsent]
  · have h : handled sha256 cfg s.b f = (s.b.rx, []) := h
    have hrx : (receive sha256 cfg s.b f).rx = s.b.rx := by simp [receive, h]
    simp [Duo.transfer, Duo.handle, hrx, hlog, h]

/-- What a `BlobAck` does to the calls and the waiters, one id at a time. -/
private theorem onAck_lookup (a : Sender) (q : DeviceId) (ok : Bool) (detail : String) (id : Nat) :
    ((a.onAck q k ok detail).calls.lookup id = if id = k ∧ k ∈ a.acks then
      (a.calls.lookup id).map fun o => { o with ack := some (ok, detail), resolvedBy := some q }
        else a.calls.lookup id) ∧
      (id ∈ (a.onAck q k ok detail).acks ↔ id ≠ k ∧ id ∈ a.acks) := by
  unfold Sender.onAck
  by_cases hk : k ∈ a.acks
  · simp only [hk, if_true, and_true, Finset.mem_erase]
    by_cases hne : id = k
    · subst hne
      cases hl : a.calls.lookup id with
      | none => simp [hl]
      | some o => simp [AList.lookup_insert]
    · cases hl : a.calls.lookup k with
      | none => simp [hne]
      | some o => simp [hne, AList.lookup_insert_ne hne]
  · simp only [hk, if_false, and_false]
    exact ⟨trivial, fun h => ⟨fun e => hk (e ▸ h), h⟩, fun h => h.2⟩

private theorem onAck_heard (a : Sender) (q : DeviceId) (ok : Bool) (detail : String) :
    (a.onAck q k ok detail).heard = a.heard := by
  unfold Sender.onAck
  split <;> rfl

private theorem moves_receive {m : Message} {rest : List Message} (hq : s.toA = m :: rest) :
    Moves sha256 cfg ida idb s e { s with toA := rest, a := s.a.inbound idb m } id := by
  cases m with
  | blobAck k ok detail =>
    obtain ⟨hcall, hwaiter⟩ := onAck_lookup (k := k) { s.a with heard := s.a.heard ++ [(idb, .blobAck k ok detail)] }
      idb ok detail id
    dsimp only at hcall hwaiter
    by_cases hne : id = k
    · subst hne
      refine Or.inr ⟨.hear, ?_, trivial⟩
      have hstep : TransferStep sha256 idb id .hear _ _ := .hear (s.transfer ida id) ok detail
        ((rest ++ s.out).filter (ackId · = some id)) (by simp [Duo.transfer, hq, ackId])
      simpa [Duo.transfer, Sender.inbound, hcall, hwaiter, onAck_heard, ackId] using hstep
    · left
      have hk : ¬ k = id := fun h => hne h.symm
      simp [Duo.transfer, Sender.inbound, hcall, hwaiter, onAck_heard, hq, ackId, hk, hne]
  | _ =>
    left
    simp [Duo.transfer, Sender.inbound, hq, ackId]
    rfl

theorem sendOne_starting {conn : Option Nat} {path : PathBuf} {stat : Except String (Bool × Nat)} {c : SendCall}
    (h : sendOne conn path stat = .ok c) : c.isStarting = true ∧ c.purpose = .file := by
  unfold sendOne at h
  repeat' split at h
  all_goals cases h
  exact ⟨rfl, rfl⟩

/-- The step lemma: every transfer stays as it is or takes a step of its own. -/
theorem transfer_step (hf : ∀ id, s.a.nextId ≤ id → s.a.calls.lookup id = none)
    (hs : duoStep sha256 cfg ida idb s e = some s') (id : Nat) : Moves sha256 cfg ida idb s e s' id := by
  cases e with
  | sendWithRetry path =>
    cases hs
    exact Or.inl rfl
  | attempt j stat =>
    simp only [duoStep] at hs
    split at hs
    · cases hs
    · rename_i r hr
      split at hs
      · cases hs
        unfold Duo.beginAttempt
        split
        · rename_i c hc
          exact moves_begin hf (sendOne_starting hc).1 _ ⟨rfl, Or.inl ⟨j, r, stat, rfl, hr, hc⟩⟩
        · exact Or.inl rfl
      · cases hs
  | settle j =>
    simp only [duoStep] at hs
    repeat' split at hs
    all_goals cases hs
    exact Or.inl rfl
  | sendClipImage png =>
    cases hs
    exact moves_begin hf rfl s.retries ⟨rfl, Or.inr ⟨png, rfl, rfl⟩⟩
  | elsewhere =>
    cases hs
    exact Or.inl rfl
  | queue k =>
    obtain ⟨out, hq, rfl⟩ := Option.map_eq_some_iff.1 hs
    exact moves_queue hq
  | openFile k err =>
    obtain ⟨a, ha, rfl⟩ := Option.map_eq_some_iff.1 hs
    exact moves_local (.opened err) ha rfl
  | read k res =>
    obtain ⟨a, ha, rfl⟩ := Option.map_eq_some_iff.1 hs
    exact moves_local (.read res) ha rfl
  | nextChunk k =>
    obtain ⟨a, ha, rfl⟩ := Option.map_eq_some_iff.1 hs
    exact moves_local .nextChunk ha trivial
  | answer k =>
    obtain ⟨a, ha, rfl⟩ := Option.map_eq_some_iff.1 hs
    exact moves_answer ha
  | timeout k =>
    obtain ⟨a, ha, rfl⟩ := Option.map_eq_some_iff.1 hs
    exact moves_timeout ha
  | chatA msg =>
    simp only [duoStep] at hs
    split at hs
    · rename_i hm
      cases hs
      exact Or.inl (by simp [Duo.transfer, hm])
    · cases hs
  | process io registry =>
    simp only [duoStep] at hs
    split at hs
    · cases hs
    · rename_i m rest hq
      cases hs
      exact moves_process hq
  | foreign f =>
    simp only [duoStep] at hs
    split at hs
    · cases hs
    · rename_i hp
      cases hs
      exact moves_foreign hp
  | chatB msg =>
    simp only [duoStep] at hs
    split at hs
    · rename_i hm
      cases hs
      left
      unfold trySend
      split
      · simp [Duo.transfer, hm]
      · rfl
    · cases hs
  | transmit =>
    simp only [duoStep] at hs
    split at hs
    · cases hs
    · rename_i m rest hq
      cases hs
      exact Or.inl (by simp [Duo.transfer, hq, List.filter_cons])
  | receive =>
    simp only [duoStep] at hs
    split at hs
    · cases hs
    · rename_i m rest hq
      cases hs
      exact moves_receive hq

end Transfers

end Qdrop
