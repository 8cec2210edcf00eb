import Qdrop.Connection.Loop
import Qdrop.Connection.Stream
import Qdrop.Lib.Run

/-!
# What a connection relays

`run` between its stream, its outbound channel and the hub.  The reader task takes the bytes of the stream and the
loop the decoded frames; an application frame goes to the hub, and the loop polls nothing until the hub has taken it.
What went by is recorded: the bytes that arrived and were sent, the messages queued, the frames taken and the messages
written with the branch they come from.  `relay_faithful` compares these records in every state of every run.
-/

namespace Qdrop

open Lib

/-- Everything but the handshake and the keepalive goes to the subsystems. -/
def Message.isApplication : Message → Bool
  | .hello _ | .ping _ | .pong _ => false
  | .clipboard .. | .blobStart .. | .blobChunk .. | .blobEnd .. | .blobAck .. | .openUrl _ | .authRequest ..
  | .authReply .. => true

/-- The answer to a `Ping`. -/
def Message.reply : Message → Option Message
  | .ping seq => some (.pong seq)
  | _ => none

/-- The branch of the loop that writes a message. -/
inductive Origin where
  | outbound
  | keepAlive
  | reply
deriving DecidableEq, Repr

structure Relay where
  ep : Endpoint
  /-- The frame inside `wire.inbound.send`. -/
  handing : Option Message
  hub : List (DeviceId × Message)
  /-- The bytes the reader task has taken off the stream. -/
  arrived : Bytes
  /-- The bytes the loop has put on the stream. -/
  sent : Bytes
  /-- The messages queued on the outbound channel so far. -/
  pushed : List Message
  /-- The frames the loop has taken so far. -/
  taken : List Message
  /-- The messages `write_message` was called for so far. -/
  writes : List (Origin × Message)

namespace Relay

def start : Relay := ⟨.start, none, [], [], [], [], [], []⟩

def writesOf (s : Relay) (o : Origin) : List Message := (s.writes.filter (·.1 = o)).map Prod.snd

end Relay

/-- The branches of `select!`, which are polled while the loop is in none of them. -/
def LocalEvent.isBranch : LocalEvent → Bool
  | .tick | .idleTimeout | .takeOutbound | .takeFrame => true
  | .push _ | .dropSenders | .forward => false

def LocalEvent.origin : LocalEvent → Origin
  | .tick => .keepAlive
  | .takeFrame => .reply
  | .push _ | .dropSenders | .idleTimeout | .takeOutbound | .forward => .outbound

def LocalEvent.queued : LocalEvent → List Message
  | .push msg => [msg]
  | .dropSenders | .tick | .idleTimeout | .takeOutbound | .takeFrame | .forward => []

/-- The frame the event takes off the frames channel. -/
def Endpoint.nextFrame (ep : Endpoint) : LocalEvent → Option Message
  | .takeFrame =>
    match ep.frames with
    | .ok msg :: _ => some msg
    | _ => none
  | .push _ | .dropSenders | .tick | .idleTimeout | .takeOutbound | .forward => none

/-- The end after an event of its own; what the loop has added to `inbound` is on its way to the hub. -/
def Relay.record (s : Relay) (e : LocalEvent) (ep : Endpoint) : Relay :=
  { s with
    ep := ep
    handing := s.handing <|> ep.inbound[s.ep.inbound.length]?
    pushed := s.pushed ++ e.queued
    taken := s.taken ++ (s.ep.nextFrame e).toList
    writes := s.writes ++ (s.ep.nextMessage e).toList.map (e.origin, ·) }

inductive RelayEvent where
  | own (e : LocalEvent)
  /-- The reader task takes bytes off the stream. -/
  | read (bytes : Bytes)
  /-- The stream ends, or a read fails. -/
  | readFails (stop : StreamEnd)
  /-- `n` bytes of the message being written go out. -/
  | wrote (n : Nat)
  | writeFails
  /-- The hub takes the frame. -/
  | handOver
  | hubClosed

def relayStep (codec : Codec) (peerId : DeviceId) (s : Relay) : RelayEvent → Option Relay
  | .own e =>
    if e.isBranch = true ∧ s.handing.isSome = true then none
    else (s.ep.step codec e).map (s.record e)
  | .read bytes =>
    (s.ep.reader.read codec bytes).map fun r => { s with
      ep := { s.ep with reader := r }
      arrived := s.arrived ++ bytes }
  | .readFails stop =>
    if s.ep.reader.isReading then
      some { s with ep := { s.ep with reader := .sending (s.ep.reader.fail stop).result } }
    else none
  | .wrote n =>
    if s.ep.loop.isWriting = true ∧ 0 < n ∧ n ≤ s.ep.loop.rest.length then
      some { s with ep := { s.ep with loop := s.ep.loop.wrote n }, sent := s.sent ++ s.ep.loop.rest.take n }
    else none
  | .writeFails =>
    if s.ep.loop.isWriting = true then some { s with ep := s.ep.finish .writeError } else none
  | .handOver =>
    match s.handing with
    | some msg =>
      if s.ep.loop.hasEnded = true then none
      else some { s with handing := none, hub := s.hub ++ [(peerId, msg)] }
    | none => none
  | .hubClosed =>
    if s.handing.isSome = true ∧ s.ep.loop.hasEnded = false then some { s with ep := s.ep.finish .peerClosed }
    else none

/-! ### The reader task -/

/-- Where the reader task is: the bytes that have arrived are the frames of what it has read, and a part of the next
frame; `out` is what it has put on the channel. -/
inductive ReaderAt (codec : Codec) (arrived : Bytes) : List ReadResult → Reader → Prop
  | header (msgs : List Message) (consumed got : Bytes) (hf : Framed codec consumed msgs)
      (ha : arrived = consumed ++ got) (hlt : got.length < 4) : ReaderAt codec arrived (msgs.map .ok) (.header got)
  | body (msgs : List Message) (consumed : Bytes) (len : Nat) (got : Bytes) (hf : Framed codec consumed msgs)
      (ha : arrived = consumed ++ (toBeBytes len ++ got)) (hlt : got.length < len) (hmax : len ≤ maxFrameLen) :
      ReaderAt codec arrived (msgs.map .ok) (.body len got)
  | frame (msgs : List Message) (msg : Message) (hf : Framed codec arrived (msgs ++ [msg])) :
      ReaderAt codec arrived (msgs.map .ok) (.sending (.ok msg))
  | failed (msgs : List Message) (consumed rest : Bytes) (err : String) (hf : Framed codec consumed msgs)
      (ha : arrived = consumed ++ rest) : ReaderAt codec arrived (msgs.map .ok) (.sending (.error err))
  | done (msgs : List Message) (consumed rest : Bytes) (err : String) (out : List ReadResult)
      (hf : Framed codec consumed msgs) (ha : arrived = consumed ++ rest)
      (ho : out <+: msgs.map .ok ++ [.error err]) : ReaderAt codec arrived out .done

namespace ReaderAt

variable {codec : Codec} {arrived : Bytes} {out : List ReadResult} {r r' : Reader}

theorem start : ReaderAt codec [] [] (.header []) := .header [] [] [] framed_nil rfl (by decide)

/-- A body that is complete. -/
private theorem received (msgs : List Message) (consumed body : Bytes) (hf : Framed codec consumed msgs)
    (hmax : body.length ≤ maxFrameLen) :
    ReaderAt codec (consumed ++ wireFrame body) (msgs.map .ok) (.sending (Reader.received codec body)) := by
  unfold Reader.received
  split
  · rename_i msg hd
    exact .frame msgs msg (hf.snoc ⟨hmax, hd⟩)
  · exact .failed msgs consumed _ _ hf rfl

theorem feed {b : UInt8} (h : ReaderAt codec arrived out r) (hs : r.feed codec b = some r') :
    ReaderAt codec (arrived ++ [b]) out r' := by
  cases h with
  | header msgs consumed got hf ha hlt =>
    subst ha
    simp only [Reader.feed] at hs
    split at hs
    · rename_i hmore
      cases hs
      exact .header msgs consumed (got ++ [b]) hf (List.append_assoc ..) (by simpa using hmore)
    · rename_i hfour
      -- the four bytes of the length
      obtain ⟨x, y, z, rfl⟩ : ∃ x y z, got = [x, y, z] := List.length_eq_three.1 (by omega)
      have hlen := toBeBytes_fromBeBytes x y z b
      split at hs
      · cases hs
        exact .failed msgs consumed [x, y, z, b] _ hf (by simp)
      · rename_i hmax
        split at hs
        · rename_i hzero
          cases hs
          have hframe : consumed ++ [x, y, z] ++ [b] = consumed ++ wireFrame [] := by
            have hzero : fromBeBytes [x, y, z, b] = 0 := hzero
            rw [hzero] at hlen
            rw [List.append_assoc, wireFrame, List.append_nil, List.length_nil, hlen]
            rfl
          rw [hframe]
          exact received msgs consumed [] hf (Nat.zero_le _)
        · rename_i hpos
          cases hs
          refine .body msgs consumed _ [] hf ?_ (Nat.pos_of_ne_zero hpos) (not_lt.1 hmax)
          have hlen : toBeBytes (fromBeBytes ([x, y, z] ++ [b])) = [x, y, z, b] := hlen
          rw [hlen]
          simp
  | body msgs consumed len got hf ha hlt hmax =>
    subst ha
    simp only [Reader.feed] at hs
    split at hs
    · rename_i hmore
      cases hs
      exact .body msgs consumed len (got ++ [b]) hf (by simp) (by simpa using hmore) hmax
    · rename_i hlast
      cases hs
      have hlen : (got ++ [b]).length = len := by simp; omega
      have hframe : consumed ++ (toBeBytes len ++ got) ++ [b] = consumed ++ wireFrame (got ++ [b]) := by
        rw [wireFrame, hlen]
        simp
      rw [hframe]
      exact received msgs consumed (got ++ [b]) hf (by omega)
  | frame | failed | done => cases hs

theorem read {bytes : Bytes} (h : ReaderAt codec arrived out r) (hs : r.read codec bytes = some r') :
    ReaderAt codec (arrived ++ bytes) out r' := by
  induction bytes generalizing arrived r with
  | nil =>
    cases hs
    rwa [List.append_nil]
  | cons b bs ih =>
    obtain ⟨r₁, hfeed, hread⟩ := Option.bind_eq_some_iff.1 hs
    have hnext := ih (h.feed hfeed) hread
    rwa [List.append_assoc] at hnext

/-- The messages read so far, and the bytes they took. -/
private theorem framed (h : ReaderAt codec arrived out r) :
    ∃ msgs consumed rest err, Framed codec consumed msgs ∧ arrived = consumed ++ rest ∧
      out <+: msgs.map .ok ++ [.error err] := by
  cases h with
  | header msgs consumed got hf ha => exact ⟨msgs, consumed, got, "", hf, ha, List.prefix_append _ _⟩
  | body msgs consumed len got hf ha => exact ⟨msgs, consumed, _, "", hf, ha, List.prefix_append _ _⟩
  | frame msgs msg hf =>
    refine ⟨msgs ++ [msg], arrived, [], "", hf, (List.append_nil _).symm, ?_⟩
    rw [List.map_append, List.append_assoc]
    exact List.prefix_append _ _
  | failed msgs consumed rest err hf ha => exact ⟨msgs, consumed, rest, err, hf, ha, List.prefix_append _ _⟩
  | done msgs consumed rest err _ hf ha ho => exact ⟨msgs, consumed, rest, err, hf, ha, ho⟩

/-- The task is aborted. -/
theorem abort (h : ReaderAt codec arrived out r) : ReaderAt codec arrived out .done := by
  obtain ⟨msgs, consumed, rest, err, hf, ha, ho⟩ := h.framed
  exact .done msgs consumed rest err out hf ha ho

theorem fails (h : ReaderAt codec arrived out r) (hr : r.isReading = true) (err : FrameError) :
    ReaderAt codec arrived out (.sending err.result) := by
  cases h with
  | header msgs consumed got hf ha => exact .failed msgs consumed got _ hf ha
  | body msgs consumed len got hf ha => exact .failed msgs consumed _ _ hf ha
  | frame | failed | done => cases hr

/-- The task's frame goes on the channel. -/
theorem sent {frame : ReadResult} (h : ReaderAt codec arrived out (.sending frame)) :
    ReaderAt codec arrived (out ++ [frame]) (Reader.sent frame) := by
  cases h with
  | frame msgs msg hf =>
    have hout : (msgs.map .ok : List ReadResult) ++ [.ok msg] = (msgs ++ [msg]).map .ok := by simp
    rw [hout]
    exact .header (msgs ++ [msg]) arrived [] hf (List.append_nil _).symm (by decide)
  | failed msgs consumed rest err hf ha => exact .done msgs consumed rest err _ hf ha (List.prefix_refl _)

/-- What was put on the channel, without the error at its end, are the first frames of the stream. -/
theorem prefix_wireFrames (h : ReaderAt codec arrived out r) {msgs : List Message} {rest : List ReadResult}
    (ho : out = msgs.map .ok ++ rest) : msgs <+: wireFrames codec arrived := by
  obtain ⟨read, consumed, tail, err, hf, rfl, hpre⟩ := h.framed
  rw [wireFrames_framed hf]
  have hmsgs : (msgs.map .ok : List ReadResult) <+: read.map .ok ++ [.error err] := by
    rw [ho] at hpre
    exact (List.prefix_append _ _).trans hpre
  have hread : msgs <+: read := by
    clear ho hpre hf h
    induction msgs generalizing read with
    | nil => exact List.nil_prefix
    | cons m ms ih =>
      cases read with
      | nil =>
        obtain ⟨t, ht⟩ := hmsgs
        cases ht
      | cons n ns =>
        obtain ⟨hmn, hrest⟩ := List.cons_prefix_cons.1 hmsgs
        cases hmn
        exact List.cons_prefix_cons.2 ⟨rfl, ih ns hrest⟩
  exact hread.trans (List.prefix_append _ _)

end ReaderAt

/-! ### The records agree -/

/-- The bytes of some messages on the wire. -/
def wireBytes (codec : Codec) (msgs : List Message) : Bytes := msgs.flatMap fun msg => (writeMessage codec msg).getD []

/-- What is on the stream: the messages `done` whole and, of the one after them, the bytes `part`.  That message is
left unwritten only while the loop writes it, or when the loop has ended. -/
structure OnStream (codec : Codec) (s : Relay) (done last : List Message) (part : Bytes) : Prop where
  writes : s.writes.map Prod.snd = done ++ last
  one : last.length ≤ 1
  encodes : ∀ msg ∈ done, (writeMessage codec msg).isSome = true
  sent : s.sent = wireBytes codec done ++ part
  begun : part <+: wireBytes codec last
  polling : s.ep.loop = .polling → last = []
  writing : ∀ rest, s.ep.loop = .writing rest → wireBytes codec last = part ++ rest ∧ rest ≠ []

/-- What the loop has written, taken and handed over, compared with what came in. -/
structure Relayed (codec : Codec) (peerId : DeviceId) (s : Relay) : Prop where
  outbound : s.writesOf .outbound ++ s.ep.outbound = s.pushed
  keepAlive : s.writesOf .keepAlive = (List.range s.ep.seq).map fun i => .ping (i + 1)
  reply : s.writesOf .reply = s.taken.filterMap Message.reply
  handed : s.hub.map Prod.snd ++ s.handing.toList = s.taken.filter Message.isApplication
  tagged : ∀ x ∈ s.hub, x.1 = peerId
  reader : ReaderAt codec s.arrived (s.taken.map .ok ++ s.ep.frames) s.ep.reader
  stream : ∃ done last part, OnStream codec s done last part

section Steps

variable {codec : Codec} {peerId : DeviceId} {s s' : Relay} {e : LocalEvent} {ep ep' : Endpoint}

theorem relayed_start (codec : Codec) (peerId : DeviceId) : Relayed codec peerId .start where
  outbound := rfl
  keepAlive := rfl
  reply := rfl
  handed := rfl
  tagged x hx := by cases hx
  reader := .start
  stream := ⟨[], [], [], rfl, by decide, (fun _ h => by cases h), rfl, List.prefix_refl _, fun _ => rfl,
    fun _ h => by cases h⟩

theorem Relay.writesOf_record (o : Origin) :
    (s.record e ep).writesOf o = s.writesOf o ++ if e.origin = o then (s.ep.nextMessage e).toList else [] := by
  simp only [writesOf, record, List.filter_append, List.map_append]
  cases s.ep.nextMessage e with
  | none => simp
  | some msg => by_cases ho : e.origin = o <;> simp [ho]

private theorem record_outbound (h : s.writesOf .outbound ++ s.ep.outbound = s.pushed)
    (hs : s.ep.Stepped codec e ep) :
    (s.record e ep).writesOf .outbound ++ ep.outbound = (s.record e ep).pushed := by
  rw [Relay.writesOf_record]
  cases hs with
  | push msg => simp [Relay.record, LocalEvent.queued, Endpoint.nextMessage, ← h]
  | takeOutbound hl msg rest ho =>
    simp [Relay.record, LocalEvent.queued, LocalEvent.origin, Endpoint.nextMessage, ← h, ho]
  | noSenders hl ho =>
    simp [Relay.record, LocalEvent.queued, Endpoint.nextMessage, Endpoint.finish, ← h, ho]
  | takeFrame hl msg rest hf =>
    have hout : ({ s.ep with frames := rest }.onFrame codec msg).outbound = s.ep.outbound := by
      cases msg <;> simp [Endpoint.onFrame]
    simp [Relay.record, LocalEvent.queued, LocalEvent.origin, hout, ← h]
  | tick | idleTimeout | takeError | noFrames | dropSenders | forward =>
    simp [Relay.record, LocalEvent.queued, LocalEvent.origin, Endpoint.nextMessage, Endpoint.onTick, Endpoint.finish,
      ← h]

private theorem record_keepAlive (h : s.writesOf .keepAlive = (List.range s.ep.seq).map fun i => .ping (i + 1))
    (hs : s.ep.Stepped codec e ep) :
    (s.record e ep).writesOf .keepAlive = (List.range ep.seq).map fun i => .ping (i + 1) := by
  rw [Relay.writesOf_record, h]
  cases hs with
  | tick hl => simp [LocalEvent.origin, Endpoint.nextMessage, Endpoint.onTick, List.range_succ]
  | takeFrame hl msg rest hf =>
    have hseq : ({ s.ep with frames := rest }.onFrame codec msg).seq = s.ep.seq := by
      cases msg <;> simp [Endpoint.onFrame]
    simp [LocalEvent.origin, hseq]
  | takeOutbound hl msg rest ho => simp [LocalEvent.origin]
  | push | dropSenders | idleTimeout | noSenders | takeError | noFrames | forward =>
    simp [LocalEvent.origin, Endpoint.finish]

/-- A frame that the loop takes is answered if it is a `Ping`, and handed over if it is an application frame. -/
private theorem record_taken (hs : s.ep.Stepped codec e ep) :
    (if e.origin = .reply then (s.ep.nextMessage e).toList else []) =
      (s.ep.nextFrame e).toList.filterMap Message.reply := by
  cases hs with
  | takeFrame hl msg rest hf =>
    simp only [LocalEvent.origin, Endpoint.nextMessage, Endpoint.nextFrame, hf, if_true]
    cases msg <;> rfl
  | takeError hl err rest hf => simp [LocalEvent.origin, Endpoint.nextMessage, Endpoint.nextFrame, hf]
  | noFrames hl hf hr => simp [LocalEvent.origin, Endpoint.nextMessage, Endpoint.nextFrame, hf]
  | push | dropSenders | tick | idleTimeout | takeOutbound | noSenders | forward => rfl

/-- The loop adds an application frame to `inbound`, and nothing else. -/
private theorem stepped_inbound (hs : s.ep.Stepped codec e ep) :
    ep.inbound = s.ep.inbound ++ ((s.ep.nextFrame e).filter Message.isApplication).toList := by
  cases hs with
  | takeFrame hl msg rest hf =>
    have hframe : s.ep.nextFrame .takeFrame = some msg := by rw [Endpoint.nextFrame, hf]
    rw [hframe]
    cases msg <;> simp [Endpoint.onFrame, Option.filter, Message.isApplication]
  | takeError hl err rest hf => simp [Endpoint.nextFrame, Endpoint.finish, hf]
  | noFrames hl hf hr => simp [Endpoint.nextFrame, Endpoint.finish, hf]
  | tick | takeOutbound => simp [Endpoint.nextFrame, Endpoint.onTick]
  | push | dropSenders | idleTimeout | noSenders | forward => simp [Endpoint.nextFrame, Endpoint.finish]

theorem handing_record (hs : s.ep.Stepped codec e ep) :
    (s.record e ep).handing = (s.handing <|> (s.ep.nextFrame e).filter Message.isApplication) := by
  rw [Relay.record, stepped_inbound hs, List.getElem?_append_right (Nat.le_refl _), Nat.sub_self]
  cases (s.ep.nextFrame e).filter Message.isApplication <;> rfl

private theorem record_handed (h : s.hub.map Prod.snd ++ s.handing.toList = s.taken.filter Message.isApplication)
    (hs : s.ep.Stepped codec e ep) (hfree : e.isBranch = true → s.handing = none) :
    (s.record e ep).hub.map Prod.snd ++ (s.record e ep).handing.toList =
      (s.record e ep).taken.filter Message.isApplication := by
  rw [handing_record hs]
  simp only [Relay.record, List.filter_append, ← h]
  cases hframe : s.ep.nextFrame e with
  | none => cases s.handing <;> simp
  | some msg =>
    have hbranch : e.isBranch = true := by
      cases e with
      | takeFrame => rfl
      | push | dropSenders | tick | idleTimeout | takeOutbound | forward => cases hframe
    rw [hfree hbranch]
    cases happ : msg.isApplication <;> simp [Option.filter, happ]

private theorem record_reader (h : ReaderAt codec s.arrived (s.taken.map .ok ++ s.ep.frames) s.ep.reader)
    (hs : s.ep.Stepped codec e ep) :
    ReaderAt codec s.arrived ((s.record e ep).taken.map .ok ++ ep.frames) ep.reader := by
  have hwrite : ∀ (ep₀ : Endpoint) (msg : Message) (out : List ReadResult), ep₀.reader = s.ep.reader →
      out ++ ep₀.frames = s.taken.map .ok ++ s.ep.frames →
      ReaderAt codec s.arrived (out ++ (ep₀.startWrite codec msg).frames) (ep₀.startWrite codec msg).reader := by
    intro ep₀ msg out hreader hout
    rw [Endpoint.startWrite_frames, hout]
    unfold Endpoint.startWrite
    split
    · dsimp only
      rw [hreader]
      exact h
    · exact h.abort
  cases hs with
  | push | dropSenders => simpa [Relay.record, Endpoint.nextFrame] using h
  | tick hl =>
    have hw := hwrite { s.ep with seq := s.ep.seq + 1 } (.ping (s.ep.seq + 1)) _ rfl rfl
    simpa [Relay.record, Endpoint.nextFrame, Endpoint.onTick] using hw
  | takeOutbound hl msg rest ho =>
    have hw := hwrite { s.ep with outbound := rest } msg _ rfl rfl
    simpa [Relay.record, Endpoint.nextFrame] using hw
  | idleTimeout | noSenders => simpa [Relay.record, Endpoint.nextFrame, Endpoint.finish] using h.abort
  | takeError hl err rest hf | noFrames hl hf hr =>
    simpa [Relay.record, Endpoint.nextFrame, Endpoint.finish, hf] using h.abort
  | takeFrame hl msg rest hf =>
    have hout : (s.taken ++ [msg]).map .ok ++ rest = s.taken.map .ok ++ s.ep.frames := by simp [hf]
    have htaken : (s.record .takeFrame ({ s.ep with frames := rest }.onFrame codec msg)).taken = s.taken ++ [msg] := by
      simp [Relay.record, Endpoint.nextFrame, hf]
    rw [htaken]
    cases msg with
    | ping seq => exact hwrite { s.ep with frames := rest } (.pong seq) _ rfl hout
    | _ =>
      simp only [Endpoint.onFrame]
      rw [hout]
      exact h
  | forward frame hr =>
    have hsent : ReaderAt codec s.arrived (s.taken.map .ok ++ s.ep.frames ++ [frame]) (Reader.sent frame) :=
      ReaderAt.sent (by rw [← hr]; exact h)
    simpa [Relay.record, Endpoint.nextFrame] using hsent

@[simp] theorem wireBytes_nil : wireBytes codec [] = [] := rfl

@[simp] theorem wireBytes_append (msgs msgs' : List Message) :
    wireBytes codec (msgs ++ msgs') = wireBytes codec msgs ++ wireBytes codec msgs' := List.flatMap_append

theorem wireBytes_singleton (msg : Message) : wireBytes codec [msg] = (writeMessage codec msg).getD [] :=
  List.flatMap_singleton ..

/-- What an event of its own makes of the loop: it stays or ends, or it writes a message. -/
private theorem stepped_loop (hs : s.ep.Stepped codec e ep) :
    (s.ep.nextMessage e = none ∧ (ep.loop = s.ep.loop ∨ ep.loop.hasEnded = true)) ∨
    ∃ msg, s.ep.nextMessage e = some msg ∧ s.ep.loop = .polling ∧
      ((∃ bytes, writeMessage codec msg = some bytes ∧ ep.loop = .writing bytes) ∨ ep.loop.hasEnded = true) := by
  have hwrite : ∀ (ep₀ : Endpoint) (msg : Message),
      (∃ bytes, writeMessage codec msg = some bytes ∧ (ep₀.startWrite codec msg).loop = .writing bytes) ∨
        (ep₀.startWrite codec msg).loop.hasEnded = true := by
    intro ep₀ msg
    unfold Endpoint.startWrite
    split
    · rename_i bytes hw
      exact Or.inl ⟨bytes, hw, rfl⟩
    · exact Or.inr rfl
  cases hs with
  | tick hl => exact Or.inr ⟨_, rfl, hl, hwrite _ _⟩
  | takeOutbound hl msg rest ho => exact Or.inr ⟨msg, by simp [Endpoint.nextMessage, ho], hl, hwrite _ _⟩
  | takeFrame hl msg rest hf =>
    cases msg with
    | ping seq => exact Or.inr ⟨.pong seq, by simp [Endpoint.nextMessage, hf], hl, hwrite _ _⟩
    | _ => exact Or.inl ⟨by simp [Endpoint.nextMessage, hf], Or.inl rfl⟩
  | noSenders hl ho => exact Or.inl ⟨by simp [Endpoint.nextMessage, ho], Or.inr rfl⟩
  | takeError hl err rest hf | noFrames hl hf => exact Or.inl ⟨by simp [Endpoint.nextMessage, hf], Or.inr rfl⟩
  | idleTimeout => exact Or.inl ⟨rfl, Or.inr rfl⟩
  | push | dropSenders | forward => exact Or.inl ⟨rfl, Or.inl rfl⟩

namespace OnStream

variable {done last : List Message} {part : Bytes}

/-- A step that neither writes nor begins a message, and leaves the loop where it is or ends it. -/
theorem quiet (h : OnStream codec s done last part) (hw : s'.writes = s.writes) (hsent : s'.sent = s.sent)
    (hl : s'.ep.loop = s.ep.loop ∨ s'.ep.loop.hasEnded = true) : OnStream codec s' done last part where
  writes := hw ▸ h.writes
  one := h.one
  encodes := h.encodes
  sent := hsent.trans h.sent
  begun := h.begun
  polling hp := by
    rcases hl with hl | hl
    · exact h.polling (hl ▸ hp)
    · rw [hp] at hl
      cases hl
  writing rest hr := by
    rcases hl with hl | hl
    · exact h.writing rest (hl ▸ hr)
    · rw [hr] at hl
      cases hl

/-- The loop calls `write_message`, with nothing left of the message before. -/
private theorem begin (h : OnStream codec s done last part) (hl : s.ep.loop = .polling) {msg : Message}
    (hmsg : s.ep.nextMessage e = some msg)
    (hloop : (∃ bytes, writeMessage codec msg = some bytes ∧ ep.loop = .writing bytes) ∨ ep.loop.hasEnded = true) :
    OnStream codec (s.record e ep) done [msg] [] := by
  obtain rfl := h.polling hl
  obtain rfl : part = [] := List.prefix_nil.1 h.begun
  refine ⟨?_, le_rfl, h.encodes, h.sent, List.nil_prefix, fun hp => ?_, fun rest hr => ?_⟩
  · simpa [Relay.record, hmsg] using h.writes
  · have hp : ep.loop = .polling := hp
    rcases hloop with ⟨bytes, -, hl'⟩ | hended
    · rw [hp] at hl'
      cases hl'
    · rw [hp] at hended
      cases hended
  · have hr : ep.loop = .writing rest := hr
    rcases hloop with ⟨bytes, hw, hl'⟩ | hended
    · rw [hr] at hl'
      cases hl'
      exact ⟨by rw [wireBytes_singleton, hw]; rfl, writeMessage_ne_nil hw⟩
    · rw [hr] at hended
      cases hended

/-- `n` bytes go out. -/
private theorem wrote (h : OnStream codec s done last part) {rest : Bytes} {n : Nat} (hl : s.ep.loop = .writing rest)
    (hs : s'.ep.loop = s.ep.loop.wrote n) (hw : s'.writes = s.writes) (hsent : s'.sent = s.sent ++ rest.take n) :
    ∃ done last part, OnStream codec s' done last part := by
  obtain ⟨hlast, hne⟩ := h.writing rest hl
  rw [hl] at hs
  unfold LoopState.wrote at hs
  have hrest : (LoopState.writing rest).rest = rest := rfl
  rw [hrest] at hs
  split at hs
  · rename_i hdrop
    -- the message is on the stream
    have htake : rest.take n = rest := by
      have := List.take_append_drop n rest
      rwa [hdrop, List.append_nil] at this
    refine ⟨done ++ last, [], [], by rw [List.append_nil, hw, h.writes], Nat.zero_le _, fun msg hm => ?_, ?_,
      List.prefix_refl _, fun _ => rfl, (fun rest' hr => by rw [hs] at hr; cases hr)⟩
    · rcases List.mem_append.1 hm with hm | hm
      · exact h.encodes msg hm
      · obtain ⟨msg', rfl⟩ : ∃ msg', last = [msg'] := by
          have hone := h.one
          match last, hone, hm with
          | [msg'], _, _ => exact ⟨msg', rfl⟩
        rw [List.mem_singleton.1 hm]
        cases hmsg : writeMessage codec msg' with
        | some bytes => rfl
        | none =>
          rw [wireBytes_singleton, hmsg] at hlast
          exact absurd (List.append_eq_nil_iff.1 hlast.symm).2 hne
    · rw [hsent, h.sent, htake, wireBytes_append, hlast]
      simp
  · rename_i hdrop
    refine ⟨done, last, part ++ rest.take n, hw ▸ h.writes, h.one, h.encodes, by rw [hsent, h.sent, List.append_assoc],
      ⟨rest.drop n, ?_⟩, (fun hp => by rw [hs] at hp; cases hp), fun rest' hr => ?_⟩
    · rw [List.append_assoc, List.take_append_drop, hlast]
    · rw [hs] at hr
      cases hr
      exact ⟨by rw [List.append_assoc, List.take_append_drop, hlast], hdrop⟩

end OnStream

private theorem stream_quiet (h : ∃ done last part, OnStream codec s done last part) (hw : s'.writes = s.writes)
    (hsent : s'.sent = s.sent) (hl : s'.ep.loop = s.ep.loop ∨ s'.ep.loop.hasEnded = true) :
    ∃ done last part, OnStream codec s' done last part := by
  obtain ⟨done, last, part, h⟩ := h
  exact ⟨done, last, part, h.quiet hw hsent hl⟩

private theorem record_stream (h : ∃ done last part, OnStream codec s done last part)
    (hs : s.ep.Stepped codec e ep) : ∃ done last part, OnStream codec (s.record e ep) done last part := by
  obtain ⟨done, last, part, h⟩ := h
  rcases stepped_loop hs with ⟨hmsg, hl⟩ | ⟨msg, hmsg, hl, hloop⟩
  · exact ⟨done, last, part, h.quiet (by simp [Relay.record, hmsg]) rfl hl⟩
  · exact ⟨done, [msg], [], h.begin hl hmsg hloop⟩

/-- Every step keeps the records in agreement. -/
theorem relayed_step {ev : RelayEvent} (h : Relayed codec peerId s) (hs : relayStep codec peerId s ev = some s') :
    Relayed codec peerId s' := by
  cases ev with
  | own e =>
    simp only [relayStep] at hs
    split at hs
    · cases hs
    · rename_i hbranch
      obtain ⟨ep, hstep, rfl⟩ := Option.map_eq_some_iff.1 hs
      have hstepped := (Endpoint.stepped hstep).2
      have hfree : e.isBranch = true → s.handing = none := by
        intro hb
        simpa [hb] using hbranch
      refine ⟨record_outbound h.outbound hstepped, record_keepAlive h.keepAlive hstepped, ?_,
        record_handed h.handed hstepped hfree, h.tagged, record_reader h.reader hstepped,
        record_stream h.stream hstepped⟩
      rw [Relay.writesOf_record, h.reply, record_taken hstepped, ← List.filterMap_append]
      rfl
  | read bytes =>
    obtain ⟨r, hr, rfl⟩ := Option.map_eq_some_iff.1 hs
    exact { h with reader := h.reader.read hr, stream := stream_quiet h.stream rfl rfl (Or.inl rfl) }
  | readFails stop =>
    simp only [relayStep] at hs
    split at hs
    · rename_i hreading
      cases hs
      exact { h with reader := h.reader.fails hreading _, stream := stream_quiet h.stream rfl rfl (Or.inl rfl) }
    · cases hs
  | wrote n =>
    simp only [relayStep] at hs
    split at hs
    · rename_i hw
      cases hs
      obtain ⟨rest, hl⟩ : ∃ rest, s.ep.loop = .writing rest := by
        cases hl : s.ep.loop with
        | writing rest => exact ⟨rest, rfl⟩
        | polling | ended => simp [hl, LoopState.isWriting] at hw
      obtain ⟨done, last, part, hstream⟩ := h.stream
      exact { h with stream := hstream.wrote hl rfl rfl (by rw [hl]; rfl) }
    · cases hs
  | writeFails =>
    simp only [relayStep] at hs
    split at hs
    · cases hs
      exact { h with reader := h.reader.abort, stream := stream_quiet h.stream rfl rfl (Or.inr rfl) }
    · cases hs
  | handOver =>
    simp only [relayStep] at hs
    split at hs
    · rename_i msg hmsg
      split at hs
      · cases hs
      · cases hs
        refine { h with
          handed := ?_
          tagged := fun x hx => ?_
          stream := stream_quiet h.stream rfl rfl (Or.inl rfl) }
        · rw [← h.handed, hmsg]
          simp
        · rcases List.mem_append.1 hx with hx | hx
          · exact h.tagged x hx
          · rw [List.mem_singleton.1 hx]
    · cases hs
  | hubClosed =>
    simp only [relayStep] at hs
    split at hs
    · cases hs
      exact { h with reader := h.reader.abort, stream := stream_quiet h.stream rfl rfl (Or.inr rfl) }
    · cases hs

theorem relayed_run {es : List RelayEvent} (hr : Run (relayStep codec peerId) Always .start es s) :
    Relayed codec peerId s :=
  hr.invariant (relayed_start codec peerId) fun _ _ _ h _ hs => relayed_step h hs

end Steps

/-- In every state of every run: the hub has been given the first application frames of the stream, in order and tagged
with the peer's id; what was written interleaves the first messages of the outbound channel, the `Ping`s `1`, `2`,
`3`, … and the `Pong`s of the `Ping`s taken; and it is on the stream but for the last of these messages, of which a
part is. -/
theorem relay_faithful (codec : Codec) (peerId : DeviceId) (es : List RelayEvent) (s : Relay)
    (hr : Run (relayStep codec peerId) Always .start es s) :
    (s.hub.map Prod.snd <+: (wireFrames codec s.arrived).filter Message.isApplication ∧ ∀ x ∈ s.hub, x.1 = peerId) ∧
    (s.hub.map Prod.snd ++ s.handing.toList = s.taken.filter Message.isApplication ∧
      s.taken <+: wireFrames codec s.arrived) ∧
    s.writesOf .outbound <+: s.pushed ∧
    s.writesOf .keepAlive = (List.range s.ep.seq).map (fun i => .ping (i + 1)) ∧
    s.writesOf .reply = s.taken.filterMap Message.reply ∧
    ∃ done last part, OnStream codec s done last part := by
  have h : Relayed codec peerId s := relayed_run hr
  have htaken : s.taken <+: wireFrames codec s.arrived := h.reader.prefix_wireFrames rfl
  have hhub : s.hub.map Prod.snd <+: s.taken.filter Message.isApplication := ⟨s.handing.toList, h.handed⟩
  exact ⟨⟨hhub.trans (htaken.filter _), h.tagged⟩, ⟨h.handed, htaken⟩, ⟨s.ep.outbound, h.outbound⟩, h.keepAlive,
    h.reply, h.stream⟩

/-- One frame goes out and half of another, and one comes in. -/
theorem relay_faithful_exchange :
    ∃ es s, Run (relayStep urlCodec "p") Always .start es s ∧ s.hub = [("p", .openUrl "")] ∧
      s.sent = wireFrame urlBody ++ (wireFrame urlBody).take 10 ∧
      s.writesOf .outbound <+: [.openUrl "", .openUrl ""] ∧
      s.hub.map Prod.snd <+: (wireFrames urlCodec s.arrived).filter Message.isApplication ∧
      ∃ done last part, OnStream urlCodec s done last part := by
  obtain ⟨s, hrun, hview⟩ := run_of_exec_view (relayStep urlCodec "p") (fun _ => True) Relay.start
    [.own (.push (.openUrl "")), .own .takeOutbound, .wrote 21, .read (wireFrame urlBody), .own .forward,
      .own .takeFrame, .own (.push (.openUrl "")), .handOver, .own .takeOutbound, .wrote 10]
    (fun s => (s.hub, s.sent, s.pushed))
    ([("p", .openUrl "")], wireFrame urlBody ++ (wireFrame urlBody).take 10, [.openUrl "", .openUrl ""])
    (fun _ _ => trivial) (by decide +kernel)
  simp only [Prod.mk.injEq] at hview
  obtain ⟨hhub, -, hout, -, -, hstream⟩ := relay_faithful urlCodec "p" _ s hrun
  rw [hview.2.2] at hout
  exact ⟨_, s, hrun, hview.1, hview.2.1, hout, hhub.1, hstream⟩

end Qdrop
