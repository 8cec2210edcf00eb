import Qdrop.Connection.Frame

/-!
# The run loop of a connection (`qdropd/src/connection.rs`)

One end of a connection: the reader task, the frames channel between it and the loop, the outbound channel, and the
loop itself, which polls the timers, `outbound` and `frames` in that order and polls none of them while it is inside
`write_message`.  The timers are events that may happen whenever the loop polls; the hub accepts every message.
-/

namespace Qdrop

inductive DisconnectReason where
  | peerClosed
  | idleTimeout
  | writeError
  | protocolError (err : String)
deriving DecidableEq, Repr

/-- `Display` for `DisconnectReason`. -/
def DisconnectReason.text : DisconnectReason → String
  | .peerClosed => "peer closed the connection"
  | .idleTimeout => "idle timeout"
  | .writeError => "write error"
  | .protocolError err => s!"protocol error: {err}"

/-- Slots of the frames channel. -/
def framesCap : Nat := 16

/-- Slots of the outbound channel. -/
def outboundCap : Nat := 64

inductive LoopState where
  /-- Inside `select!`. -/
  | polling
  /-- Inside `write_message`, with these bytes still to write. -/
  | writing (rest : Bytes)
  | ended (reason : DisconnectReason)
deriving DecidableEq, Repr

def LoopState.isWriting : LoopState → Bool
  | .writing _ => true
  | .polling | .ended _ => false

/-- What is left to write. -/
def LoopState.rest : LoopState → Bytes
  | .writing rest => rest
  | .polling | .ended _ => []

/-- The loop after `n` more bytes of its message. -/
def LoopState.wrote (loop : LoopState) (n : Nat) : LoopState :=
  if loop.rest.drop n = [] then .polling else .writing (loop.rest.drop n)

def LoopState.hasEnded : LoopState → Bool
  | .ended _ => true
  | .polling | .writing _ => false

theorem LoopState.hasEnded_of_ne {loop : LoopState} (h : ∀ reason, loop ≠ .ended reason) : loop.hasEnded = false := by
  cases loop with
  | polling | writing => rfl
  | ended reason => exact absurd rfl (h reason)

structure Endpoint where
  outbound : List Message
  /-- Some sender of `outbound` is still held. -/
  senders : Bool
  frames : List ReadResult
  reader : Reader
  loop : LoopState
  seq : Nat
  /-- What was handed to the hub. -/
  inbound : List Message

namespace Endpoint

def start : Endpoint := ⟨[], true, [], .header [], .polling, 0, []⟩

/-- Leaving the loop aborts the reader task. -/
def finish (ep : Endpoint) (reason : DisconnectReason) : Endpoint :=
  { ep with loop := .ended reason, reader := .done }

/-- Entering `write_message`; a message that does not encode ends the connection. -/
def startWrite (codec : Codec) (ep : Endpoint) (msg : Message) : Endpoint :=
  match writeMessage codec msg with
  | some bytes => { ep with loop := .writing bytes }
  | none => ep.finish .writeError

/-- The `ping.tick()` branch. -/
def onTick (codec : Codec) (ep : Endpoint) : Endpoint :=
  { ep with seq := ep.seq + 1 }.startWrite codec (.ping (ep.seq + 1))

/-- The `outbound.recv()` branch, if it is ready. -/
def takeOutbound (codec : Codec) (ep : Endpoint) : Option Endpoint :=
  match ep.outbound with
  | msg :: rest => some ({ ep with outbound := rest }.startWrite codec msg)
  | [] => if ep.senders then none else some (ep.finish .peerClosed)

/-- What the loop does with a decoded frame. -/
def onFrame (codec : Codec) (ep : Endpoint) : Message → Endpoint
  | .ping seq => ep.startWrite codec (.pong seq)
  | .pong _ => ep
  | .hello _ => ep
  | other => { ep with inbound := ep.inbound ++ [other] }

/-- The `frames_rx.recv()` branch, if it is ready and no branch before it is. -/
def takeFrame (codec : Codec) (ep : Endpoint) : Option Endpoint :=
  if ep.outbound ≠ [] ∨ ep.senders = false then none
  else match ep.frames, ep.reader with
    | .error err :: _, _ => some (ep.finish (if err = "" then .peerClosed else .protocolError err))
    | .ok msg :: rest, _ => some ({ ep with frames := rest }.onFrame codec msg)
    | [], .done => some (ep.finish .peerClosed)
    | [], _ => none

/-- The reader task puts its frame on the channel. -/
def forward (ep : Endpoint) : Option Endpoint :=
  match ep.reader with
  | .sending frame =>
    if ep.frames.length < framesCap then some { ep with frames := ep.frames ++ [frame], reader := Reader.sent frame }
    else none
  | _ => none

end Endpoint

/-- What one end does without touching the socket. -/
inductive LocalEvent where
  /-- A subsystem queues a message. -/
  | push (msg : Message)
  /-- The last sender of the outbound channel is dropped. -/
  | dropSenders
  | tick
  | idleTimeout
  | takeOutbound
  | takeFrame
  | forward

/-- The step of one end, if it is enabled. -/
def Endpoint.step (codec : Codec) (ep : Endpoint) (e : LocalEvent) : Option Endpoint :=
  match e, ep.loop with
  | _, .ended _ => none
  | .push msg, _ =>
    if ep.senders = true ∧ ep.outbound.length < outboundCap then some { ep with outbound := ep.outbound ++ [msg] }
    else none
  | .dropSenders, _ => some { ep with senders := false }
  | .tick, .polling => some (ep.onTick codec)
  | .idleTimeout, .polling => some (ep.finish .idleTimeout)
  | .takeOutbound, .polling => ep.takeOutbound codec
  | .takeFrame, .polling => ep.takeFrame codec
  | .forward, _ => ep.forward
  | _, .writing _ => none

/-- The message the event makes the loop write. -/
def Endpoint.nextMessage (ep : Endpoint) : LocalEvent → Option Message
  | .tick => some (.ping (ep.seq + 1))
  | .takeOutbound => ep.outbound.head?
  | .takeFrame =>
    match ep.frames with
    | .ok (.ping seq) :: _ => some (.pong seq)
    | _ => none
  | .push _ | .dropSenders | .idleTimeout | .forward => none

/-- The frames left on the channel once the event is under way. -/
def Endpoint.framesAfter (ep : Endpoint) : LocalEvent → List ReadResult
  | .takeFrame => ep.frames.tail
  | .push _ | .dropSenders | .tick | .idleTimeout | .takeOutbound | .forward => ep.frames

namespace Endpoint

variable {codec : Codec} {ep ep' : Endpoint} {e : LocalEvent}

private theorem startWrite_cases (codec : Codec) (ep : Endpoint) (msg : Message) :
    (∃ reason, ep.startWrite codec msg = ep.finish reason) ∨
    ∃ bytes, writeMessage codec msg = some bytes ∧ ep.startWrite codec msg = { ep with loop := .writing bytes } := by
  unfold startWrite
  split
  · rename_i bytes h
    exact Or.inr ⟨bytes, h, rfl⟩
  · exact Or.inl ⟨_, rfl⟩

/-- What each event makes of an end whose loop is still running. -/
inductive Stepped (codec : Codec) (ep : Endpoint) : LocalEvent → Endpoint → Prop
  | push (msg : Message) : Stepped codec ep (.push msg) { ep with outbound := ep.outbound ++ [msg] }
  | dropSenders : Stepped codec ep .dropSenders { ep with senders := false }
  | tick (hl : ep.loop = .polling) : Stepped codec ep .tick (ep.onTick codec)
  | idleTimeout (hl : ep.loop = .polling) : Stepped codec ep .idleTimeout (ep.finish .idleTimeout)
  | takeOutbound (hl : ep.loop = .polling) (msg : Message) (rest : List Message) (ho : ep.outbound = msg :: rest) :
      Stepped codec ep .takeOutbound ({ ep with outbound := rest }.startWrite codec msg)
  | noSenders (hl : ep.loop = .polling) (ho : ep.outbound = []) :
      Stepped codec ep .takeOutbound (ep.finish .peerClosed)
  | takeError (hl : ep.loop = .polling) (err : String) (rest : List ReadResult) (hf : ep.frames = .error err :: rest) :
      Stepped codec ep .takeFrame (ep.finish (if err = "" then .peerClosed else .protocolError err))
  | takeFrame (hl : ep.loop = .polling) (msg : Message) (rest : List ReadResult) (hf : ep.frames = .ok msg :: rest) :
      Stepped codec ep .takeFrame ({ ep with frames := rest }.onFrame codec msg)
  | noFrames (hl : ep.loop = .polling) (hf : ep.frames = []) (hr : ep.reader = .done) :
      Stepped codec ep .takeFrame (ep.finish .peerClosed)
  | forward (frame : ReadResult) (hr : ep.reader = .sending frame) :
      Stepped codec ep .forward { ep with frames := ep.frames ++ [frame], reader := Reader.sent frame }

theorem stepped (h : ep.step codec e = some ep') : ep.loop.hasEnded = false ∧ ep.Stepped codec e ep' := by
  unfold step at h
  split at h
  · cases h
  · rename_i hl
    split at h
    · cases h
      exact ⟨LoopState.hasEnded_of_ne hl, .push _⟩
    · cases h
  · rename_i hl
    cases h
    exact ⟨LoopState.hasEnded_of_ne hl, .dropSenders⟩
  · rename_i hl
    cases h
    exact ⟨by rw [hl]; rfl, .tick hl⟩
  · rename_i hl
    cases h
    exact ⟨by rw [hl]; rfl, .idleTimeout hl⟩
  · rename_i hl
    refine ⟨by rw [hl]; rfl, ?_⟩
    unfold takeOutbound at h
    split at h
    · rename_i msg rest ho
      cases h
      exact .takeOutbound hl msg rest ho
    · rename_i ho
      split at h
      · cases h
      · cases h
        exact .noSenders hl ho
  · rename_i hl
    refine ⟨by rw [hl]; rfl, ?_⟩
    unfold takeFrame at h
    split at h
    · cases h
    · split at h
      · rename_i err rest hf
        cases h
        exact .takeError hl err rest hf
      · rename_i msg rest hf
        cases h
        exact .takeFrame hl msg rest hf
      · rename_i hf hr
        cases h
        exact .noFrames hl hf hr
      · cases h
  · rename_i hl
    refine ⟨LoopState.hasEnded_of_ne hl, ?_⟩
    unfold forward at h
    split at h
    · rename_i frame hr
      split at h
      · cases h
        exact .forward frame hr
      · cases h
    · cases h
  · cases h

/-- A frame is only forwarded while the channel has room. -/
private theorem room_of_forward (h : ep.step codec .forward = some ep') : ep.frames.length < framesCap := by
  cases hl : ep.loop with
  | ended r => simp [step, hl] at h
  | polling | writing =>
    simp only [step, hl, forward] at h
    split at h
    · split at h
      · assumption
      · cases h
    · cases h

/-- What a step of one end can do: end the connection, enter `write_message` with a whole frame, forward a frame, or
leave the reader and the loop alone. -/
theorem step_cases (h : ep.step codec e = some ep') :
    (ep.loop = .polling ∧ ∃ ep₀ reason, ep' = finish ep₀ reason) ∨
    (∃ msg bytes, ep.loop = .polling ∧ ep.nextMessage e = some msg ∧ writeMessage codec msg = some bytes ∧
      ep'.loop = .writing bytes ∧ ep'.reader = ep.reader ∧ ep'.frames = ep.framesAfter e ∧
      (ep'.frames = ep.frames ∨ ∃ msg, ep.frames = .ok msg :: ep'.frames)) ∨
    (∃ frame, ep.reader = .sending frame ∧ ep.frames.length < framesCap ∧
      ep' = { ep with frames := ep.frames ++ [frame], reader := Reader.sent frame }) ∨
    (ep'.loop = ep.loop ∧ ep'.reader = ep.reader ∧
      (ep'.frames = ep.frames ∨ ep.loop = .polling ∧ ∃ msg, ep.frames = .ok msg :: ep'.frames)) := by
  obtain ⟨-, hs⟩ := stepped h
  cases hs with
  | push msg => exact Or.inr (Or.inr (Or.inr ⟨rfl, rfl, Or.inl rfl⟩))
  | dropSenders => exact Or.inr (Or.inr (Or.inr ⟨rfl, rfl, Or.inl rfl⟩))
  | tick hl =>
    unfold onTick
    rcases startWrite_cases codec { ep with seq := ep.seq + 1 } (.ping (ep.seq + 1)) with ⟨r, heq⟩ | ⟨bytes, hw, heq⟩
    · exact Or.inl ⟨hl, _, r, heq⟩
    · rw [heq]
      exact Or.inr (Or.inl ⟨_, bytes, hl, rfl, hw, rfl, rfl, rfl, Or.inl rfl⟩)
  | idleTimeout hl => exact Or.inl ⟨hl, _, _, rfl⟩
  | takeOutbound hl msg rest ho =>
    rcases startWrite_cases codec { ep with outbound := rest } msg with ⟨r, heq⟩ | ⟨bytes, hw, heq⟩
    · exact Or.inl ⟨hl, _, r, heq⟩
    · rw [heq]
      refine Or.inr (Or.inl ⟨msg, bytes, hl, ?_, hw, rfl, rfl, rfl, Or.inl rfl⟩)
      rw [nextMessage, ho]
      rfl
  | noSenders hl ho => exact Or.inl ⟨hl, _, _, rfl⟩
  | takeError hl err rest hf => exact Or.inl ⟨hl, _, _, rfl⟩
  | takeFrame hl msg rest hf =>
    -- only a `Ping` makes the loop write
    cases msg with
    | ping seq =>
      simp only [onFrame]
      rcases startWrite_cases codec { ep with frames := rest } (.pong seq) with ⟨r, heq⟩ | ⟨bytes, hw, heq⟩
      · exact Or.inl ⟨hl, _, r, heq⟩
      · rw [heq]
        refine Or.inr (Or.inl ⟨.pong seq, bytes, hl, ?_, hw, rfl, rfl, ?_, Or.inr ⟨_, hf⟩⟩)
        · rw [nextMessage, hf]
        · rw [framesAfter, hf]
          rfl
    | pong | hello | clipboard | blobStart | blobChunk | blobEnd | blobAck | openUrl | authRequest | authReply =>
      exact Or.inr (Or.inr (Or.inr ⟨rfl, rfl, Or.inr ⟨hl, _, hf⟩⟩))
  | noFrames hl hf hr => exact Or.inl ⟨hl, _, _, rfl⟩
  | forward frame hr => exact Or.inr (Or.inr (Or.inl ⟨frame, hr, room_of_forward h, rfl⟩))

@[simp] theorem startWrite_outbound (msg : Message) : (ep.startWrite codec msg).outbound = ep.outbound := by
  unfold startWrite
  split <;> rfl

@[simp] theorem startWrite_frames (msg : Message) : (ep.startWrite codec msg).frames = ep.frames := by
  unfold startWrite
  split <;> rfl

@[simp] theorem startWrite_seq (msg : Message) : (ep.startWrite codec msg).seq = ep.seq := by
  unfold startWrite
  split <;> rfl

@[simp] theorem startWrite_inbound (msg : Message) : (ep.startWrite codec msg).inbound = ep.inbound := by
  unfold startWrite
  split <;> rfl

private theorem startWrite_of_some {msg : Message} {bytes : Bytes} (hw : writeMessage codec msg = some bytes) :
    ep.startWrite codec msg = { ep with loop := .writing bytes } := by
  unfold startWrite
  rw [hw]

/-- An event that makes the loop write a message does so whenever it is enabled. -/
theorem step_startWrite {msg : Message} {bytes : Bytes} (h : ep.step codec e = some ep')
    (hmsg : ep.nextMessage e = some msg) (hw : writeMessage codec msg = some bytes) :
    ep'.loop = .writing bytes ∧ ep'.reader = ep.reader ∧ ep'.frames = ep.framesAfter e := by
  obtain ⟨-, hs⟩ := stepped h
  cases hs with
  | push | dropSenders | idleTimeout | forward => cases hmsg
  | tick hl =>
    cases hmsg
    rw [onTick, startWrite_of_some hw]
    exact ⟨rfl, rfl, rfl⟩
  | takeOutbound hl msg' rest ho =>
    rw [nextMessage, ho] at hmsg
    cases hmsg
    rw [startWrite_of_some hw]
    exact ⟨rfl, rfl, rfl⟩
  | noSenders hl ho =>
    rw [nextMessage, ho] at hmsg
    cases hmsg
  | takeError hl err rest hf =>
    rw [nextMessage, hf] at hmsg
    cases hmsg
  | takeFrame hl msg' rest hf =>
    rw [framesAfter, hf]
    rw [nextMessage, hf] at hmsg
    cases msg' with
    | ping seq =>
      cases hmsg
      rw [onFrame, startWrite_of_some hw]
      exact ⟨rfl, rfl, rfl⟩
    | pong | hello | clipboard | blobStart | blobChunk | blobEnd | blobAck | openUrl | authRequest | authReply =>
      cases hmsg
  | noFrames hl hf hr =>
    rw [nextMessage, hf] at hmsg
    cases hmsg

end Endpoint

end Qdrop
