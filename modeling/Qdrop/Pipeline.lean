import Qdrop.Clipboard.Switches
import Qdrop.Connection.Loop
import Qdrop.FileXfer.Send

/-!
# The internal pipeline of a daemon (`connection.rs`, `main.rs`, `sync.rs`, `filexfer.rs`)

One connection whose peer keeps reading, the hub, the router, the clipboard frame channel, the sync task and the
outbound channel.  The sync task waits inside `send_clip_image` until all of a large image is queued and
acknowledged; meanwhile it takes no clipboard frames, and these three waits can close a cycle.  The blob image task
takes an image as soon as it is queued, so the router never waits for it.
-/

namespace Qdrop

open Lib

/-- Slots of the hub. -/
def hubCap : Nat := 64

/-- Where `connection::run` is. -/
inductive RunPhase where
  /-- Inside `select!`. -/
  | polling
  /-- Inside `write_message`. -/
  | writing (msg : Message)
  /-- Inside `wire.inbound.send`. -/
  | delivering (msg : Message)
  | ended
deriving DecidableEq, Repr

/-- The `frames_rx` branch. -/
def RunPhase.onFrame : Message → RunPhase
  | .ping seq => .writing (.pong seq)
  | .pong _ | .hello _ => .polling
  | other => .delivering other

/-- `send_clip_image` at work for the one connected peer. -/
structure ImageSend where
  id : Nat
  call : SendCall
  /-- What its `oneshot` channel holds. -/
  ack : Option (Bool × String)

structure Pipeline where
  now : Int
  controls : Controls
  /-- Decoded frames between the reader task and the loop. -/
  frames : List Message
  run : RunPhase
  seq : Nat
  hub : List Message
  daemon : Daemon
  /-- The frame the router is putting on the clipboard frame channel. -/
  router : Option Message
  clipFrames : List Message
  changes : List LocalClip
  sync : SyncTask
  image : Option ImageSend
  nextId : Nat
  outbound : List Message

/-- What the handling of a frame sends back to its peer. -/
def Routed.sends (peer : DeviceId) : Routed → List Message
  | .filexfer effs => effs.filterMap fun
    | .send p msg => if p = peer then some msg else none
    | _ => none
  | .auth effs => effs.filterMap fun
    | .send p msg => if p = peer then some msg else none
    | _ => none
  | .clipboard .. | .weblink .. | .ignored => []

namespace Pipeline

def start (controls : Controls) (daemon : Daemon) : Pipeline :=
  ⟨0, controls, [], .polling, 0, [], daemon, none, [], [], .start 0, none, 1, []⟩

/-- `try_send` on the outbound channel. -/
def trySend (s : Pipeline) (msg : Message) : Pipeline :=
  if s.run ≠ .ended ∧ s.outbound.length < outboundCap then { s with outbound := s.outbound ++ [msg] } else s

/-- `connection::run` with its timers left out: `outbound` comes before the frames, and the peer reads what is
written. -/
def stepRun (s : Pipeline) : Option Pipeline :=
  match s.run with
  | .polling =>
    match s.outbound, s.frames with
    | msg :: rest, _ => some { s with run := .writing msg, outbound := rest }
    | [], msg :: rest => some { s with run := .onFrame msg, frames := rest }
    | [], [] => none
  | .writing _ => some { s with run := .polling }
  | .delivering msg => if s.hub.length < hubCap then some { s with run := .polling, hub := s.hub ++ [msg] } else none
  | .ended => none

/-- A `BlobAck` wakes the waiter of its transfer, once. -/
def acknowledge (s : Pipeline) (msg : Message) : Pipeline :=
  match msg, s.image with
  | .blobAck id ok detail, some ⟨id', call, none⟩ =>
    if id = id' then { s with image := some ⟨id', call, some (ok, detail)⟩ } else s
  | _, _ => s

section Step

variable (sha256 : Bytes → Digest) (localInfo : DeviceInfo) (cfg : XferConfig) (clipCfg : ClipConfig)
  (peer : DeviceId)

/-- The router: a clipboard frame waits for its channel, any other frame is handled at once. -/
def stepRouter (io : Io) (saveErr : Option String) (s : Pipeline) : Option Pipeline :=
  match s.router, s.hub with
  | some msg, _ =>
    if s.clipFrames.length < clipFramesCap then some { s with router := none, clipFrames := s.clipFrames ++ [msg] }
    else none
  | none, [] => none
  | none, msg :: rest =>
    match route sha256 localInfo cfg s.daemon ⟨peer, msg, io, saveErr⟩ with
    | (daemon, .clipboard _ msg) => some { s with hub := rest, daemon := daemon, router := some msg }
    | (daemon, routed) =>
      some ((routed.sends peer).foldl trySend ({ s with hub := rest, daemon := daemon }.acknowledge msg))

/-- The sync task takes a local change. -/
def takeLocal (s : Pipeline) : Option Pipeline :=
  match s.image, s.sync.phase, s.changes with
  | none, .selecting, clip :: changes =>
    some { s with changes := changes, sync := (s.sync.onLocal s.controls s.now clip).1 }
  | _, _, _ => none

/-- The sync task takes a clipboard frame. -/
def takeFrame (s : Pipeline) : Option Pipeline :=
  match s.image, s.sync.phase, s.clipFrames with
  | none, .selecting, msg :: frames =>
    some { s with clipFrames := frames, sync := s.sync.onRemote s.controls clipCfg.ownId clipCfg.maxText msg }
  | _, _, _ => none

/-- What a local change leads to. -/
def carryOut (s : Pipeline) : Outcome → Pipeline
  | .skipped _ => s
  | .broadcast msg => s.trySend msg
  | .blob png =>
    if s.run = .ended then s
    else { s with image := some ⟨s.nextId, sendClipImage 0 png, none⟩, nextId := s.nextId + 1 }

/-- The sync task's `history` call returns. -/
def recorded (s : Pipeline) : Option Pipeline :=
  match s.sync.phase with
  | .selecting => none
  | .recordingLocal clip =>
    let out := s.sync.broadcastLocal sha256 clipCfg.maxText clipCfg.ownId clip
    some ({ s with sync := out.1 }.carryOut out.2)
  | .recordingRemote clip => some { s with sync := (s.sync.applyRemote sha256 clip).1 }

/-- `send_clip_image` queues its next frame, or finds the connection gone. -/
def queue (s : Pipeline) : Option Pipeline :=
  match s.image with
  | none => none
  | some i =>
    match i.call.frame sha256 i.id with
    | none => none
    | some msg =>
      if s.run = .ended then some { s with image := none }
      else if s.outbound.length < outboundCap then
        some { s with outbound := s.outbound ++ [msg], image := some { i with call := i.call.queued } }
      else none

/-- `send_clip_image` cuts the next chunk. -/
def nextChunk (s : Pipeline) : Option Pipeline :=
  match s.image with
  | none => none
  | some i => i.call.nextChunk.map fun call => { s with image := some { i with call := call } }

/-- `send_clip_image` gets its acknowledgement. -/
def answer (s : Pipeline) : Option Pipeline :=
  match s.image with
  | some ⟨_, call, some (ok, detail)⟩ => (call.answered (.ack ok detail)).map fun _ => { s with image := none }
  | _ => none

/-- The timeout of the wait for the acknowledgement. -/
def ackTimeout (s : Pipeline) : Option Pipeline :=
  match s.image with
  | none => none
  | some i => (i.call.answered .timeout).map fun _ => { s with image := none }

end Step

end Pipeline

inductive PipeEvent where
  | run
  | router (io : Io) (saveErr : Option String)
  | takeLocal
  | takeFrame
  | recorded
  | queue
  | nextChunk
  | answer
  /-- The ping timer of the loop. -/
  | tick
  | idleTimeout
  | ackTimeout
  | clock (ms : Nat)
  | setControls (ctl : Controls)
  /-- The reader task puts a frame of the peer on its channel. -/
  | arrive (msg : Message)
  /-- The clipboard thread forwards a change. -/
  | copy (clip : LocalClip)
  /-- Another subsystem queues a message for the peer. -/
  | push (msg : Message)

/-- A step of the loop, the router or the sync task that is not a timer. -/
def PipeEvent.isTask : PipeEvent → Bool
  | .run | .router .. | .takeLocal | .takeFrame | .recorded | .queue | .nextChunk | .answer => true
  | .tick | .idleTimeout | .ackTimeout | .clock _ | .setControls _ | .arrive _ | .copy _ | .push _ => false

section Step

variable (sha256 : Bytes → Digest) (localInfo : DeviceInfo) (cfg : XferConfig) (clipCfg : ClipConfig)
  (peer : DeviceId)

def pipeStep (s : Pipeline) : PipeEvent → Option Pipeline
  | .run => s.stepRun
  | .router io saveErr => s.stepRouter sha256 localInfo cfg peer io saveErr
  | .takeLocal => s.takeLocal
  | .takeFrame => s.takeFrame clipCfg
  | .recorded => s.recorded sha256 clipCfg
  | .queue => s.queue sha256
  | .nextChunk => s.nextChunk
  | .answer => s.answer
  | .tick => if s.run = .polling then some { s with run := .writing (.ping (s.seq + 1)), seq := s.seq + 1 } else none
  | .idleTimeout => if s.run = .polling then some { s with run := .ended } else none
  | .ackTimeout => s.ackTimeout
  | .clock ms => some { s with now := s.now + ms }
  | .setControls ctl => some { s with controls := ctl }
  | .arrive msg => if s.frames.length < framesCap then some { s with frames := s.frames ++ [msg] } else none
  | .copy clip => if s.changes.length < localCap then some { s with changes := s.changes ++ [clip] } else none
  | .push msg =>
    if s.run ≠ .ended ∧ s.outbound.length < outboundCap then some { s with outbound := s.outbound ++ [msg] } else none

/-- A frame waits in the hub or for the sync task, or `send_clip_image` waits to queue one. -/
def Pipeline.Waiting (s : Pipeline) : Prop :=
  s.hub ≠ [] ∨ s.clipFrames ≠ [] ∨ ∃ i, s.image = some i ∧ i.call.frame sha256 i.id ≠ none

/-- Some task can take a step without waiting for a timeout. -/
def Pipeline.CanStep (s : Pipeline) : Prop :=
  ∃ e : PipeEvent, e.isTask = true ∧ (pipeStep sha256 localInfo cfg clipCfg peer s e).isSome = true

end Step

/-- `send_clip_image` waits for an acknowledgement that has come in. -/
def ImageSend.Acknowledged (i : ImageSend) : Prop := i.call.phase = .awaiting ∧ i.ack ≠ none

def Message.isClipboard : Message → Bool
  | .clipboard .. => true
  | .hello _ | .ping _ | .pong _ | .blobStart .. | .blobChunk .. | .blobEnd .. | .blobAck .. | .openUrl _
  | .authRequest .. | .authReply .. => false

/-- A large image is started only when no clipboard frame waits for the sync task, and the router takes a clipboard
frame only when no image is being sent (or its acknowledgement has come in). -/
def Unhurried (s : Pipeline) : PipeEvent → Prop
  | .recorded => ∀ png, s.sync.phase = .recordingLocal (.image png) → clipImageInlineMax < png.length →
      s.clipFrames = [] ∧ s.router = none
  | .router .. => s.router = none → ∀ msg ∈ s.hub.head?, msg.isClipboard = true →
      ∀ i ∈ s.image, i.Acknowledged
  | .run | .takeLocal | .takeFrame | .queue | .nextChunk | .answer | .tick | .idleTimeout | .ackTimeout | .clock _
  | .setControls _ | .arrive _ | .copy _ | .push _ => True

/-! ### No wedge while clipboard frames keep out of the way -/

namespace Pipeline

@[simp] theorem trySend_image (s : Pipeline) (msg : Message) : (s.trySend msg).image = s.image := by
  unfold trySend; split <;> rfl

@[simp] theorem trySend_clipFrames (s : Pipeline) (msg : Message) : (s.trySend msg).clipFrames = s.clipFrames := by
  unfold trySend; split <;> rfl

@[simp] theorem trySend_router (s : Pipeline) (msg : Message) : (s.trySend msg).router = s.router := by
  unfold trySend; split <;> rfl

/-- While an image is being sent nothing waits for the sync task. -/
def Clear (s : Pipeline) : Prop :=
  ∀ i, s.image = some i → ¬ i.Acknowledged → s.clipFrames = [] ∧ s.router = none

namespace Clear

variable {s s' : Pipeline}

theorem congr (h : Clear s) (himage : s'.image = s.image) (hclip : s'.clipFrames = s.clipFrames)
    (hrouter : s'.router = s.router) : Clear s' := by
  intro i hi hack
  rw [hclip, hrouter]
  exact h i (himage ▸ hi) hack

theorem of_none (h : s.image = none) : Clear s := by
  intro i hi
  rw [h] at hi
  cases hi

theorem trySend (h : Clear s) (msg : Message) : Clear (s.trySend msg) := h.congr (by simp) (by simp) (by simp)

theorem foldl_trySend (h : Clear s) (msgs : List Message) : Clear (msgs.foldl Pipeline.trySend s) := by
  induction msgs generalizing s with
  | nil => exact h
  | cons msg rest ih => exact ih (h.trySend msg)

/-- An acknowledgement that comes in leaves the queues alone. -/
theorem acknowledge (h : Clear s) (msg : Message) : Clear (s.acknowledge msg) := by
  unfold Pipeline.acknowledge
  split
  · rename_i id ok detail id' call himage
    split
    · intro i _ _
      exact h ⟨id', call, none⟩ himage (fun hack => hack.2 rfl)
    · exact h
  · exact h

end Clear

end Pipeline

private theorem route_isClipboard {sha256 : Bytes → Digest} {localInfo : DeviceInfo} {cfg : XferConfig} {d d' : Daemon}
    {f : Inbound} {p : DeviceId} {msg : Message} (h : route sha256 localInfo cfg d f = (d', .clipboard p msg)) :
    f.msg.isClipboard = true := by
  unfold route at h
  cases hm : f.msg with
  | clipboard => rfl
  | hello | ping | pong | blobStart | blobChunk | blobEnd | blobAck | openUrl | authRequest | authReply =>
    simp [hm] at h

section Runs

variable {sha256 : Bytes → Digest} {localInfo : DeviceInfo} {cfg : XferConfig} {clipCfg : ClipConfig} {peer : DeviceId}
  {s s' : Pipeline}

private theorem clear_run (h : s.Clear) (hs : s.stepRun = some s') : s'.Clear := by
  unfold Pipeline.stepRun at hs
  split at hs
  · split at hs
    · cases hs; exact h.congr rfl rfl rfl
    · cases hs; exact h.congr rfl rfl rfl
    · cases hs
  · cases hs; exact h.congr rfl rfl rfl
  · split at hs
    · cases hs; exact h.congr rfl rfl rfl
    · cases hs
  · cases hs

private theorem clear_router {io : Io} {saveErr : Option String} (h : s.Clear)
    (hok : Unhurried s (.router io saveErr)) (hs : s.stepRouter sha256 localInfo cfg peer io saveErr = some s') :
    s'.Clear := by
  unfold Pipeline.stepRouter at hs
  split at hs
  · rename_i msg hrouter
    split at hs
    · cases hs
      intro i hi hack
      have hnone := (h i hi hack).2
      rw [hrouter] at hnone
      cases hnone
    · cases hs
  · cases hs
  · rename_i msg rest hrouter hhub
    split at hs
    · rename_i daemon p msg' hroute
      cases hs
      intro i hi hack
      have hclip := route_isClipboard hroute
      exact absurd (hok hrouter msg (by simp [hhub]) hclip i hi) hack
    · cases hs
      refine Pipeline.Clear.foldl_trySend ?_ _
      refine Pipeline.Clear.acknowledge ?_ msg
      exact h.congr rfl rfl rfl

private theorem clear_recorded (h : s.Clear) (hok : Unhurried s .recorded)
    (hs : s.recorded sha256 clipCfg = some s') : s'.Clear := by
  unfold Pipeline.recorded at hs
  split at hs
  · cases hs
  · rename_i clip hp
    cases hs
    cases ho : (s.sync.broadcastLocal sha256 clipCfg.maxText clipCfg.ownId clip).2 with
    | skipped why => exact h.congr rfl rfl rfl
    | broadcast msg =>
      refine Pipeline.Clear.trySend ?_ msg
      exact h.congr rfl rfl rfl
    | blob png =>
      obtain ⟨rfl, hlen⟩ := SyncTask.broadcastLocal_blob ho
      unfold Pipeline.carryOut
      dsimp only
      split
      · exact h.congr rfl rfl rfl
      · intro i _ _
        exact hok png hp hlen
  · cases hs
    exact h.congr rfl rfl rfl

private theorem clear_image (sha256 : Bytes → Digest) (h : s.Clear) :
    (∀ s', s.queue sha256 = some s' → s'.Clear) ∧ (∀ s', s.nextChunk = some s' → s'.Clear) ∧
      (∀ s', s.answer = some s' → s'.Clear) ∧ ∀ s', s.ackTimeout = some s' → s'.Clear := by
  refine ⟨?_, ?_, ?_, ?_⟩
  · intro s' hs
    unfold Pipeline.queue at hs
    split at hs
    · cases hs
    · rename_i i hi
      split at hs
      · cases hs
      · rename_i msg hframe
        split at hs
        · cases hs; exact Pipeline.Clear.of_none rfl
        split at hs
        · cases hs
          intro _ _ _
          refine h i hi ?_
          rintro ⟨hphase, -⟩
          simp [SendCall.frame, hphase] at hframe
        · cases hs
  · intro s' hs
    unfold Pipeline.nextChunk at hs
    split at hs
    · cases hs
    · rename_i i hi
      obtain ⟨call, hcall, rfl⟩ := Option.map_eq_some_iff.1 hs
      intro _ _ _
      refine h i hi ?_
      rintro ⟨hphase, -⟩
      simp [SendCall.nextChunk, hphase] at hcall
  · intro s' hs
    unfold Pipeline.answer at hs
    split at hs
    · obtain ⟨call, -, rfl⟩ := Option.map_eq_some_iff.1 hs
      exact Pipeline.Clear.of_none rfl
    · cases hs
  · intro s' hs
    unfold Pipeline.ackTimeout at hs
    split at hs
    · cases hs
    · obtain ⟨call, -, rfl⟩ := Option.map_eq_some_iff.1 hs
      exact Pipeline.Clear.of_none rfl

private theorem clear_step {e : PipeEvent} (h : s.Clear) (hok : Unhurried s e)
    (hs : pipeStep sha256 localInfo cfg clipCfg peer s e = some s') : s'.Clear := by
  obtain ⟨hqueue, hchunk, hanswer, htimeout⟩ := clear_image sha256 h
  unfold pipeStep at hs
  cases e with
  | run => exact clear_run h hs
  | router io saveErr => exact clear_router h hok hs
  | takeLocal =>
    dsimp only [Pipeline.takeLocal] at hs
    split at hs
    · cases hs; exact h.congr rfl rfl rfl
    · cases hs
  | takeFrame =>
    dsimp only [Pipeline.takeFrame] at hs
    split at hs
    · rename_i himage _ _
      cases hs
      exact Pipeline.Clear.of_none himage
    · cases hs
  | recorded => exact clear_recorded h hok hs
  | queue => exact hqueue s' hs
  | nextChunk => exact hchunk s' hs
  | answer => exact hanswer s' hs
  | ackTimeout => exact htimeout s' hs
  | clock | setControls => cases hs; exact h.congr rfl rfl rfl
  | tick | idleTimeout | arrive | copy | push =>
    dsimp only at hs
    split at hs
    · cases hs; exact h.congr rfl rfl rfl
    · cases hs

private theorem canStep_of {e : PipeEvent} (htask : e.isTask = true)
    (h : pipeStep sha256 localInfo cfg clipCfg peer s e ≠ none) : s.CanStep sha256 localInfo cfg clipCfg peer :=
  ⟨e, htask, Option.isSome_iff_ne_none.2 h⟩

/-- A frame for the sync task: it is taken, or the task is about to finish what it does. -/
private theorem canStep_clipFrames (h : s.Clear) (hne : s.clipFrames ≠ []) :
    s.CanStep sha256 localInfo cfg clipCfg peer := by
  obtain ⟨msg, rest, hclip⟩ := List.exists_cons_of_ne_nil hne
  cases himage : s.image with
  | none =>
    cases hp : s.sync.phase with
    | selecting =>
      refine canStep_of (e := .takeFrame) rfl ?_
      simp [pipeStep, Pipeline.takeFrame, himage, hp, hclip]
    | recordingLocal clip =>
      refine canStep_of (e := .recorded) rfl ?_
      simp [pipeStep, Pipeline.recorded, hp]
    | recordingRemote clip =>
      refine canStep_of (e := .recorded) rfl ?_
      simp [pipeStep, Pipeline.recorded, hp]
  | some i =>
    have hack : i.Acknowledged := by
      by_contra hnot
      exact hne (h i himage hnot).1
    obtain ⟨id, call, ack⟩ := i
    have hphase : call.phase = .awaiting := hack.1
    obtain ⟨⟨ok, detail⟩, rfl⟩ := Option.ne_none_iff_exists'.1 hack.2
    refine canStep_of (e := .answer) rfl ?_
    cases ok <;> simp [pipeStep, Pipeline.answer, himage, SendCall.answered, hphase]

/-- A frame in the hub: the router takes it, or puts the one it holds on the channel, or the sync task moves. -/
private theorem canStep_hub (h : s.Clear) (hne : s.hub ≠ []) : s.CanStep sha256 localInfo cfg clipCfg peer := by
  obtain ⟨msg, rest, hhub⟩ := List.exists_cons_of_ne_nil hne
  cases hrouter : s.router with
  | none =>
    refine canStep_of (e := .router Io.ok none) rfl ?_
    simp only [pipeStep, Pipeline.stepRouter, hrouter, hhub]
    split <;> simp
  | some held =>
    by_cases hlen : s.clipFrames.length < clipFramesCap
    · refine canStep_of (e := .router Io.ok none) rfl ?_
      simp [pipeStep, Pipeline.stepRouter, hrouter, hlen]
    · refine canStep_clipFrames h ?_
      intro hnil
      exact hlen (by rw [hnil]; decide)

/-- A frame of an image: it is queued, or the loop makes room. -/
private theorem canStep_image {i : ImageSend} (h : s.Clear) (hi : s.image = some i)
    (hframe : i.call.frame sha256 i.id ≠ none) : s.CanStep sha256 localInfo cfg clipCfg peer := by
  obtain ⟨msg, hmsg⟩ := Option.ne_none_iff_exists'.1 hframe
  by_cases hhub : s.hub = []
  · cases hrun : s.run with
    | ended =>
      refine canStep_of (e := .queue) rfl ?_
      simp [pipeStep, Pipeline.queue, hi, hmsg, hrun]
    | polling =>
      by_cases hout : s.outbound.length < outboundCap
      · refine canStep_of (e := .queue) rfl ?_
        simp [pipeStep, Pipeline.queue, hi, hmsg, hrun, hout]
      · have hfull : s.outbound ≠ [] := by
          intro hnil
          exact hout (by rw [hnil]; decide)
        obtain ⟨m, rest, hm⟩ := List.exists_cons_of_ne_nil hfull
        refine canStep_of (e := .run) rfl ?_
        simp [pipeStep, Pipeline.stepRun, hrun, hm]
    | writing m =>
      refine canStep_of (e := .run) rfl ?_
      simp [pipeStep, Pipeline.stepRun, hrun]
    | delivering m =>
      refine canStep_of (e := .run) rfl ?_
      simp [pipeStep, Pipeline.stepRun, hrun, hhub, hubCap]
  · exact canStep_hub h hhub

/-- In every run in which clipboard frames keep out of the way of large images, a waiting frame or chunk never leaves
all tasks stuck. -/
theorem pipeline_flows (sha256 : Bytes → Digest) (localInfo : DeviceInfo) (cfg : XferConfig) (clipCfg : ClipConfig)
    (peer : DeviceId) (controls : Controls) (daemon : Daemon) (es : List PipeEvent) (s : Pipeline)
    (hr : Run (pipeStep sha256 localInfo cfg clipCfg peer) Unhurried (.start controls daemon) es s)
    (hw : s.Waiting sha256) : s.CanStep sha256 localInfo cfg clipCfg peer := by
  have h : s.Clear := by
    refine hr.invariant (Pipeline.Clear.of_none rfl) ?_
    intro s e t hs hok hstep
    exact clear_step hs hok hstep
  rcases hw with hhub | hclip | ⟨i, hi, hframe⟩
  · exact canStep_hub h hhub
  · exact canStep_clipFrames h hclip
  · exact canStep_image h hi hframe

/-- A clipboard frame of the peer passes through. -/
private def pass (msg : Message) : List PipeEvent := [.arrive msg, .run, .run]

private def dummyHash (_ : Bytes) : Digest := Vector.replicate 32 0

private def quietDaemon : Daemon := ⟨.absent, AuthManager.new, ⟨∅, FileSys.empty⟩⟩

private def host : DeviceInfo := ⟨"host", [], "linux"⟩

/-- The steps of this daemon, whose peer is "p". -/
private def hostStep : Pipeline → PipeEvent → Option Pipeline :=
  pipeStep dummyHash host ⟨"d", .never, true⟩ ⟨"a", .other, 1024⟩ "p"

/-- The loop and the reader task only. -/
private def PipeEvent.isInbound : PipeEvent → Bool
  | .run | .arrive _ => true
  | _ => false

private theorem unhurried_of_inbound {s : Pipeline} {e : PipeEvent} (h : e.isInbound = true) : Unhurried s e := by
  cases e with
  | run | arrive => trivial
  | router | takeLocal | takeFrame | recorded | queue | nextChunk | answer | tick | idleTimeout | ackTimeout | clock
  | setControls | copy | push => cases h

private def clipFrame : Message := .clipboard 1 "p" []

/-- A clipboard frame in the hub can be taken. -/
theorem pipeline_flows_frame :
    ∃ s, Run hostStep Unhurried (.start ⟨false, true⟩ quietDaemon) (pass clipFrame) s ∧ s.hub = [clipFrame] ∧
      s.CanStep dummyHash host ⟨"d", .never, true⟩ ⟨"a", .other, 1024⟩ "p" := by
  obtain ⟨s, hr, hv⟩ := run_of_exec_view hostStep (fun e => e.isInbound = true) (.start ⟨false, true⟩ quietDaemon)
    (pass clipFrame) Pipeline.hub [clipFrame] (by decide) (by decide +kernel)
  have hr' : Run hostStep Unhurried (.start ⟨false, true⟩ quietDaemon) (pass clipFrame) s :=
    hr.mono fun _ _ h => unhurried_of_inbound h
  exact ⟨s, hr', hv, pipeline_flows dummyHash host _ _ "p" _ _ _ s hr' (Or.inl (by rw [hv]; simp))⟩

end Runs

/-! ### The wedge -/

section Wedge

variable {sha256 : Bytes → Digest} {localInfo : DeviceInfo} {cfg : XferConfig} {clipCfg : ClipConfig} {peer : DeviceId}
  {s s' : Pipeline}

/-- The loop waits for the hub, the router for the clipboard frame channel, and the sync task for the outbound
channel, which only the loop empties. -/
structure Pipeline.Wedged (sha256 : Bytes → Digest) (s : Pipeline) : Prop where
  delivering : ∃ msg, s.run = .delivering msg
  hub : hubCap ≤ s.hub.length
  router : ∃ msg, s.router = some msg
  clipFrames : clipFramesCap ≤ s.clipFrames.length
  selecting : s.sync.phase = .selecting
  image : ∃ i msg, s.image = some i ∧ i.call.frame sha256 i.id = some msg
  outbound : outboundCap ≤ s.outbound.length

/-- A call with a frame to queue cuts no chunk and takes no answer. -/
private theorem frame_blocks {c : SendCall} {id : Nat} {msg : Message} (h : c.frame sha256 id = some msg) :
    c.nextChunk = none ∧ ∀ a, c.answered a = none := by
  unfold SendCall.frame at h
  unfold SendCall.nextChunk SendCall.answered
  cases hp : c.phase with
  | starting => simp
  | sending data => simp
  | ending => simp
  | opening | reading | awaiting | returned => simp [hp] at h

/-- In a wedge no task moves. -/
private theorem wedged_task {e : PipeEvent} (h : Pipeline.Wedged sha256 s) (htask : e.isTask = true) :
    pipeStep sha256 localInfo cfg clipCfg peer s e = none := by
  obtain ⟨msg, hrun⟩ := h.delivering
  obtain ⟨held, hrouter⟩ := h.router
  obtain ⟨i, m, hi, hframe⟩ := h.image
  obtain ⟨hchunk, hans⟩ := frame_blocks hframe
  cases e with
  | run => simp [pipeStep, Pipeline.stepRun, hrun, Nat.not_lt.2 h.hub]
  | router io saveErr => simp [pipeStep, Pipeline.stepRouter, hrouter, Nat.not_lt.2 h.clipFrames]
  | takeLocal => simp [pipeStep, Pipeline.takeLocal, hi]
  | takeFrame => simp [pipeStep, Pipeline.takeFrame, hi]
  | recorded => simp [pipeStep, Pipeline.recorded, h.selecting]
  | queue => simp [pipeStep, Pipeline.queue, hi, hframe, hrun, Nat.not_lt.2 h.outbound]
  | nextChunk => simp [pipeStep, Pipeline.nextChunk, hi, hchunk]
  | answer =>
    obtain ⟨id, call, ack⟩ := i
    cases ack with
    | none => simp [pipeStep, Pipeline.answer, hi]
    | some a =>
      obtain ⟨ok, detail⟩ := a
      simp only [pipeStep, Pipeline.answer, hi]
      rw [hans]
      rfl
  | tick | idleTimeout | ackTimeout | clock | setControls | arrive | copy | push => cases htask

private theorem wedged_stuck (h : Pipeline.Wedged sha256 s) : ¬ s.CanStep sha256 localInfo cfg clipCfg peer := by
  rintro ⟨e, htask, hsome⟩
  rw [wedged_task h htask] at hsome
  cases hsome

private theorem wedged_step {e : PipeEvent} (h : Pipeline.Wedged sha256 s)
    (hs : pipeStep sha256 localInfo cfg clipCfg peer s e = some s') : Pipeline.Wedged sha256 s' := by
  by_cases htask : e.isTask = true
  · rw [wedged_task h htask] at hs
    cases hs
  · obtain ⟨msg, hrun⟩ := h.delivering
    obtain ⟨i, m, hi, hframe⟩ := h.image
    cases e with
    | run | router | takeLocal | takeFrame | recorded | queue | nextChunk | answer => exact absurd rfl htask
    | tick => simp [pipeStep, hrun] at hs
    | idleTimeout => simp [pipeStep, hrun] at hs
    | ackTimeout => simp [pipeStep, Pipeline.ackTimeout, hi, (frame_blocks hframe).2] at hs
    | clock ms =>
      cases hs
      exact ⟨h.delivering, h.hub, h.router, h.clipFrames, h.selecting, h.image, h.outbound⟩
    | setControls ctl =>
      cases hs
      exact ⟨h.delivering, h.hub, h.router, h.clipFrames, h.selecting, h.image, h.outbound⟩
    | arrive msg =>
      simp only [pipeStep] at hs
      split at hs
      · cases hs
        exact ⟨h.delivering, h.hub, h.router, h.clipFrames, h.selecting, h.image, h.outbound⟩
      · cases hs
    | copy clip =>
      simp only [pipeStep] at hs
      split at hs
      · cases hs
        exact ⟨h.delivering, h.hub, h.router, h.clipFrames, h.selecting, h.image, h.outbound⟩
      · cases hs
    | push msg => simp [pipeStep, Nat.not_lt.2 h.outbound] at hs

/-- A wedge lasts: neither the timers of the loop nor that of the acknowledgement run in it. -/
theorem wedged_forever {es : List PipeEvent} (h : Pipeline.Wedged sha256 s)
    (hr : Run (pipeStep sha256 localInfo cfg clipCfg peer) Always s es s') : Pipeline.Wedged sha256 s' :=
  hr.invariant h fun _ _ _ hw _ hs => wedged_step hw hs

/-! The run into the wedge: the user copies a large image, the peer sends clipboard frames until the loop waits for
the hub, and then the sync task fills the outbound channel with chunks. -/

-- irreducible, so that no check unfolds its four million bytes
@[irreducible] private def bigImage : Bytes := List.replicate (outboundCap * blobChunk + 1) 0

private theorem length_bigImage : bigImage.length = outboundCap * blobChunk + 1 := by
  unfold bigImage
  exact List.length_replicate

/-- The state in which the sync task is about to queue `BlobStart`. -/
private def sendingBig : Pipeline :=
  { Pipeline.start ⟨false, true⟩ quietDaemon with
    sync := ⟨0, some (dummyHash bigImage), 0, .selecting⟩
    image := some ⟨1, sendClipImage 0 bigImage, none⟩
    nextId := 2 }

private theorem run_sendingBig :
    Run hostStep Always (.start ⟨false, true⟩ quietDaemon) [.copy (.image bigImage), .takeLocal, .recorded]
      sendingBig := by
  let copied : Pipeline := { Pipeline.start ⟨false, true⟩ quietDaemon with changes := [.image bigImage] }
  let recording : Pipeline :=
    { Pipeline.start ⟨false, true⟩ quietDaemon with sync := ⟨0, none, 0, .recordingLocal (.image bigImage)⟩ }
  have hcopy : hostStep (.start ⟨false, true⟩ quietDaemon) (.copy (.image bigImage)) = some copied := rfl
  have htake : hostStep copied .takeLocal = some recording := rfl
  have hout : recording.sync.broadcastLocal dummyHash 1024 "a" (.image bigImage) =
      (⟨0, some (dummyHash bigImage), 0, .selecting⟩, .blob bigImage) :=
    SyncTask.broadcastLocal_large dummyHash (by rw [length_bigImage]; decide) (by rintro ⟨⟩)
  have hrecorded : hostStep recording .recorded = some sendingBig := by
    have heq : hostStep recording .recorded = some
        ({ recording with sync := (recording.sync.broadcastLocal dummyHash 1024 "a" (.image bigImage)).1 }.carryOut
          (recording.sync.broadcastLocal dummyHash 1024 "a" (.image bigImage)).2) := rfl
    rw [heq, hout]
    rfl
  exact ((Run.nil _).snoc trivial hcopy |>.snoc trivial htake).snoc trivial hrecorded

/-- The steps of the peer, the loop and the router while clipboard frames come in. -/
private def Bystander (s : Pipeline) : PipeEvent → Prop
  | .run | .arrive _ => True
  | .router .. => s.router ≠ none ∨ ∀ msg ∈ s.hub.head?, msg.isClipboard = true
  | _ => False

private instance (s : Pipeline) : ∀ e, Decidable (Bystander s e)
  | .run | .arrive _ => inferInstanceAs (Decidable True)
  | .router .. => inferInstanceAs (Decidable (_ ∨ _))
  | .takeLocal | .takeFrame | .recorded | .queue | .nextChunk | .answer | .tick | .idleTimeout | .ackTimeout
  | .clock _ | .setControls _ | .copy _ | .push _ => inferInstanceAs (Decidable False)

private theorem bystander_image {e : PipeEvent} (hok : Bystander s e)
    (hs : pipeStep sha256 localInfo cfg clipCfg peer s e = some s') : s'.image = s.image := by
  cases e with
  | run =>
    simp only [pipeStep, Pipeline.stepRun] at hs
    split at hs
    · split at hs <;> cases hs <;> rfl
    · cases hs; rfl
    · split at hs <;> cases hs
      rfl
    · cases hs
  | arrive msg =>
    simp only [pipeStep] at hs
    split at hs <;> cases hs
    rfl
  | router io saveErr =>
    simp only [pipeStep, Pipeline.stepRouter] at hs
    split at hs
    · split at hs <;> cases hs
      rfl
    · cases hs
    · rename_i msg rest hrouter hhub
      have hclip : msg.isClipboard = true := hok.resolve_left (fun hne => hne hrouter) msg (by simp [hhub])
      cases msg with
      | clipboard seq origin entries =>
        simp only [route] at hs
        cases hs
        rfl
      | hello | ping | pong | blobStart | blobChunk | blobEnd | blobAck | openUrl | authRequest | authReply =>
        cases hclip
  | takeLocal | takeFrame | recorded | queue | nextChunk | answer | tick | idleTimeout | ackTimeout | clock
  | setControls | copy | push => exact hok.elim

/-- Enough clipboard frames to fill the channel to the sync task and the hub, and one for the router and the loop
each. -/
private def clipFlood : List PipeEvent :=
  (List.replicate 64 (pass clipFrame ++ [.router Io.ok none, .router Io.ok none])).flatten ++
    pass clipFrame ++ [.router Io.ok none] ++ (List.replicate 64 (pass clipFrame)).flatten ++ [.arrive clipFrame, .run]

private theorem run_clipFlood :
    ∃ s, Run hostStep Always sendingBig clipFlood s ∧ s.image = some ⟨1, sendClipImage 0 bigImage, none⟩ ∧
      s.run = .delivering clipFrame ∧ s.hub.length = hubCap ∧ s.router = some clipFrame ∧
      s.clipFrames.length = clipFramesCap ∧ s.sync.phase = .selecting ∧ s.outbound = [] := by
  obtain ⟨s, hr, hv⟩ := run_of_exec_checked hostStep Bystander sendingBig clipFlood
    (fun s => decide (s.run = .delivering clipFrame ∧ s.hub.length = hubCap ∧ s.router = some clipFrame ∧
      s.clipFrames.length = clipFramesCap ∧ s.sync.phase = .selecting ∧ s.outbound = [])) true (by decide +kernel)
  have himage : s.image = some ⟨1, sendClipImage 0 bigImage, none⟩ := by
    refine hr.invariant (I := fun s => s.image = some ⟨1, sendClipImage 0 bigImage, none⟩) rfl ?_
    intro t e u ht hok hs
    rw [bystander_image hok hs, ht]
  exact ⟨s, hr.always, himage, of_decide_eq_true hv⟩

/-- What the steps of `send_clip_image` leave alone. -/
private def Pipeline.around (s : Pipeline) : RunPhase × List Message × Option Message × List Message × SyncPhase :=
  (s.run, s.hub, s.router, s.clipFrames, s.sync.phase)

/-- The call with its next chunk cut off. -/
private def SendCall.cut (call : SendCall) (rest : Bytes) : SendCall :=
  { call with
    phase := .sending (rest.take blobChunk)
    hasher := call.hasher ++ rest.take blobChunk
    source := .mem (rest.drop blobChunk) }

private theorem step_nextChunk {id : Nat} {call : SendCall} {rest : Bytes}
    (himage : s.image = some ⟨id, call, none⟩) (hphase : call.phase = .reading) (hsource : call.source = .mem rest)
    (hne : rest ≠ []) :
    pipeStep sha256 localInfo cfg clipCfg peer s .nextChunk =
      some { s with image := some ⟨id, call.cut rest, none⟩ } := by
  simp [pipeStep, Pipeline.nextChunk, himage, SendCall.nextChunk, hphase, hsource, hne, SendCall.cut]

/-- Left alone, `send_clip_image` queues a chunk for each free slot and then waits with the next one. -/
private theorem fill_outbound (sha256 : Bytes → Digest) (localInfo : DeviceInfo) (cfg : XferConfig)
    (clipCfg : ClipConfig) (peer : DeviceId) (id n : Nat) {call : SendCall} {rest : Bytes} (hrun : s.run ≠ .ended)
    (himage : s.image = some ⟨id, call, none⟩) (hphase : call.phase = .reading) (hsource : call.source = .mem rest)
    (hrest : n * blobChunk < rest.length) (hroom : s.outbound.length + n ≤ outboundCap) :
    ∃ es t call' data, Run (pipeStep sha256 localInfo cfg clipCfg peer) Always s es t ∧
      t.image = some ⟨id, call', none⟩ ∧ call'.phase = .sending data ∧ t.outbound.length = s.outbound.length + n ∧
      t.around = s.around := by
  induction n generalizing s call rest with
  | zero =>
    have hne : rest ≠ [] := List.ne_nil_of_length_pos (Nat.zero_lt_of_lt hrest)
    exact ⟨_, _, call.cut rest, _, (Run.nil s).snoc trivial (step_nextChunk himage hphase hsource hne), rfl, rfl, rfl,
      rfl⟩
  | succ n ih =>
    have hne : rest ≠ [] := List.ne_nil_of_length_pos (Nat.zero_lt_of_lt hrest)
    let queued : Pipeline :=
      { s with outbound := s.outbound ++ [.blobChunk id (rest.take blobChunk)]
               image := some ⟨id, { call.cut rest with phase := .reading }, none⟩ }
    have hqueue : pipeStep sha256 localInfo cfg clipCfg peer { s with image := some ⟨id, call.cut rest, none⟩ } .queue =
        some queued := by
      have hlen : s.outbound.length < outboundCap := by omega
      simp [pipeStep, Pipeline.queue, SendCall.cut, SendCall.frame, SendCall.queued, hrun, hlen, queued]
    have hleft : n * blobChunk < (rest.drop blobChunk).length := by
      rw [List.length_drop]
      have hmul : (n + 1) * blobChunk = n * blobChunk + blobChunk := Nat.succ_mul n blobChunk
      omega
    obtain ⟨es, t, call', data, hr, hi, hp, hout, haround⟩ := ih (s := queued) hrun rfl rfl rfl hleft
      (by simp only [queued, List.length_append, List.length_singleton]; omega)
    have hstart : Run (pipeStep sha256 localInfo cfg clipCfg peer) Always s [.nextChunk, .queue] queued :=
      ((Run.nil s).snoc trivial (step_nextChunk himage hphase hsource hne)).snoc trivial hqueue
    refine ⟨_, t, call', data, hstart.trans hr, hi, hp, ?_, haround⟩
    rw [hout]
    simp only [queued, List.length_append, List.length_singleton]
    omega

/-- The wedge is reached. -/
private theorem wedge_reached :
    ∃ es s, Run hostStep Always (.start ⟨false, true⟩ quietDaemon) es s ∧ Pipeline.Wedged dummyHash s := by
  obtain ⟨s, hflood, himage, hrun, hhub, hrouter, hclip, hphase, hout⟩ := run_clipFlood
  let started : SendCall := { sendClipImage 0 bigImage with phase := .reading }
  let queued : Pipeline :=
    { s with outbound := [.blobStart 1 "clipboard.png" bigImage.length .clipboardImage]
             image := some ⟨1, started, none⟩ }
  have hqueue : hostStep s .queue = some queued := by
    simp [hostStep, pipeStep, Pipeline.queue, himage, sendClipImage, SendCall.frame, SendCall.queued, hrun, hout,
      outboundCap, queued, started]
  obtain ⟨es, t, call, data, hfill, hi, hp, hlen, haround⟩ :=
    fill_outbound dummyHash host ⟨"d", .never, true⟩ ⟨"a", .other, 1024⟩ "p" (s := queued) 1 63
      (by simp [queued, hrun]) rfl rfl rfl (by rw [length_bigImage]; decide) (by simp [queued]; decide)
  have hstart : Run hostStep Always (.start ⟨false, true⟩ quietDaemon)
      ([.copy (.image bigImage), .takeLocal, .recorded] ++ clipFlood ++ [.queue]) queued :=
    (run_sendingBig.trans hflood).snoc trivial hqueue
  have hr := hstart.trans hfill
  simp only [Pipeline.around, queued, Prod.mk.injEq] at haround
  obtain ⟨hrun', hhub', hrouter', hclip', hphase'⟩ := haround
  refine ⟨_, t, hr, ?_⟩
  exact
    { delivering := ⟨clipFrame, by rw [hrun', hrun]⟩
      hub := by rw [hhub', hhub]
      router := ⟨clipFrame, by rw [hrouter', hrouter]⟩
      clipFrames := by rw [hclip', hclip]
      selecting := by rw [hphase', hphase]
      image := ⟨⟨1, call, none⟩, .blobChunk 1 data, hi, by simp [SendCall.frame, hp]⟩
      outbound := by rw [hlen]; simp [queued, outboundCap] }

/-- The three waits can close a cycle that no step and no timeout opens again. -/
theorem pipeline_wedges :
    ¬ ∀ (sha256 : Bytes → Digest) (localInfo : DeviceInfo) (cfg : XferConfig) (clipCfg : ClipConfig) (peer : DeviceId)
      (controls : Controls) (daemon : Daemon) (es : List PipeEvent) (s : Pipeline),
      Run (pipeStep sha256 localInfo cfg clipCfg peer) Always (.start controls daemon) es s → s.Waiting sha256 →
      s.CanStep sha256 localInfo cfg clipCfg peer := by
  intro h
  obtain ⟨es, s, hr, hw⟩ := wedge_reached
  obtain ⟨i, msg, hi, hframe⟩ := hw.image
  exact wedged_stuck hw (h _ _ _ _ _ _ _ es s hr (Or.inr (Or.inr ⟨i, hi, by rw [hframe]; simp⟩)))

end Wedge

end Qdrop
