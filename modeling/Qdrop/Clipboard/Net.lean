import Mathlib.Logic.Function.Basic
import Qdrop.Clipboard.Sync

/-!
# Any number of daemons that share their clipboards

A desk is one device: the system clipboard, the clipboard thread, the channel of local changes and the sync loop.
The desks are joined by one queue of frames and one of large images for each ordered pair of devices.  Every event is
one step of one task; a broadcast reaches the peers the event names (`try_send` drops it for the others), and a frame
on its way may be lost with its connection.
-/

namespace Qdrop

structure Desk where
  controls : Controls
  board : Board
  cmds : List ClipCommand
  thread : ClipThread
  /-- The local changes waiting for the sync loop. -/
  changes : List LocalClip
  sync : SyncTask
  /-- What the user has copied so far. -/
  copied : List Content
  /-- What the thread has sent to the sync loop so far. -/
  forwarded : List LocalClip
  /-- What came of the local changes so far. -/
  outcomes : List (LocalClip × Outcome)

namespace Desk

variable (sha256 : Bytes → Digest) (cfg : ClipConfig)

/-- The device when its thread and its loop have started. -/
def start (now : Int) (controls : Controls) (board : Board) : Desk :=
  ⟨controls, board, [], .start (board.snapshot cfg.os controls.syncImages), [], .start now, [], [], []⟩

def copy (k : Desk) (c : Content) (token : Int) : Desk :=
  { k with board := ⟨c, token⟩, copied := k.copied ++ [c] }

/-- Some task sends the thread a command. -/
def command (k : Desk) (cmd : ClipCommand) : Desk := { k with cmds := k.cmds ++ [cmd] }

/-- The thread takes a command and writes. -/
def take (res : SetResult) (k : Desk) : Option Desk :=
  match k.thread.phase, k.cmds with
  | .waiting, cmd :: cmds =>
    some { k with cmds := cmds, board := k.board.set res cmd, thread := k.thread.onCommand sha256 cmd }
  | _, _ => none

/-- The thread reads the token after its write. -/
def settle (k : Desk) : Option Desk :=
  match k.thread.phase with
  | .applied => some { k with thread := k.thread.settle (k.board.snapshot cfg.os k.controls.syncImages) }
  | _ => none

def poll (k : Desk) : Option Desk :=
  match k.thread.phase with
  | .waiting => some { k with thread := k.thread.poll sha256 (k.board.snapshot cfg.os k.controls.syncImages) }
  | _ => none

/-- `blocking_send` completes. -/
def forward (k : Desk) : Option Desk :=
  match k.thread.phase with
  | .sending clip =>
    if k.changes.length < localCap then
      some { k with thread := { k.thread with phase := .waiting }, changes := k.changes ++ [clip],
                    forwarded := k.forwarded ++ [clip] }
    else none
  | _ => none

/-- The sync loop takes a local change. -/
def takeLocal (now : Int) (k : Desk) : Option Desk :=
  match k.sync.phase, k.changes with
  | .selecting, clip :: changes =>
    match k.sync.onLocal k.controls now clip with
    | (sync, some why) => some { k with changes := changes, sync := sync,
                                        outcomes := k.outcomes ++ [(clip, .skipped why)] }
    | (sync, none) => some { k with changes := changes, sync := sync }
  | _, _ => none

/-- The sync loop has recorded a local change. -/
def finishLocal (k : Desk) : Option (Desk × Outcome) :=
  match k.sync.phase with
  | .recordingLocal clip =>
    let out := k.sync.broadcastLocal sha256 cfg.maxText cfg.ownId clip
    some ({ k with sync := out.1, outcomes := k.outcomes ++ [(clip, out.2)] }, out.2)
  | _ => none

/-- The sync loop takes a frame of a peer. -/
def receive (k : Desk) (msg : Message) : Option Desk :=
  match k.sync.phase with
  | .selecting => some { k with sync := k.sync.onRemote k.controls cfg.ownId cfg.maxText msg }
  | _ => none

/-- The sync loop has recorded what a peer sent. -/
def finishRemote (k : Desk) : Option Desk :=
  match k.sync.phase with
  | .recordingRemote clip =>
    let out := k.sync.applyRemote sha256 clip
    some { k with sync := out.1, cmds := k.cmds ++ out.2.toList }
  | _ => none

/-- The local changes whose broadcast was started. -/
def broadcasts (k : Desk) : List LocalClip :=
  k.outcomes.filterMap fun p => match p.2 with
    | .skipped _ => none
    | .broadcast _ | .blob _ => some p.1

/-! What each step can do to a desk. -/

variable {sha256 cfg} {k k' : Desk}

theorem take_some {res : SetResult} (h : k.take sha256 res = some k') :
    ∃ cmd cmds, k.thread.phase = .waiting ∧ k.cmds = cmd :: cmds ∧
      k' = { k with cmds := cmds, board := k.board.set res cmd, thread := k.thread.onCommand sha256 cmd } := by
  unfold take at h
  split at h
  · rename_i cmd cmds hp hc
    exact ⟨cmd, cmds, hp, hc, (Option.some.inj h).symm⟩
  · cases h

theorem settle_some (h : k.settle cfg = some k') :
    k.thread.phase = .applied ∧
      k' = { k with thread := { k.thread with lastToken := some k.board.token, phase := .waiting } } := by
  unfold settle at h
  split at h
  · rename_i hp
    rw [ClipThread.settle, Board.snapshot_token] at h
    exact ⟨hp, (Option.some.inj h).symm⟩
  · cases h

theorem poll_some (h : k.poll sha256 cfg = some k') :
    k.thread.phase = .waiting ∧
      k' = { k with thread := k.thread.poll sha256 (k.board.snapshot cfg.os k.controls.syncImages) } := by
  unfold poll at h
  split at h
  · rename_i hp
    exact ⟨hp, (Option.some.inj h).symm⟩
  · cases h

theorem forward_some (h : k.forward = some k') :
    ∃ clip, k.thread.phase = .sending clip ∧
      k' = { k with thread := { k.thread with phase := .waiting }, changes := k.changes ++ [clip],
                    forwarded := k.forwarded ++ [clip] } := by
  unfold forward at h
  split at h
  · rename_i clip hp
    split at h
    · exact ⟨clip, hp, (Option.some.inj h).symm⟩
    · cases h
  · cases h

theorem takeLocal_some {now : Int} (h : k.takeLocal now = some k') :
    ∃ clip changes, k.sync.phase = .selecting ∧ k.changes = clip :: changes ∧
      ((∃ sync why, k.sync.onLocal k.controls now clip = (sync, some why) ∧
          k' = { k with changes := changes, sync := sync, outcomes := k.outcomes ++ [(clip, .skipped why)] }) ∨
        ∃ sync, k.sync.onLocal k.controls now clip = (sync, none) ∧
          k' = { k with changes := changes, sync := sync }) := by
  unfold takeLocal at h
  split at h
  · rename_i clip changes hp hc
    refine ⟨clip, changes, hp, hc, ?_⟩
    split at h
    · rename_i sync why ho
      exact Or.inl ⟨sync, why, ho, (Option.some.inj h).symm⟩
    · rename_i sync ho
      exact Or.inr ⟨sync, ho, (Option.some.inj h).symm⟩
  · cases h

theorem finishLocal_some {out : Desk × Outcome} (h : k.finishLocal sha256 cfg = some out) :
    ∃ clip, k.sync.phase = .recordingLocal clip ∧
      out.2 = (k.sync.broadcastLocal sha256 cfg.maxText cfg.ownId clip).2 ∧
      out.1 = { k with sync := (k.sync.broadcastLocal sha256 cfg.maxText cfg.ownId clip).1,
                       outcomes := k.outcomes ++ [(clip, out.2)] } := by
  unfold finishLocal at h
  split at h
  · rename_i clip hp
    cases h
    exact ⟨clip, hp, rfl, rfl⟩
  · cases h

theorem receive_some {msg : Message} (h : k.receive cfg msg = some k') :
    k.sync.phase = .selecting ∧
      k' = { k with sync := k.sync.onRemote k.controls cfg.ownId cfg.maxText msg } := by
  unfold receive at h
  split at h
  · rename_i hp
    exact ⟨hp, (Option.some.inj h).symm⟩
  · cases h

theorem finishRemote_some (h : k.finishRemote sha256 = some k') :
    ∃ clip, k.sync.phase = .recordingRemote clip ∧
      k' = { k with sync := (k.sync.applyRemote sha256 clip).1,
                    cmds := k.cmds ++ (k.sync.applyRemote sha256 clip).2.toList } := by
  unfold finishRemote at h
  split at h
  · rename_i clip hp
    exact ⟨clip, hp, (Option.some.inj h).symm⟩
  · cases h

end Desk

structure ClipNet (ι : Type) where
  now : Int
  desk : ι → Desk
  /-- `Clipboard` frames sent by the first device and not yet taken by the second one's sync loop. -/
  wire : ι → ι → List Message
  /-- Large images on their way. -/
  blobs : ι → ι → List Bytes

inductive ClipEvent (ι : Type) where
  | tick (ms : Nat)
  | pause (d : ι) (on : Bool)
  | copy (d : ι) (c : Content) (token : Int)
  /-- `qdrop copy`, `paste` or `clip restore` over the control socket. -/
  | command (d : ι) (cmd : ClipCommand)
  | take (d : ι) (res : SetResult)
  | settle (d : ι)
  | poll (d : ι)
  | forward (d : ι)
  | takeLocal (d : ι)
  | finishLocal (d : ι) (reached : ι → Bool)
  | receive (d src : ι)
  | finishRemote (d : ι)
  /-- A large image has arrived and the blob image task applies it. -/
  | blob (d src : ι)
  | lose (src dst : ι)

namespace ClipNet

variable {ι : Type} [DecidableEq ι]

def start (cfg : ι → ClipConfig) (controls : ι → Controls) (boards : ι → Board) : ClipNet ι :=
  ⟨0, fun d => .start (cfg d) 0 (controls d) (boards d), fun _ _ => [], fun _ _ => []⟩

def setDesk (n : ClipNet ι) (d : ι) (k : Desk) : ClipNet ι := { n with desk := Function.update n.desk d k }

def setWire (n : ClipNet ι) (src dst : ι) (msgs : List Message) : ClipNet ι :=
  { n with wire := fun i j => if i = src ∧ j = dst then msgs else n.wire i j }

def setBlobs (n : ClipNet ι) (src dst : ι) (images : List Bytes) : ClipNet ι :=
  { n with blobs := fun i j => if i = src ∧ j = dst then images else n.blobs i j }

/-- What a broadcast of `d` adds to the queues. -/
def post (n : ClipNet ι) (d : ι) (reached : ι → Bool) : Outcome → ClipNet ι
  | .skipped _ => n
  | .broadcast msg =>
    { n with wire := fun i j => if i = d ∧ j ≠ d ∧ reached j then n.wire i j ++ [msg] else n.wire i j }
  | .blob png =>
    { n with blobs := fun i j => if i = d ∧ j ≠ d ∧ reached j then n.blobs i j ++ [png] else n.blobs i j }

def step (sha256 : Bytes → Digest) (cfg : ι → ClipConfig) (n : ClipNet ι) : ClipEvent ι → Option (ClipNet ι)
  | .tick ms => some { n with now := n.now + ms }
  | .pause d on =>
    some (n.setDesk d { n.desk d with controls := { (n.desk d).controls with clipboardPaused := on } })
  | .copy d c token => some (n.setDesk d ((n.desk d).copy c token))
  | .command d cmd => some (n.setDesk d ((n.desk d).command cmd))
  | .take d res => ((n.desk d).take sha256 res).map (n.setDesk d)
  | .settle d => ((n.desk d).settle (cfg d)).map (n.setDesk d)
  | .poll d => ((n.desk d).poll sha256 (cfg d)).map (n.setDesk d)
  | .forward d => (n.desk d).forward.map (n.setDesk d)
  | .takeLocal d => ((n.desk d).takeLocal n.now).map (n.setDesk d)
  | .finishLocal d reached =>
    ((n.desk d).finishLocal sha256 (cfg d)).map fun out => (n.setDesk d out.1).post d reached out.2
  | .receive d src =>
    match n.wire src d with
    | [] => none
    | msg :: msgs => ((n.desk d).receive (cfg d) msg).map ((n.setWire src d msgs).setDesk d)
  | .finishRemote d => ((n.desk d).finishRemote sha256).map (n.setDesk d)
  | .blob d src =>
    match n.blobs src d with
    | [] => none
    | png :: images => some ((n.setBlobs src d images).setDesk d ((n.desk d).command (.applyImage png)))
  | .lose src dst =>
    match n.wire src dst with
    | [] => none
    | _ :: msgs => some (n.setWire src dst msgs)

@[simp] theorem setDesk_desk_self (n : ClipNet ι) (d : ι) (k : Desk) : (n.setDesk d k).desk d = k :=
  Function.update_self ..

@[simp] theorem setDesk_desk_of_ne (n : ClipNet ι) {d i : ι} (k : Desk) (h : i ≠ d) :
    (n.setDesk d k).desk i = n.desk i :=
  Function.update_of_ne h ..

@[simp] theorem setDesk_eq_self (n : ClipNet ι) (d : ι) : n.setDesk d (n.desk d) = n := by
  simp [setDesk]

@[simp] theorem setWire_eq_self (n : ClipNet ι) (src dst : ι) : n.setWire src dst (n.wire src dst) = n := by
  have h : (fun i j => if i = src ∧ j = dst then n.wire src dst else n.wire i j) = n.wire := by
    funext i j
    split
    · rename_i hij
      rw [hij.1, hij.2]
    · rfl
  unfold setWire
  rw [h]

@[simp] theorem setWire_desk (n : ClipNet ι) (src dst : ι) (msgs : List Message) :
    (n.setWire src dst msgs).desk = n.desk := rfl

/-- Posting touches no desk. -/
@[simp] theorem post_desk (n : ClipNet ι) (d : ι) (reached : ι → Bool) (out : Outcome) :
    (n.post d reached out).desk = n.desk := by
  cases out <;> rfl

end ClipNet

end Qdrop
