import Qdrop.Clipboard.Switches
import Qdrop.Control

/-!
# The two ways of an image

An image of a peer comes in a `Clipboard` frame, which the sync loop records in the history and compares with the last
content synced, or as a blob transfer, whose end hands the bytes to the blob image task.  That task has neither the
history nor `last_synced`: it passes every image on.  `image_paths_differ` says that the two never come to the same.
-/

namespace Qdrop

open Lib

/-- The inbound side of a daemon with its clipboard history. -/
structure Receiver where
  inbox : Inbox
  history : ClipHistory

/-- A frame that passed the first checks is recorded under its peer. -/
def ClipHistory.recordRemote (sha256 : Bytes → Digest) (h : ClipHistory) (peer : DeviceId) :
    SyncPhase → ClipHistory
  | .recordingRemote clip => h.record sha256 clip peer
  | .selecting | .recordingLocal _ => h

/-- The frame brought no clipboard content. -/
def Routed.WithoutClip : Routed → Prop
  | .clipboard .. => False
  | .filexfer effs => (Routed.filexfer effs).images = []
  | .weblink .. | .auth _ | .ignored => True

instance : (r : Routed) → Decidable r.WithoutClip
  | .clipboard .. => isFalse id
  | .filexfer effs => inferInstanceAs (Decidable ((Routed.filexfer effs).images = []))
  | .weblink .. | .auth _ | .ignored => isTrue trivial

namespace Receiver

variable (sha256 : Bytes → Digest) (localInfo : DeviceInfo) (cfg : XferConfig) (clipCfg : ClipConfig)

/-- What the sync loop records when it takes a frame or a local change; `sync` is the task afterwards. -/
def recorded (s : Receiver) (sync : SyncTask) : InboxEvent → ClipHistory
  | .takeFrame => match s.inbox.clipFrames with
    | (peer, _) :: _ => s.history.recordRemote sha256 peer sync.phase
    | [] => s.history
  | .takeLocal .. => match sync.phase with
    | .recordingLocal clip => s.history.record sha256 clip "local"
    | _ => s.history
  | .setPaused _ | .setSyncImages _ | .route _ | .applyBlob | .finishRemote | .finishLocal => s.history

def step (s : Receiver) (e : InboxEvent) : Option Receiver :=
  (inboxStep sha256 localInfo cfg clipCfg s.inbox e).map fun inbox => ⟨inbox, s.recorded sha256 inbox.sync e⟩

/-- The steps of a delivery besides the one that delivers: the tasks do what they have to do, and the router takes
frames that bring no clipboard content. -/
def Background (s : Receiver) : InboxEvent → Prop
  | .route f => (route sha256 localInfo cfg s.inbox.daemon f).2.WithoutClip
  | .applyBlob | .takeFrame | .finishRemote | .finishLocal => True
  | .setPaused _ | .setSyncImages _ | .takeLocal .. => False

instance (s : Receiver) : (e : InboxEvent) → Decidable (Background sha256 localInfo cfg s e)
  | .route f => inferInstanceAs (Decidable (route sha256 localInfo cfg s.inbox.daemon f).2.WithoutClip)
  | .applyBlob | .takeFrame | .finishRemote | .finishLocal => isTrue trivial
  | .setPaused _ | .setSyncImages _ | .takeLocal .. => isFalse id

/-- The tasks have nothing left to do. -/
def Idle (s : Receiver) : Prop :=
  s.inbox.sync.phase = .selecting ∧ s.inbox.clipFrames = [] ∧ s.inbox.blobImages = []

/-- The frame carries the image. -/
def Inline (png : Bytes) (_ : Receiver) (f : Inbound) : Prop :=
  ∃ seq originId, f.msg = .clipboard seq originId [ClipEntry.png png]

/-- The frame completes the transfer of the image. -/
def Blob (png : Bytes) (s : Receiver) (f : Inbound) : Prop :=
  CompletesImage sha256 cfg s.inbox.daemon.rx f ∧
    (route sha256 localInfo cfg s.inbox.daemon f).2.images = [png]

/-- A frame that delivers in the way `way` is taken between steps in the background, and the tasks come to rest. -/
def Delivers (way : Receiver → Inbound → Prop) (s t : Receiver) : Prop :=
  ∃ es f es' u v, Run (step sha256 localInfo cfg clipCfg) (Background sha256 localInfo cfg) s es u ∧ way u f ∧
    step sha256 localInfo cfg clipCfg u (.route f) = some v ∧
    Run (step sha256 localInfo cfg clipCfg) (Background sha256 localInfo cfg) v es' t ∧ t.Idle

end Receiver

/-- The same commands for the clipboard thread, the same history and the same content last synced. -/
def SameEffect (s t : Receiver) : Prop :=
  s.inbox.issued.map Issue.cmd = t.inbox.issued.map Issue.cmd ∧ s.history = t.history ∧
    s.inbox.sync.lastSynced = t.inbox.sync.lastSynced

/-! ### What the work at hand comes to -/

/-- The sync loop and the history when the work at hand is done, and how many commands have been issued by then. -/
structure Outlook where
  sync : SyncTask
  history : ClipHistory
  commands : Nat

namespace Outlook

variable (sha256 : Bytes → Digest) (clipCfg : ClipConfig) (ctl : Controls)

/-- The sync loop handles one more frame. -/
def handle (o : Outlook) (frame : DeviceId × Message) : Outlook :=
  let sync := o.sync.onRemote ctl clipCfg.ownId clipCfg.maxText frame.2
  { sync := sync.settle sha256 clipCfg
    history := o.history.recordRemote sha256 frame.1 sync.phase
    commands := o.commands + (sync.pendingApply sha256).toList.length }

/-- Commands issued before count in addition. -/
theorem foldl_handle_add (frames : List (DeviceId × Message)) (o : Outlook) (n : Nat) :
    frames.foldl (handle sha256 clipCfg ctl) { o with commands := o.commands + n } =
      { frames.foldl (handle sha256 clipCfg ctl) o with
        commands := (frames.foldl (handle sha256 clipCfg ctl) o).commands + n } := by
  induction frames generalizing o with
  | nil => rfl
  | cons frame frames ih =>
    have hhandle : handle sha256 clipCfg ctl { o with commands := o.commands + n } frame =
        { handle sha256 clipCfg ctl o frame with
          commands := (handle sha256 clipCfg ctl o frame).commands + n } := by
      simp [handle, Nat.add_right_comm]
    rw [List.foldl_cons, hhandle, ih, List.foldl_cons]

end Outlook

namespace Receiver

variable (sha256 : Bytes → Digest) (clipCfg : ClipConfig)

def outlook (s : Receiver) : Outlook :=
  s.inbox.clipFrames.foldl (Outlook.handle sha256 clipCfg s.inbox.controls)
    ⟨s.inbox.sync.settle sha256 clipCfg, s.history,
      s.inbox.issued.length + s.inbox.blobImages.length + (s.inbox.sync.pendingApply sha256).toList.length⟩

theorem outlook_of_idle {s : Receiver} (h : s.Idle) :
    s.outlook sha256 clipCfg = ⟨s.inbox.sync, s.history, s.inbox.issued.length⟩ := by
  obtain ⟨hphase, hframes, himages⟩ := h
  simp [outlook, hframes, himages, SyncTask.settle, SyncTask.pendingApply, hphase]

end Receiver

/-! ### Steps -/

section Steps

variable {sha256 : Bytes → Digest} {localInfo : DeviceInfo} {cfg : XferConfig} {clipCfg : ClipConfig} {s t : Receiver}

theorem Routed.WithoutClip.images {r : Routed} (h : r.WithoutClip) :
    (∀ peer msg, r ≠ .clipboard peer msg) ∧ r.images = [] := by
  cases r with
  | clipboard => cases h
  | filexfer effs => exact ⟨by simp, h⟩
  | weblink | auth | ignored => exact ⟨by simp, rfl⟩

/-- Inside `select!` nothing is about to be sent. -/
theorem SyncTask.pendingApply_of_selecting {st : SyncTask} (h : st.phase = .selecting) :
    st.pendingApply sha256 = none :=
  SyncTask.pendingApply_of_phase fun clip => by simp [h]

/-- A frame for the sync loop is handled after the others. -/
theorem Receiver.route_clipboard {f : Inbound} {seq : Nat} {originId : DeviceId} {entries : List ClipEntry}
    (hmsg : f.msg = .clipboard seq originId entries)
    (hs : s.step sha256 localInfo cfg clipCfg (.route f) = some t) :
    t.inbox.controls = s.inbox.controls ∧ t.outlook sha256 clipCfg =
      (s.outlook sha256 clipCfg).handle sha256 clipCfg s.inbox.controls (f.peer, f.msg) := by
  obtain ⟨inbox, hinbox, rfl⟩ := Option.map_eq_some_iff.1 hs
  have hroute : route sha256 localInfo cfg s.inbox.daemon f = (s.inbox.daemon, .clipboard f.peer f.msg) := by
    simp [route, hmsg]
  simp only [inboxStep, Inbox.route, hroute] at hinbox
  split at hinbox
  · cases hinbox
    refine ⟨rfl, ?_⟩
    simp only [Receiver.outlook, Receiver.recorded, List.foldl_append, List.foldl_cons, List.foldl_nil]
  · cases hinbox

/-- Any other frame adds the images it completes to the commands to come. -/
theorem Receiver.route_other {f : Inbound} (hne : ∀ peer msg, (route sha256 localInfo cfg s.inbox.daemon f).2 ≠
      .clipboard peer msg) (hs : s.step sha256 localInfo cfg clipCfg (.route f) = some t) :
    t.inbox.controls = s.inbox.controls ∧ t.outlook sha256 clipCfg =
      { s.outlook sha256 clipCfg with
        commands := (s.outlook sha256 clipCfg).commands +
          (route sha256 localInfo cfg s.inbox.daemon f).2.images.length } := by
  obtain ⟨inbox, hinbox, rfl⟩ := Option.map_eq_some_iff.1 hs
  change s.inbox.route sha256 localInfo cfg f = some inbox at hinbox
  unfold Inbox.route at hinbox
  split at hinbox
  · rename_i daemon peer msg heq
    exact absurd (by rw [heq]) (hne peer msg)
  · rename_i daemon routed heq
    split at hinbox
    · cases hinbox
      refine ⟨rfl, ?_⟩
      rw [heq]
      unfold Receiver.outlook
      rw [← Outlook.foldl_handle_add]
      simp only [Receiver.recorded, List.length_append]
      congr 2
      omega
    · cases hinbox

/-- The sync loop leaves its await, and issues the command it has to. -/
theorem Receiver.outlook_settle {inbox : Inbox} (hcontrols : inbox.controls = s.inbox.controls)
    (hframes : inbox.clipFrames = s.inbox.clipFrames) (himages : inbox.blobImages = s.inbox.blobImages)
    (hsync : inbox.sync = s.inbox.sync.settle sha256 clipCfg)
    (hissued : inbox.issued.length = s.inbox.issued.length + (s.inbox.sync.pendingApply sha256).toList.length) :
    Receiver.outlook sha256 clipCfg ⟨inbox, s.history⟩ = s.outlook sha256 clipCfg := by
  have hphase := SyncTask.settle_phase sha256 clipCfg s.inbox.sync
  simp only [Receiver.outlook, hcontrols, hframes, himages, hsync, hissued, SyncTask.settle_of_selecting hphase,
    SyncTask.pendingApply_of_selecting hphase, Option.toList_none, List.length_nil]
  congr 2
  omega

/-- Steps in the background change nothing of what the work at hand comes to. -/
theorem Receiver.outlook_step {e : InboxEvent} (hb : s.Background sha256 localInfo cfg e)
    (hs : s.step sha256 localInfo cfg clipCfg e = some t) :
    t.inbox.controls = s.inbox.controls ∧ t.outlook sha256 clipCfg = s.outlook sha256 clipCfg := by
  cases e with
  | setPaused | setSyncImages | takeLocal => cases hb
  | route f =>
    have hb : (route sha256 localInfo cfg s.inbox.daemon f).2.WithoutClip := hb
    obtain ⟨hne, himages⟩ := hb.images
    obtain ⟨hctl, hout⟩ := Receiver.route_other hne hs
    refine ⟨hctl, ?_⟩
    rw [hout, himages]
    rfl
  | applyBlob =>
    obtain ⟨inbox, hinbox, rfl⟩ := Option.map_eq_some_iff.1 hs
    simp only [inboxStep] at hinbox
    split at hinbox
    · cases hinbox
    · rename_i png images heq
      cases hinbox
      refine ⟨rfl, ?_⟩
      simp only [Receiver.outlook, Receiver.recorded, heq, List.length_append, List.length_cons, List.length_nil]
      congr 2
      omega
  | takeFrame =>
    obtain ⟨inbox, hinbox, rfl⟩ := Option.map_eq_some_iff.1 hs
    simp only [inboxStep] at hinbox
    split at hinbox
    · rename_i peer msg frames hphase hframes
      cases hinbox
      refine ⟨rfl, ?_⟩
      simp only [Receiver.outlook, Receiver.recorded, hframes, List.foldl_cons]
      rw [SyncTask.settle_of_selecting hphase, SyncTask.pendingApply_of_selecting hphase]
      simp only [Outlook.handle, Option.toList_none, List.length_nil, Nat.add_zero]
    · cases hinbox
  | finishRemote =>
    obtain ⟨inbox, hinbox, rfl⟩ := Option.map_eq_some_iff.1 hs
    simp only [inboxStep] at hinbox
    split at hinbox
    · rename_i clip hphase
      cases hinbox
      have hpending : s.inbox.sync.pendingApply sha256 = (s.inbox.sync.applyRemote sha256 clip).2 := by
        simp [SyncTask.pendingApply, hphase]
      exact ⟨rfl, Receiver.outlook_settle rfl rfl rfl (SyncTask.settle_of_recordingRemote hphase).symm
        (by simp [hpending])⟩
    · cases hinbox
  | finishLocal =>
    obtain ⟨inbox, hinbox, rfl⟩ := Option.map_eq_some_iff.1 hs
    simp only [inboxStep] at hinbox
    split at hinbox
    · rename_i clip hphase
      cases hinbox
      have hpending : s.inbox.sync.pendingApply sha256 = none :=
        SyncTask.pendingApply_of_phase fun clip' => by simp [hphase]
      exact ⟨rfl, Receiver.outlook_settle rfl rfl rfl (SyncTask.settle_of_recordingLocal hphase).symm
        (by simp [hpending])⟩
    · cases hinbox

theorem Receiver.outlook_run {es : List InboxEvent} (hr : Run (Receiver.step sha256 localInfo cfg clipCfg)
    (Receiver.Background sha256 localInfo cfg) s es t) :
    t.inbox.controls = s.inbox.controls ∧ t.outlook sha256 clipCfg = s.outlook sha256 clipCfg := by
  refine hr.invariant (I := fun u => u.inbox.controls = s.inbox.controls ∧
    u.outlook sha256 clipCfg = s.outlook sha256 clipCfg) ⟨rfl, rfl⟩ fun u e v hu hb hs => ?_
  obtain ⟨hctl, hout⟩ := Receiver.outlook_step hb hs
  exact ⟨hctl.trans hu.1, hout.trans hu.2⟩

/-- The loop is in its `select!` again when the work at hand is done. -/
theorem Receiver.outlook_phase (sha256 : Bytes → Digest) (clipCfg : ClipConfig) (s : Receiver) :
    (s.outlook sha256 clipCfg).sync.phase = .selecting := by
  unfold Receiver.outlook
  generalize s.inbox.issued.length + s.inbox.blobImages.length + _ = n
  have hphase := SyncTask.settle_phase sha256 clipCfg s.inbox.sync
  generalize s.inbox.sync.settle sha256 clipCfg = st at hphase
  generalize s.history = history
  induction s.inbox.clipFrames generalizing st history n with
  | nil => exact hphase
  | cons frame frames ih => exact ih _ _ (SyncTask.settle_phase ..) _

/-- A frame is applied by a command and becomes the last content synced, or neither. -/
theorem Outlook.handle_cases {o : Outlook} (h : o.sync.phase = .selecting) (ctl : Controls)
    (frame : DeviceId × Message) :
    (o.handle sha256 clipCfg ctl frame).commands = o.commands ∨
      (o.handle sha256 clipCfg ctl frame).sync.lastSynced ≠ o.sync.lastSynced := by
  rcases SyncTask.onRemote_cases ctl clipCfg.ownId clipCfg.maxText o.sync frame.2 with heq | ⟨clip, heq, -, -⟩
  · left
    simp only [Outlook.handle, heq, SyncTask.pendingApply_of_selecting h, Option.toList_none, List.length_nil,
      Nat.add_zero]
  · by_cases hlast : some (sha256 clip.bytes) = o.sync.lastSynced
    · left
      simp [Outlook.handle, heq, SyncTask.pendingApply, SyncTask.applyRemote, hlast]
    · right
      simp [Outlook.handle, heq, SyncTask.settle, SyncTask.applyRemote, hlast]

/-- An image that comes in a frame is handled as the sync loop handles frames. -/
theorem inline_effect {png : Bytes} (h : s.Delivers sha256 localInfo cfg clipCfg (Receiver.Inline png) t) :
    ∃ peer seq originId, (⟨t.inbox.sync, t.history, t.inbox.issued.length⟩ : Outlook) =
      (s.outlook sha256 clipCfg).handle sha256 clipCfg s.inbox.controls
        (peer, .clipboard seq originId [ClipEntry.png png]) := by
  obtain ⟨es, f, es', u, v, hpre, ⟨seq, originId, hmsg⟩, hs, hpost, hidle⟩ := h
  obtain ⟨hctl, hbefore⟩ := Receiver.outlook_run hpre
  obtain ⟨-, hroute⟩ := Receiver.route_clipboard hmsg hs
  obtain ⟨-, hafter⟩ := Receiver.outlook_run hpost
  refine ⟨f.peer, seq, originId, ?_⟩
  rw [← Receiver.outlook_of_idle sha256 clipCfg hidle, hafter, hroute, hbefore, hctl, hmsg]

/-- An image that comes as a blob leads to one more command, whatever it is, and to nothing else. -/
theorem blob_effect {png : Bytes}
    (h : s.Delivers sha256 localInfo cfg clipCfg (Receiver.Blob sha256 localInfo cfg png) t) :
    (⟨t.inbox.sync, t.history, t.inbox.issued.length⟩ : Outlook) =
      { s.outlook sha256 clipCfg with commands := (s.outlook sha256 clipCfg).commands + 1 } := by
  obtain ⟨es, f, es', u, v, hpre, ⟨hcompletes, himages⟩, hs, hpost, hidle⟩ := h
  obtain ⟨-, hbefore⟩ := Receiver.outlook_run hpre
  have hne : ∀ peer msg, (route sha256 localInfo cfg u.inbox.daemon f).2 ≠ .clipboard peer msg := by
    intro peer msg heq
    rw [heq] at himages
    cases himages
  obtain ⟨-, hroute⟩ := Receiver.route_other hne hs
  obtain ⟨-, hafter⟩ := Receiver.outlook_run hpost
  rw [← Receiver.outlook_of_idle sha256 clipCfg hidle, hafter, hroute, hbefore, himages]
  rfl

end Steps

/-- From no state have the two ways of an image the same effect. -/
theorem image_paths_differ (sha256 : Bytes → Digest) (localInfo : DeviceInfo) (cfg : XferConfig)
    (clipCfg : ClipConfig) (png : Bytes) (s a b : Receiver)
    (ha : s.Delivers sha256 localInfo cfg clipCfg (Receiver.Inline png) a)
    (hb : s.Delivers sha256 localInfo cfg clipCfg (Receiver.Blob sha256 localInfo cfg png) b) :
    ¬ SameEffect a b := by
  rintro ⟨hissued, -, hlast⟩
  obtain ⟨peer, seq, originId, ha⟩ := inline_effect ha
  have hb := blob_effect hb
  have hcommands : a.inbox.issued.length = b.inbox.issued.length := by
    rw [← List.length_map Issue.cmd, hissued, List.length_map]
  rcases Outlook.handle_cases (Receiver.outlook_phase sha256 clipCfg s) s.inbox.controls
    (peer, .clipboard seq originId [ClipEntry.png png]) with h | h
  · rw [← ha] at h
    have hcount := congrArg Outlook.commands hb
    dsimp only at h hcount
    omega
  · rw [← ha] at h
    have hsync := congrArg (fun o => o.sync.lastSynced) hb
    exact h (hlast.trans hsync)

/-! ### An image of one byte -/

private def zeros : Bytes → Digest := fun _ => Vector.replicate 32 0

private def hostInfo : DeviceInfo := ⟨"host", [], "linux"⟩

private def imagesTo (dir : PathBuf) : XferConfig := ⟨dir, .never, true⟩

private def phoneFrame (msg : Message) : Inbound := ⟨"p", msg, Io.ok, none⟩

private def receiver : Receiver := ⟨.start ⟨false, true⟩ ⟨.absent, AuthManager.new, ⟨∅, FileSys.empty⟩⟩ 0, ⟨25, []⟩⟩

private abbrev receiverStep : Receiver → InboxEvent → Option Receiver :=
  Receiver.step zeros hostInfo (imagesTo "d") ⟨"a", .other, 1024⟩

private abbrev InBackground : Receiver → InboxEvent → Prop := Receiver.Background zeros hostInfo (imagesTo "d")

private def behind (s : Receiver) (es : List InboxEvent) : Receiver :=
  (exec (fun s e => if InBackground s e then receiverStep s e else none) s es).getD s

private theorem run_behind {s : Receiver} {es : List InboxEvent}
    (h : (exec (fun s e => if InBackground s e then receiverStep s e else none) s es).isSome = true) :
    Run receiverStep InBackground s es (behind s es) := by
  obtain ⟨u, hu⟩ := Option.isSome_iff_exists.1 h
  obtain ⟨t, hr, rfl⟩ := run_of_exec_checked receiverStep InBackground s es id u (by rw [hu]; rfl)
  rwa [behind, hu]

private def routed (s : Receiver) (f : Inbound) : Receiver := (receiverStep s (.route f)).getD s

private theorem step_routed {s : Receiver} {f : Inbound} (h : (receiverStep s (.route f)).isSome = true) :
    receiverStep s (.route f) = some (routed s f) := by
  obtain ⟨t, ht⟩ := Option.isSome_iff_exists.1 h
  rw [routed, ht, Option.getD_some]

private def inlineFrame : Inbound := phoneFrame (.clipboard 1 "p" [ClipEntry.png [137]])

private def blobEndFrame : Inbound := phoneFrame (.blobEnd 1 (Vector.replicate 32 0))

private def blobFrames : List InboxEvent :=
  [.route (phoneFrame (.blobStart 1 "clipboard-image" 1 .clipboardImage)), .route (phoneFrame (.blobChunk 1 [137]))]

private def inlineEnd : Receiver := behind (routed receiver inlineFrame) [.takeFrame, .finishRemote]

private def blobEnd : Receiver := behind (routed (behind receiver blobFrames) blobEndFrame) [.applyBlob]

private theorem inline_delivers :
    receiver.Delivers zeros hostInfo (imagesTo "d") ⟨"a", .other, 1024⟩ (Receiver.Inline [137]) inlineEnd :=
  ⟨[], inlineFrame, [.takeFrame, .finishRemote], receiver, routed receiver inlineFrame, Run.nil _, ⟨1, "p", rfl⟩,
    step_routed (by decide +kernel), run_behind (by decide +kernel),
    by decide +kernel, by decide +kernel, by decide +kernel⟩

private theorem blob_delivers :
    receiver.Delivers zeros hostInfo (imagesTo "d") ⟨"a", .other, 1024⟩
      (Receiver.Blob zeros hostInfo (imagesTo "d") [137]) blobEnd := by
  refine ⟨blobFrames, blobEndFrame, [.applyBlob], behind receiver blobFrames,
    routed (behind receiver blobFrames) blobEndFrame, run_behind (by decide +kernel), ⟨?_, by decide +kernel⟩,
    step_routed (by decide +kernel), run_behind (by decide +kernel),
    by decide +kernel, by decide +kernel, by decide +kernel⟩
  exact ⟨1, _, _, _, rfl, rfl, rfl, rfl, Or.inr rfl, rfl⟩

theorem image_paths_differ_pixel :
    ∃ s a b : Receiver, s.Delivers zeros hostInfo (imagesTo "d") ⟨"a", .other, 1024⟩ (Receiver.Inline [137]) a ∧
      s.Delivers zeros hostInfo (imagesTo "d") ⟨"a", .other, 1024⟩
        (Receiver.Blob zeros hostInfo (imagesTo "d") [137]) b ∧ ¬ SameEffect a b :=
  ⟨receiver, inlineEnd, blobEnd, inline_delivers, blob_delivers,
    image_paths_differ zeros hostInfo (imagesTo "d") ⟨"a", .other, 1024⟩ [137] receiver inlineEnd blobEnd
      inline_delivers blob_delivers⟩

/-- The same command either way, but only the frame leaves the image in the history and in `last_synced`. -/
theorem blob_image_unrecorded :
    ∃ s a b : Receiver, s.inbox.controls = ⟨false, true⟩ ∧
      s.Delivers zeros hostInfo (imagesTo "d") ⟨"a", .other, 1024⟩ (Receiver.Inline [137]) a ∧
      s.Delivers zeros hostInfo (imagesTo "d") ⟨"a", .other, 1024⟩
        (Receiver.Blob zeros hostInfo (imagesTo "d") [137]) b ∧
      a.inbox.issued.map Issue.cmd = [.applyImage [137]] ∧ b.inbox.issued.map Issue.cmd = [.applyImage [137]] ∧
      a.history.entries.map HistoryEntry.origin = ["p"] ∧ b.history.entries = [] ∧
      a.inbox.sync.lastSynced = some (Vector.replicate 32 0) ∧ b.inbox.sync.lastSynced = none ∧
      ¬ SameEffect a b := by
  have hinline : inlineEnd.inbox.sync.lastSynced = some (Vector.replicate 32 0) := by decide +kernel
  have hblob : blobEnd.inbox.sync.lastSynced = none := by decide +kernel
  refine ⟨receiver, inlineEnd, blobEnd, rfl, inline_delivers, blob_delivers, by decide +kernel, by decide +kernel,
    by decide +kernel, by decide +kernel, hinline, hblob, ?_⟩
  rintro ⟨-, -, hlast⟩
  rw [hinline, hblob] at hlast
  cases hlast

end Qdrop
