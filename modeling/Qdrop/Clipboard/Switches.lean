import Qdrop.Clipboard.Sync
import Qdrop.Router

/-!
# Pause and the image switch

What a peer sends reaches the clipboard thread by two ways: a `Clipboard` frame through the sync loop, which reads the
toggles before it records the content, and a completed image transfer through the blob image task, which reads
neither.  `switches_respected` says when no command is issued against a toggle, and that every other step leads to
one.
-/

namespace Qdrop

open Lib

/-- Slots of the clipboard frame channel. -/
def clipFramesCap : Nat := 64

/-- Slots of the blob image channel. -/
def blobImagesCap : Nat := 4

/-- A command sent to the clipboard thread for a peer, with the toggles at that moment. -/
structure Issue where
  cmd : ClipCommand
  controls : Controls
deriving DecidableEq, Repr

/-- The inbound side of a daemon: the router with its subsystems, the two queues and the two tasks. -/
structure Inbox where
  controls : Controls
  daemon : Daemon
  clipFrames : List (DeviceId × Message)
  blobImages : List Bytes
  sync : SyncTask
  issued : List Issue

def Inbox.start (controls : Controls) (daemon : Daemon) (now : Int) : Inbox :=
  ⟨controls, daemon, [], [], .start now, []⟩

inductive InboxEvent where
  | setPaused (on : Bool)
  | setSyncImages (on : Bool)
  /-- The router takes a frame from the hub. -/
  | route (f : Inbound)
  /-- The blob image task takes an image. -/
  | applyBlob
  /-- The sync loop takes a frame of a peer. -/
  | takeFrame
  | finishRemote
  /-- The sync loop takes a local change. -/
  | takeLocal (now : Int) (clip : LocalClip)
  | finishLocal

/-- What an effect sends to the blob image task. -/
def Effect.image : Effect → Option Bytes
  | .clip png => some png
  | .send .. | .mkdir _ | .create _ | .write _ | .rename .. | .remove _ | .notify .. => none

/-- The images a handled frame completes. -/
def Routed.images : Routed → List Bytes
  | .filexfer effs => effs.filterMap Effect.image
  | .clipboard .. | .weblink .. | .auth _ | .ignored => []

/-- The command the sync loop will send after its await. -/
def SyncTask.pendingApply (sha256 : Bytes → Digest) (st : SyncTask) : Option ClipCommand :=
  match st.phase with
  | .recordingRemote clip => (st.applyRemote sha256 clip).2
  | .selecting | .recordingLocal _ => none

section Step

variable (sha256 : Bytes → Digest) (localInfo : DeviceInfo) (cfg : XferConfig) (clipCfg : ClipConfig)

/-- The router waits while the queue of the frame's subsystem is full. -/
def Inbox.route (s : Inbox) (f : Inbound) : Option Inbox :=
  match Qdrop.route sha256 localInfo cfg s.daemon f with
  | (daemon, .clipboard peer msg) =>
    if s.clipFrames.length < clipFramesCap then
      some { s with daemon := daemon, clipFrames := s.clipFrames ++ [(peer, msg)] }
    else none
  | (daemon, routed) =>
    if s.blobImages.length + routed.images.length ≤ blobImagesCap then
      some { s with daemon := daemon, blobImages := s.blobImages ++ routed.images }
    else none

def inboxStep (s : Inbox) : InboxEvent → Option Inbox
  | .setPaused on => some { s with controls := { s.controls with clipboardPaused := on } }
  | .setSyncImages on => some { s with controls := { s.controls with syncImages := on } }
  | .route f => s.route sha256 localInfo cfg f
  | .applyBlob => match s.blobImages with
    | [] => none
    | png :: images => some { s with blobImages := images, issued := s.issued ++ [⟨.applyImage png, s.controls⟩] }
  | .takeFrame => match s.sync.phase, s.clipFrames with
    | .selecting, (_, msg) :: frames =>
      some { s with clipFrames := frames, sync := s.sync.onRemote s.controls clipCfg.ownId clipCfg.maxText msg }
    | _, _ => none
  | .finishRemote => match s.sync.phase with
    | .recordingRemote clip =>
      let out := s.sync.applyRemote sha256 clip
      some { s with sync := out.1, issued := s.issued ++ out.2.toList.map fun cmd => ⟨cmd, s.controls⟩ }
    | _ => none
  | .takeLocal now clip => match s.sync.phase with
    | .selecting => some { s with sync := (s.sync.onLocal s.controls now clip).1 }
    | _ => none
  | .finishLocal => match s.sync.phase with
    | .recordingLocal clip =>
      some { s with sync := (s.sync.broadcastLocal sha256 clipCfg.maxText clipCfg.ownId clip).1 }
    | _ => none

end Step

/-- A command on a peer's behalf while its content may be applied. -/
def Controls.Allow (ctl : Controls) (cmd : ClipCommand) : Prop :=
  ctl.clipboardPaused = false ∧ ∀ png, cmd = .applyImage png → ctl.syncImages = true

/-- No command was issued against a toggle. -/
def Respected (s : Inbox) : Prop := ∀ i ∈ s.issued, i.controls.Allow i.cmd

/-- The frame completes an image transfer: its digest and its size are right. -/
def CompletesImage (sha256 : Bytes → Digest) (cfg : XferConfig) (rx : Rx) (f : Inbound) : Prop :=
  ∃ id sha inc bytes, f.msg = .blobEnd id sha ∧ rx.incoming.lookup (f.peer, id) = some inc ∧
    inc.sink = .memory bytes ∧ sha256 inc.hasher = sha ∧ (inc.declared = 0 ∨ inc.written = inc.declared) ∧
    cfg.clipSink = true

/-- An image transfer is completed only while images may be applied, and a toggle is turned off only when no image is
queued and the sync loop holds nothing it would still apply. -/
def Heeded (sha256 : Bytes → Digest) (cfg : XferConfig) (s : Inbox) : InboxEvent → Prop
  | .setPaused on => on = true → s.blobImages = [] ∧ s.sync.pendingApply sha256 = none
  | .setSyncImages on => on = false →
      s.blobImages = [] ∧ ∀ png, s.sync.pendingApply sha256 ≠ some (.applyImage png)
  | .route f => CompletesImage sha256 cfg s.daemon.rx f →
      s.controls.clipboardPaused = false ∧ s.controls.syncImages = true
  | .applyBlob | .takeFrame | .finishRemote | .takeLocal .. | .finishLocal => True

/-! ### Which frames complete an image -/

section Images

variable {sha256 : Bytes → Digest} {localInfo : DeviceInfo} {cfg : XferConfig}

private theorem mem_images {r : Routed} {png : Bytes} (h : png ∈ r.images) :
    ∃ effs, r = .filexfer effs ∧ Effect.clip png ∈ effs := by
  cases r with
  | filexfer effs =>
    obtain ⟨eff, hmem, heq⟩ := List.mem_filterMap.1 h
    cases eff with
    | clip png' =>
      cases heq
      exact ⟨effs, rfl, hmem⟩
    | send | mkdir | create | write | rename | remove | notify => cases heq
  | clipboard | weblink | auth | ignored => cases h

private theorem clip_notMem_tryRemove {png : Bytes} {io : Io} {fs : FileSys PathBuf} {p : PathBuf} :
    Effect.clip png ∉ (tryRemove io fs p).2 := by
  intro h
  cases mem_tryRemove h

private theorem clip_notMem_cleanup {png : Bytes} {io : Io} {fs : FileSys PathBuf} {sink : Sink} :
    Effect.clip png ∉ (cleanup io fs sink).2 := by
  intro h
  obtain ⟨_, h⟩ := mem_cleanup h
  cases h

private theorem clip_mem_onEnd {registry : PeersFile} {io : Io} {rx : Rx} {p : DeviceId} {id : Nat} {sha : Digest}
    {png : Bytes} (h : Effect.clip png ∈ (onEnd sha256 cfg registry io rx p id sha).2) :
    ∃ inc bytes, rx.incoming.lookup (p, id) = some inc ∧ inc.sink = .memory bytes ∧ sha256 inc.hasher = sha ∧
      (inc.declared = 0 ∨ inc.written = inc.declared) ∧ cfg.clipSink = true := by
  unfold onEnd at h
  cases hl : rx.incoming.lookup (p, id) with
  | none => simp [hl] at h
  | some inc =>
    simp only [hl] at h
    split at h
    · simp [clip_notMem_cleanup, reject] at h
    · rename_i hsha
      split at h
      · simp [clip_notMem_cleanup, reject] at h
      · rename_i hsize
        cases hsink : inc.sink with
        | memory bytes =>
          refine ⟨inc, bytes, rfl, hsink, not_not.1 hsha, by tauto, ?_⟩
          by_contra hclip
          simp [hsink, hclip] at h
        | file tmp dir file =>
          simp only [hsink, place] at h
          split at h
          · simp [clip_notMem_tryRemove, reject] at h
          · simp at h

/-- Only a frame that completes an image transfer gives an image. -/
private theorem completesImage_of_images {d : Daemon} {f : Inbound} {png : Bytes}
    (h : png ∈ (route sha256 localInfo cfg d f).2.images) : CompletesImage sha256 cfg d.rx f := by
  obtain ⟨effs, hr, hmem⟩ := mem_images h
  rcases route_cases sha256 localInfo cfg d f with ⟨r, heq, hne⟩ | ⟨out, rfl, heq⟩ | ⟨out, rfl, heq⟩
  · rw [heq] at hr
    exact absurd hr (hne effs)
  · rw [heq] at hr
    obtain rfl := Routed.filexfer.inj hr
    unfold handleBlob at hmem
    split at hmem
    · rename_i id name size purpose hm
      rcases onStart_cases cfg d.registry f.io d.rx f.peer id name size purpose with
        ⟨detail, heq⟩ | ⟨fs, detail, -, heq⟩ | ⟨-, -, -, heq⟩ | ⟨safe, fs, fs', handle, -, -, -, -, -, heq⟩ <;>
      simp [heq, reject] at hmem
    · rename_i id data hm
      rcases onChunk_cases f.io d.rx f.peer id data with
        ⟨-, heq⟩ | ⟨inc, tmp, dir, file, fs, file', -, -, -, heq⟩ | ⟨inc, tmp, dir, file, fs, file', -, -, -, heq⟩ |
        ⟨inc, buf, -, -, -, heq⟩ | ⟨inc, buf, -, -, heq⟩ <;>
      simp [heq, reject, clip_notMem_tryRemove] at hmem
    · rename_i id sha hm
      obtain ⟨inc, bytes, hl, hsink, hsha, hsize, hclip⟩ := clip_mem_onEnd hmem
      exact ⟨id, sha, inc, bytes, hm, hl, hsink, hsha, hsize, hclip⟩
    · cases hmem
  · rw [heq] at hr
    cases hr

/-- A frame that completes an image transfer gives its image. -/
private theorem route_completesImage (localInfo : DeviceInfo) {d : Daemon} {f : Inbound}
    (h : CompletesImage sha256 cfg d.rx f) :
    ∃ daemon png ack, route sha256 localInfo cfg d f = (daemon, .filexfer [.clip png, .send f.peer ack]) := by
  obtain ⟨id, sha, inc, bytes, hm, hl, hsink, hsha, hsize, hclip⟩ := h
  refine ⟨⟨d.registry, d.auth, ⟨d.rx.incoming.erase (f.peer, id), d.rx.fs⟩⟩, bytes,
    .blobAck id true "clipboard-image", ?_⟩
  have hsize' : ¬ (inc.declared ≠ 0 ∧ inc.written ≠ inc.declared) := by tauto
  simp [route, hm, handleBlob, onEnd, hl, hsha, hsize', hsink, hclip]

end Images

/-! ### Runs -/

section Runs

variable {sha256 : Bytes → Digest} {localInfo : DeviceInfo} {cfg : XferConfig} {clipCfg : ClipConfig} {s s' : Inbox}

private theorem Inbox.route_some {f : Inbound} (h : s.route sha256 localInfo cfg f = some s') :
    s'.controls = s.controls ∧ s'.sync = s.sync ∧ s'.issued = s.issued ∧
      s'.blobImages = s.blobImages ++ (Qdrop.route sha256 localInfo cfg s.daemon f).2.images := by
  unfold Inbox.route at h
  split at h
  · rename_i daemon peer msg heq
    split at h
    · cases h
      exact ⟨rfl, rfl, rfl, by simp [heq, Routed.images]⟩
    · cases h
  · rename_i daemon routed heq
    split at h
    · cases h
      exact ⟨rfl, rfl, rfl, by simp [heq]⟩
    · cases h

/-- What holds in every run whose steps are heeded: nothing waits that a toggle forbids. -/
private structure Guarded (sha256 : Bytes → Digest) (s : Inbox) : Prop where
  images : s.blobImages ≠ [] → s.controls.clipboardPaused = false ∧ s.controls.syncImages = true
  pending : ∀ cmd, s.sync.pendingApply sha256 = some cmd → s.controls.Allow cmd
  respected : Respected s

theorem SyncTask.pendingApply_of_phase {st : SyncTask} (h : ∀ clip, st.phase ≠ .recordingRemote clip) :
    st.pendingApply sha256 = none := by
  unfold SyncTask.pendingApply
  split
  · rename_i clip hp
    exact absurd hp (h clip)
  · rfl
  · rfl

private theorem applyRemote_command {st : SyncTask} {clip : LocalClip} {cmd : ClipCommand}
    (h : (st.applyRemote sha256 clip).2 = some cmd) : cmd = clip.command := by
  unfold SyncTask.applyRemote at h
  split at h
  · cases h
  · exact (Option.some.inj h).symm

/-- The command that a frame leaves to be sent is allowed when the frame is taken. -/
private theorem allow_onRemote {st : SyncTask} {ctl : Controls} {ownId : DeviceId} {maxText : Nat} {msg : Message}
    {cmd : ClipCommand} (hbefore : ∀ cmd, st.pendingApply sha256 = some cmd → ctl.Allow cmd)
    (h : (st.onRemote ctl ownId maxText msg).pendingApply sha256 = some cmd) : ctl.Allow cmd := by
  rcases st.onRemote_cases ctl ownId maxText msg with heq | ⟨clip, heq, hpaused, himages⟩
  · rw [heq] at h
    exact hbefore cmd h
  · rw [heq] at h
    refine ⟨hpaused, fun png he => ?_⟩
    have hcmd := applyRemote_command h
    rw [he] at hcmd
    cases clip with
    | text t => cases hcmd
    | image png' => exact himages png' rfl

private theorem Respected.snoc {issued : List Issue} {cmd : ClipCommand} {ctl : Controls}
    (h : ∀ i ∈ issued, i.controls.Allow i.cmd) (hc : ctl.Allow cmd) :
    ∀ i ∈ issued ++ [⟨cmd, ctl⟩], i.controls.Allow i.cmd := by
  intro i hmem
  rcases List.mem_append.1 hmem with hmem | hmem
  · exact h i hmem
  · rw [List.mem_singleton.1 hmem]
    exact hc

private theorem guarded_step {e : InboxEvent} (h : Guarded sha256 s) (hok : Heeded sha256 cfg s e)
    (hs : inboxStep sha256 localInfo cfg clipCfg s e = some s') : Guarded sha256 s' := by
  unfold inboxStep at hs
  cases e with
  | setPaused on =>
    cases hs
    cases on with
    | true =>
      obtain ⟨hnil, hnone⟩ := hok rfl
      exact ⟨fun hne => absurd hnil hne, by simp [hnone], h.respected⟩
    | false =>
      exact ⟨fun hne => ⟨rfl, (h.images hne).2⟩, fun cmd hc => ⟨rfl, (h.pending cmd hc).2⟩, h.respected⟩
  | setSyncImages on =>
    cases hs
    cases on with
    | true =>
      exact ⟨fun hne => ⟨(h.images hne).1, rfl⟩, fun cmd hc => ⟨(h.pending cmd hc).1, fun _ _ => rfl⟩,
        h.respected⟩
    | false =>
      obtain ⟨hnil, hnone⟩ := hok rfl
      refine ⟨fun hne => absurd hnil hne, fun cmd hc => ⟨(h.pending cmd hc).1, ?_⟩, h.respected⟩
      intro png he
      exact absurd (he ▸ hc) (hnone png)
  | route f =>
    obtain ⟨hctl, hsync, hiss, hblobs⟩ := Inbox.route_some hs
    refine ⟨?_, by rw [hctl, hsync]; exact h.pending, by unfold Respected; rw [hiss]; exact h.respected⟩
    intro hne
    rw [hctl]
    by_cases himg : (Qdrop.route sha256 localInfo cfg s.daemon f).2.images = []
    · refine h.images ?_
      rwa [hblobs, himg, List.append_nil] at hne
    · obtain ⟨png, hmem⟩ := List.exists_mem_of_ne_nil _ himg
      exact hok (completesImage_of_images hmem)
  | applyBlob =>
    dsimp only at hs
    split at hs
    · cases hs
    · rename_i png images hb
      cases hs
      obtain ⟨hpaused, himages⟩ := h.images (by simp [hb])
      exact ⟨fun _ => ⟨hpaused, himages⟩, h.pending, Respected.snoc h.respected ⟨hpaused, fun _ _ => himages⟩⟩
  | takeFrame =>
    dsimp only at hs
    split at hs
    · rename_i peer msg frames hp hf
      cases hs
      exact ⟨h.images, fun cmd hc => allow_onRemote h.pending hc, h.respected⟩
    · cases hs
  | finishRemote =>
    dsimp only at hs
    split at hs
    · rename_i clip hp
      cases hs
      refine ⟨h.images, ?_, ?_⟩
      · rw [SyncTask.pendingApply_of_phase (by simp [SyncTask.applyRemote_phase])]
        simp
      · have hres : ∀ i ∈ s.issued, i.controls.Allow i.cmd := h.respected
        unfold Respected
        cases hout : (s.sync.applyRemote sha256 clip).2 with
        | none => simpa [hout] using hres
        | some cmd =>
          simp only [Option.toList, List.map_cons, List.map_nil]
          refine Respected.snoc hres (h.pending cmd ?_)
          rw [SyncTask.pendingApply, hp]
          exact hout
    · cases hs
  | takeLocal now clip =>
    dsimp only at hs
    split at hs
    · rename_i hp
      cases hs
      refine ⟨h.images, ?_, h.respected⟩
      rw [SyncTask.pendingApply_of_phase ?_]
      · simp
      · rcases s.sync.onLocal_cases s.controls now clip with ⟨st', why, heq, hphase⟩ | heq
        · simp [heq, hphase, hp]
        · simp [heq]
    · cases hs
  | finishLocal =>
    dsimp only at hs
    split at hs
    · cases hs
      refine ⟨h.images, ?_, h.respected⟩
      rw [SyncTask.pendingApply_of_phase (by simp [SyncTask.broadcastLocal_phase])]
      simp
    · cases hs

/-! ### Steps that are not heeded -/

/-- The blob image task applies a queued image whatever the toggles say. -/
private theorem applyBlob_breaks (sha256 : Bytes → Digest) (localInfo : DeviceInfo) (cfg : XferConfig)
    (clipCfg : ClipConfig) (hne : s.blobImages ≠ [])
    (hctl : ¬ (s.controls.clipboardPaused = false ∧ s.controls.syncImages = true)) :
    ∃ t, inboxStep sha256 localInfo cfg clipCfg s .applyBlob = some t ∧ ¬ Respected t := by
  obtain ⟨png, images, hb⟩ := List.exists_cons_of_ne_nil hne
  refine ⟨{ s with blobImages := images, issued := s.issued ++ [⟨.applyImage png, s.controls⟩] }, ?_, ?_⟩
  · simp only [inboxStep, hb]
  · intro hres
    have hallow := hres ⟨.applyImage png, s.controls⟩ (by simp)
    exact hctl ⟨hallow.1, hallow.2 png rfl⟩

/-- The sync loop sends the command for what it has recorded whatever the toggles say by then. -/
private theorem finishRemote_breaks (localInfo : DeviceInfo) (cfg : XferConfig) (clipCfg : ClipConfig)
    {cmd : ClipCommand} (hpend : s.sync.pendingApply sha256 = some cmd) (hctl : ¬ s.controls.Allow cmd) :
    ∃ t, inboxStep sha256 localInfo cfg clipCfg s .finishRemote = some t ∧ ¬ Respected t := by
  unfold SyncTask.pendingApply at hpend
  split at hpend
  · rename_i clip hp
    refine ⟨{ s with sync := (s.sync.applyRemote sha256 clip).1, issued := s.issued ++ [⟨cmd, s.controls⟩] }, ?_, ?_⟩
    · simp only [inboxStep, hp, hpend, Option.toList, List.map_cons, List.map_nil]
    · intro hres
      exact hctl (hres ⟨cmd, s.controls⟩ (by simp))
  · cases hpend
  · cases hpend

private theorem heedless_breaks {e : InboxEvent} (hs : inboxStep sha256 localInfo cfg clipCfg s e = some s')
    (hno : ¬ Heeded sha256 cfg s e) :
    ∃ e' t, inboxStep sha256 localInfo cfg clipCfg s' e' = some t ∧ ¬ Respected t := by
  cases e with
  | setPaused on =>
    simp only [Heeded, Classical.not_imp] at hno
    obtain ⟨rfl, hno⟩ := hno
    cases hs
    by_cases hnil : s.blobImages = []
    · obtain ⟨cmd, hc⟩ := Option.ne_none_iff_exists'.1 fun hnone => hno ⟨hnil, hnone⟩
      exact ⟨.finishRemote, finishRemote_breaks localInfo cfg clipCfg hc (by simp [Controls.Allow])⟩
    · exact ⟨.applyBlob, applyBlob_breaks sha256 localInfo cfg clipCfg hnil (by simp)⟩
  | setSyncImages on =>
    simp only [Heeded, Classical.not_imp] at hno
    obtain ⟨rfl, hno⟩ := hno
    cases hs
    by_cases hnil : s.blobImages = []
    · obtain ⟨png, hc⟩ : ∃ png, s.sync.pendingApply sha256 = some (.applyImage png) := by
        by_contra hcon
        exact hno ⟨hnil, fun png hc => hcon ⟨png, hc⟩⟩
      exact ⟨.finishRemote, finishRemote_breaks localInfo cfg clipCfg hc (by simp [Controls.Allow])⟩
    · exact ⟨.applyBlob, applyBlob_breaks sha256 localInfo cfg clipCfg hnil (by simp)⟩
  | route f =>
    simp only [Heeded, Classical.not_imp] at hno
    obtain ⟨hcomp, hctl⟩ := hno
    obtain ⟨heq, -, -, hblobs⟩ := Inbox.route_some hs
    obtain ⟨daemon, png, ack, hroute⟩ := route_completesImage localInfo hcomp
    refine ⟨.applyBlob, applyBlob_breaks sha256 localInfo cfg clipCfg ?_ (by rw [heq]; exact hctl)⟩
    rw [hblobs, hroute]
    simp [Routed.images, Effect.image]
  | applyBlob | takeFrame | finishRemote | takeLocal | finishLocal => exact absurd trivial hno

/-- In every run whose steps are heeded no command is issued for a peer against a toggle; and after a step that is
not heeded the next step of the blob image task or the sync loop issues one. -/
theorem switches_respected (sha256 : Bytes → Digest) (localInfo : DeviceInfo) (cfg : XferConfig)
    (clipCfg : ClipConfig) :
    (∀ (controls : Controls) (daemon : Daemon) (now : Int) (es : List InboxEvent) (s : Inbox),
      Run (inboxStep sha256 localInfo cfg clipCfg) (Heeded sha256 cfg) (Inbox.start controls daemon now) es s →
      Respected s) ∧
    ∀ (s s' : Inbox) (e : InboxEvent), inboxStep sha256 localInfo cfg clipCfg s e = some s' →
      ¬ Heeded sha256 cfg s e → ∃ e' t, inboxStep sha256 localInfo cfg clipCfg s' e' = some t ∧ ¬ Respected t := by
  refine ⟨?_, fun s s' e hs hno => heedless_breaks hs hno⟩
  intro controls daemon now es s hr
  have h : Guarded sha256 s := by
    refine hr.invariant ⟨fun hne => absurd rfl hne, ?_, fun i hi => by cases hi⟩ ?_
    · intro cmd hc
      cases hc
    · intro s e t hg hok hstep
      exact guarded_step hg hok hstep
  exact h.respected

private def idleDaemon : Daemon := ⟨.absent, AuthManager.new, ⟨∅, FileSys.empty⟩⟩

private def imageConfig : XferConfig := ⟨"d", .never, true⟩

private def ofPhone (msg : Message) : Inbound := ⟨"p", msg, Io.ok, none⟩

/-- A peer sends an image of one byte as a blob, and the blob image task takes it. -/
private def blobImage : List InboxEvent :=
  [.route (ofPhone (.blobStart 1 "clipboard-image" 1 .clipboardImage)), .route (ofPhone (.blobChunk 1 [137])),
    .route (ofPhone (.blobEnd 1 (Vector.replicate 32 0))), .applyBlob]

/-- The steps of a run in which the toggles stay on. -/
private def untouched (s : Inbox) (e : InboxEvent) : Prop :=
  s.controls = ⟨false, true⟩ ∧ (match e with
    | .setPaused _ | .setSyncImages _ => false
    | _ => true) = true

private instance (s : Inbox) (e : InboxEvent) : Decidable (untouched s e) := inferInstanceAs (Decidable (_ ∧ _))

private theorem heeded_of_untouched (sha256 : Bytes → Digest) (cfg : XferConfig) {s : Inbox} {e : InboxEvent}
    (h : untouched s e) : Heeded sha256 cfg s e := by
  obtain ⟨hctl, he⟩ := h
  cases e with
  | setPaused | setSyncImages => cases he
  | route f => exact fun _ => by rw [hctl]; exact ⟨rfl, rfl⟩
  | applyBlob | takeFrame | finishRemote | takeLocal | finishLocal => trivial

/-- With the toggles on the image is applied. -/
theorem switches_respected_image :
    ∃ s, Run (inboxStep (fun _ => Vector.replicate 32 0) ⟨"host", [], "linux"⟩ imageConfig ⟨"a", .other, 1024⟩)
        (Heeded (fun _ => Vector.replicate 32 0) imageConfig) (.start ⟨false, true⟩ idleDaemon 0) blobImage s ∧
      s.issued.map Issue.cmd = [.applyImage [137]] ∧ Respected s := by
  obtain ⟨s, hr, hv⟩ := run_of_exec_checked
    (inboxStep (fun _ => Vector.replicate 32 0) ⟨"host", [], "linux"⟩ imageConfig ⟨"a", .other, 1024⟩) untouched
    (.start ⟨false, true⟩ idleDaemon 0) blobImage (fun s => s.issued.map Issue.cmd) [.applyImage [137]]
    (by decide +kernel)
  have hr' := hr.mono fun _ _ h => heeded_of_untouched (fun _ => Vector.replicate 32 0) imageConfig h
  exact ⟨s, hr', hv, (switches_respected _ _ imageConfig _).1 _ _ _ _ s hr'⟩

/-- While the clipboard is paused a peer's image that comes as a blob is applied all the same. -/
theorem blob_image_ignores_pause :
    ¬ ∀ (sha256 : Bytes → Digest) (localInfo : DeviceInfo) (cfg : XferConfig) (clipCfg : ClipConfig)
      (controls : Controls) (daemon : Daemon) (now : Int) (es : List InboxEvent) (s : Inbox),
      Run (inboxStep sha256 localInfo cfg clipCfg) Always (.start controls daemon now) es s → Respected s := by
  intro h
  obtain ⟨s, hr, hv⟩ := run_of_exec_view
    (inboxStep (fun _ => Vector.replicate 32 0) ⟨"host", [], "linux"⟩ imageConfig ⟨"a", .other, 1024⟩) (fun _ => True)
    (.start ⟨false, true⟩ idleDaemon 0) (.setPaused true :: blobImage) Inbox.issued
    [⟨.applyImage [137], ⟨true, true⟩⟩] (fun _ _ => trivial) (by decide +kernel)
  have hres := h _ _ _ _ _ _ _ _ s hr ⟨.applyImage [137], ⟨true, true⟩⟩ (by rw [hv]; simp)
  cases hres.1

end Runs

end Qdrop
