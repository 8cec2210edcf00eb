import Qdrop.Clipboard.Thread

/-!
# The sync loop (`qdropd/src/sync.rs`)

One task takes the local changes and the `Clipboard` frames of the peers.  Both branches wait for `history.record_*`
between their first checks and the hash comparison, so each is two functions here: what happens up to the await and
what happens after it.  Times are in milliseconds.
-/

namespace Qdrop

/-- Runtime toggles shared with the control socket. -/
structure Controls where
  clipboardPaused : Bool
  syncImages : Bool
deriving DecidableEq, Repr

/-- The fixed facts of a device. -/
structure ClipConfig where
  ownId : DeviceId
  os : Platform
  /-- `max_clipboard_bytes`. -/
  maxText : Nat
deriving DecidableEq, Repr

/-- Slots of the local change channel. -/
def localCap : Nat := 16

/-- The gap between two broadcasts. -/
def minGap : Int := 300

inductive SyncPhase where
  /-- Inside `select!`. -/
  | selecting
  /-- Recording a local change that passed the first checks. -/
  | recordingLocal (clip : LocalClip)
  /-- Recording what a peer sent. -/
  | recordingRemote (clip : LocalClip)
deriving DecidableEq, Repr

/-- The sync loop is at work on what a peer sent. -/
def SyncPhase.isRemote : SyncPhase → Bool
  | .recordingRemote _ => true
  | .selecting | .recordingLocal _ => false

structure SyncTask where
  /-- The number of the last broadcast; a `u64` that wraps in the source, so runs are taken to broadcast fewer than 2^64
  times. -/
  seq : Nat
  lastSynced : Option Digest
  lastBroadcast : Int
  phase : SyncPhase
deriving DecidableEq, Repr

/-- Why a local change is not broadcast. -/
inductive Skip where
  | paused
  | rateLimited
  | imagesOff
  | overLimit
  | duplicate
deriving DecidableEq, Repr

/-- What comes of a local change. -/
inductive Outcome where
  | skipped (why : Skip)
  | broadcast (msg : Message)
  /-- Handed to `send_clip_image`. -/
  | blob (png : Bytes)
deriving DecidableEq, Repr

/-- The apply command for a clip. -/
def LocalClip.command : LocalClip → ClipCommand
  | .text t => .applyText t
  | .image png => .applyImage png

namespace SyncTask

/-- The task when it enters its loop. -/
def start (now : Int) : SyncTask := ⟨0, none, now - minGap, .selecting⟩

/-- The local branch up to the await. -/
def onLocal (ctl : Controls) (now : Int) (st : SyncTask) (clip : LocalClip) : SyncTask × Option Skip :=
  if ctl.clipboardPaused then (st, some .paused)
  else if now - st.lastBroadcast < minGap then (st, some .rateLimited)
  else match clip with
    | .text _ => ({ st with lastBroadcast := now, phase := .recordingLocal clip }, none)
    | .image _ =>
      if ctl.syncImages then ({ st with lastBroadcast := now, phase := .recordingLocal clip }, none)
      else ({ st with lastBroadcast := now }, some .imagesOff)

/-- The local branch after the await. -/
def broadcastLocal (sha256 : Bytes → Digest) (maxText : Nat) (ownId : DeviceId) (st : SyncTask)
    (clip : LocalClip) : SyncTask × Outcome :=
  match clip with
  | .text t =>
    if maxText < t.utf8ByteSize then ({ st with phase := .selecting }, .skipped .overLimit)
    else if some (sha256 (asBytes t)) = st.lastSynced then ({ st with phase := .selecting }, .skipped .duplicate)
    else ({ st with lastSynced := some (sha256 (asBytes t)), seq := st.seq + 1, phase := .selecting },
      .broadcast (.clipboard (st.seq + 1) ownId [ClipEntry.text t]))
  | .image png =>
    if some (sha256 png) = st.lastSynced then ({ st with phase := .selecting }, .skipped .duplicate)
    else if png.length ≤ clipImageInlineMax then
      ({ st with lastSynced := some (sha256 png), seq := st.seq + 1, phase := .selecting },
        .broadcast (.clipboard (st.seq + 1) ownId [ClipEntry.png png]))
    else ({ st with lastSynced := some (sha256 png), phase := .selecting }, .blob png)

/-- The remote branch up to the await. -/
def onRemote (ctl : Controls) (ownId : DeviceId) (maxText : Nat) (st : SyncTask) (msg : Message) : SyncTask :=
  match msg with
  | .clipboard _ originId entries =>
    if ctl.clipboardPaused ∨ originId = ownId then st
    else match entries.findSome? ClipEntry.asText with
      | some t => if maxText < t.utf8ByteSize then st else { st with phase := .recordingRemote (.text t) }
      | none =>
        if ctl.syncImages then match entries.findSome? ClipEntry.asImage with
          | some png => { st with phase := .recordingRemote (.image png) }
          | none => st
        else st
  | _ => st

/-- The remote branch after the await: the command for the clipboard thread, unless the content is the last one
synced. -/
def applyRemote (sha256 : Bytes → Digest) (st : SyncTask) (clip : LocalClip) : SyncTask × Option ClipCommand :=
  if some (sha256 clip.bytes) = st.lastSynced then ({ st with phase := .selecting }, none)
  else ({ st with lastSynced := some (sha256 clip.bytes), phase := .selecting }, some clip.command)

/-- The task after the await it is in. -/
def settle (sha256 : Bytes → Digest) (cfg : ClipConfig) (st : SyncTask) : SyncTask :=
  match st.phase with
  | .selecting => st
  | .recordingLocal clip => (broadcastLocal sha256 cfg.maxText cfg.ownId st clip).1
  | .recordingRemote clip => (applyRemote sha256 st clip).1

/-- A local change is dropped, or it waits for its record. -/
theorem onLocal_cases (ctl : Controls) (now : Int) (st : SyncTask) (clip : LocalClip) :
    (∃ st' why, onLocal ctl now st clip = (st', some why) ∧ st'.phase = st.phase) ∨
    onLocal ctl now st clip = ({ st with lastBroadcast := now, phase := .recordingLocal clip }, none) := by
  unfold onLocal
  split
  · exact Or.inl ⟨_, _, rfl, rfl⟩
  split
  · exact Or.inl ⟨_, _, rfl, rfl⟩
  cases clip with
  | text t => exact Or.inr rfl
  | image png =>
    dsimp only
    split
    · exact Or.inr rfl
    · exact Or.inl ⟨_, _, rfl, rfl⟩

/-- An unpaused loop drops every change before the gap has passed. -/
theorem onLocal_early {ctl : Controls} {now : Int} {st : SyncTask} (clip : LocalClip)
    (h : ctl.clipboardPaused = false) (hgap : now - st.lastBroadcast < minGap) :
    onLocal ctl now st clip = (st, some .rateLimited) := by
  simp [onLocal, h, hgap]

/-- A change after the gap, even an image that is not synced, begins the next gap. -/
theorem onLocal_gap {ctl : Controls} {now : Int} {st : SyncTask} (clip : LocalClip)
    (h : ctl.clipboardPaused = false) (hgap : minGap ≤ now - st.lastBroadcast) :
    onLocal ctl now st clip = ({ st with lastBroadcast := now, phase := .recordingLocal clip }, none) ∨
    (∃ png, clip = .image png) ∧ onLocal ctl now st clip = ({ st with lastBroadcast := now }, some .imagesOff) := by
  have hgap' : ¬ now - st.lastBroadcast < minGap := Int.not_lt.2 hgap
  cases clip with
  | text t => exact Or.inl (by simp [onLocal, h, hgap'])
  | image png =>
    by_cases himages : ctl.syncImages = true
    · exact Or.inl (by simp [onLocal, h, hgap', himages])
    · exact Or.inr ⟨⟨png, rfl⟩, by simp [onLocal, h, hgap', himages]⟩

/-- An unpaused loop drops a text only for its rate. -/
theorem onLocal_text {ctl : Controls} (now : Int) (st : SyncTask) (t : String) (h : ctl.clipboardPaused = false) :
    onLocal ctl now st (.text t) =
      if now - st.lastBroadcast < minGap then (st, some .rateLimited)
      else ({ st with lastBroadcast := now, phase := .recordingLocal (.text t) }, none) := by
  simp [onLocal, h]

/-- A text within the limit is broadcast, unless it is the last one synced. -/
theorem broadcastLocal_text {maxText : Nat} {t : String} (sha256 : Bytes → Digest) (ownId : DeviceId) (st : SyncTask)
    (h : t.utf8ByteSize ≤ maxText) :
    broadcastLocal sha256 maxText ownId st (.text t) =
      if some (sha256 (asBytes t)) = st.lastSynced then ({ st with phase := .selecting }, .skipped .duplicate)
      else ({ st with lastSynced := some (sha256 (asBytes t)), seq := st.seq + 1, phase := .selecting },
        .broadcast (.clipboard (st.seq + 1) ownId [ClipEntry.text t])) := by
  simp [broadcastLocal, Nat.not_lt.2 h]

/-- The last text synced is not broadcast again. -/
theorem broadcastLocal_synced {sha256 : Bytes → Digest} {st : SyncTask} {t : String} (maxText : Nat)
    (ownId : DeviceId) (h : st.lastSynced = some (sha256 (asBytes t))) :
    ∃ why, (broadcastLocal sha256 maxText ownId st (.text t)).2 = .skipped why := by
  unfold broadcastLocal
  dsimp only
  split
  · exact ⟨_, rfl⟩
  · rw [if_pos h.symm]
    exact ⟨_, rfl⟩

/-- Only an image above the inline limit goes the blob path. -/
theorem broadcastLocal_blob {sha256 : Bytes → Digest} {maxText : Nat} {ownId : DeviceId} {st : SyncTask}
    {clip : LocalClip} {png : Bytes} (h : (broadcastLocal sha256 maxText ownId st clip).2 = .blob png) :
    clip = .image png ∧ clipImageInlineMax < png.length := by
  unfold broadcastLocal at h
  cases clip with
  | text t =>
    dsimp only at h
    split at h
    · cases h
    split at h
    · cases h
    · cases h
  | image png' =>
    dsimp only at h
    split at h
    · cases h
    split at h
    · cases h
    · rename_i hlen
      cases h
      exact ⟨rfl, not_le.1 hlen⟩

/-- A new image above the inline limit goes the blob path. -/
theorem broadcastLocal_large {maxText : Nat} {ownId : DeviceId} {st : SyncTask} {png : Bytes}
    (sha256 : Bytes → Digest) (hlen : clipImageInlineMax < png.length) (hnew : st.lastSynced ≠ some (sha256 png)) :
    broadcastLocal sha256 maxText ownId st (.image png) =
      ({ st with lastSynced := some (sha256 png), phase := .selecting }, .blob png) := by
  unfold broadcastLocal
  dsimp only
  rw [if_neg hnew.symm, if_neg (not_le.2 hlen)]

theorem broadcastLocal_phase (sha256 : Bytes → Digest) (maxText : Nat) (ownId : DeviceId) (st : SyncTask)
    (clip : LocalClip) : (broadcastLocal sha256 maxText ownId st clip).1.phase = .selecting := by
  unfold broadcastLocal
  cases clip with
  | text t => dsimp only; split <;> (try split) <;> rfl
  | image png => dsimp only; split <;> (try split) <;> rfl

theorem applyRemote_phase (sha256 : Bytes → Digest) (st : SyncTask) (clip : LocalClip) :
    (applyRemote sha256 st clip).1.phase = .selecting := by
  unfold applyRemote
  split <;> rfl

theorem settle_phase (sha256 : Bytes → Digest) (cfg : ClipConfig) (st : SyncTask) :
    (settle sha256 cfg st).phase = .selecting := by
  unfold settle
  split
  · assumption
  · exact broadcastLocal_phase ..
  · exact applyRemote_phase ..

theorem settle_lastBroadcast (sha256 : Bytes → Digest) (cfg : ClipConfig) (st : SyncTask) :
    (settle sha256 cfg st).lastBroadcast = st.lastBroadcast := by
  unfold settle
  split
  · rfl
  · unfold broadcastLocal
    split <;> split <;> (try split) <;> rfl
  · unfold applyRemote
    split <;> rfl

theorem settle_of_selecting {sha256 : Bytes → Digest} {cfg : ClipConfig} {st : SyncTask}
    (h : st.phase = .selecting) : settle sha256 cfg st = st := by
  simp [settle, h]

theorem settle_of_recordingLocal {sha256 : Bytes → Digest} {cfg : ClipConfig} {st : SyncTask} {clip : LocalClip}
    (h : st.phase = .recordingLocal clip) :
    settle sha256 cfg st = (broadcastLocal sha256 cfg.maxText cfg.ownId st clip).1 := by
  simp [settle, h]

theorem settle_of_recordingRemote {sha256 : Bytes → Digest} {cfg : ClipConfig} {st : SyncTask} {clip : LocalClip}
    (h : st.phase = .recordingRemote clip) : settle sha256 cfg st = (applyRemote sha256 st clip).1 := by
  simp [settle, h]

/-- A remote frame changes the phase only. -/
theorem onRemote_cases (ctl : Controls) (ownId : DeviceId) (maxText : Nat) (st : SyncTask) (msg : Message) :
    onRemote ctl ownId maxText st msg = st ∨
    ∃ clip, onRemote ctl ownId maxText st msg = { st with phase := .recordingRemote clip } ∧
      ctl.clipboardPaused = false ∧ ∀ png, clip = .image png → ctl.syncImages = true := by
  unfold onRemote
  split
  · split
    · exact Or.inl rfl
    · rename_i hp
      have hpaused : ctl.clipboardPaused = false := by simpa using fun h => hp (Or.inl h)
      split
      · split
        · exact Or.inl rfl
        · exact Or.inr ⟨_, rfl, hpaused, by simp⟩
      · split
        · rename_i himages
          split
          · exact Or.inr ⟨_, rfl, hpaused, fun _ _ => himages⟩
          · exact Or.inl rfl
        · exact Or.inl rfl
  · exact Or.inl rfl

/-- A peer's text within the limit is recorded. -/
theorem onRemote_text {ctl : Controls} {ownId originId : DeviceId} {maxText seq : Nat} {t : String} (st : SyncTask)
    (hp : ctl.clipboardPaused = false) (hid : originId ≠ ownId) (hlen : t.utf8ByteSize ≤ maxText) :
    onRemote ctl ownId maxText st (.clipboard seq originId [ClipEntry.text t]) =
      { st with phase := .recordingRemote (.text t) } := by
  simp [onRemote, hp, hid, Nat.not_lt.2 hlen]

end SyncTask

/-- The frame or the image of an outcome carries the clip and nothing else, under the sender's own id. -/
def Outcome.Carries (ownId : DeviceId) (clip : LocalClip) : Outcome → Prop
  | .skipped _ => True
  | .broadcast msg => ∃ seq, msg = .clipboard seq ownId [match clip with
    | .text t => ClipEntry.text t
    | .image png => ClipEntry.png png]
  | .blob png => clip = .image png

theorem SyncTask.broadcastLocal_carries (sha256 : Bytes → Digest) (maxText : Nat) (ownId : DeviceId) (st : SyncTask)
    (clip : LocalClip) : (broadcastLocal sha256 maxText ownId st clip).2.Carries ownId clip := by
  unfold broadcastLocal
  cases clip with
  | text t =>
    dsimp only
    split
    · trivial
    split
    · trivial
    · exact ⟨_, rfl⟩
  | image png =>
    dsimp only
    split
    · trivial
    split
    · exact ⟨_, rfl⟩
    · rfl

end Qdrop
