import Qdrop.Proto

/-!
# The clipboard thread (`qdropd/src/clipboard.rs`)

One OS thread owns the system clipboard.  It applies the commands of the other tasks and, when none arrives within
the poll interval, takes a snapshot and forwards what the user copied.  An apply is two steps, the write and the
snapshot whose token is remembered, since a user copy can fall between them; a poll reads the clipboard in one step.
The token of a snapshot is `changeCount` on macOS and a content hash elsewhere: here it is a field of the clipboard
that every change may set to any value.
-/

namespace Qdrop

/-- What the system clipboard holds. -/
structure Content where
  text : Option String
  /-- As the PNG a snapshot reads. -/
  image : Option Bytes
  /-- Marked concealed or transient by the copying program. -/
  concealed : Bool
deriving DecidableEq, Repr

def Content.ofText (t : String) : Content := ⟨some t, none, false⟩

def Content.ofImage (png : Bytes) : Content := ⟨none, some png, false⟩

structure Board where
  content : Content
  token : Int
deriving DecidableEq, Repr

/-- Something the user copied locally. -/
inductive LocalClip where
  | text (t : String)
  | image (png : Bytes)
deriving DecidableEq, Repr

def LocalClip.bytes : LocalClip → Bytes
  | .text t => asBytes t
  | .image png => png

/-- A remote update to apply locally, or a read request. -/
inductive ClipCommand where
  | applyText (t : String)
  | applyImage (png : Bytes)
  | getText
deriving DecidableEq, Repr

/-- The `target_os` of the build. -/
inductive Platform where
  | macos
  | other
deriving DecidableEq, Repr

structure Snapshot where
  token : Int
  concealed : Bool
  text : Option String
  imagePng : Option Bytes
deriving DecidableEq, Repr

/-- `Backend::snapshot`: on macOS a concealed item is not read, and the text only if there is no image. -/
def Board.snapshot (os : Platform) (syncImages : Bool) (b : Board) : Option Snapshot :=
  let imagePng := if syncImages then b.content.image else none
  let text := b.content.text.filter fun t => !t.isEmpty
  match os with
  | .macos =>
    if b.content.concealed then some ⟨b.token, true, none, none⟩
    else some ⟨b.token, false, if imagePng.isNone then text else none, imagePng⟩
  | .other => some ⟨b.token, b.content.concealed, text, imagePng⟩

/-- What the poll makes of a snapshot that is not concealed: the image, else the text. -/
def Snapshot.clip (snap : Snapshot) : Option LocalClip :=
  match snap.imagePng with
  | some png => some (.image png)
  | none => snap.text.map .text

/-- The operating system's answer to `set_text` or `set_image_png`: the new token, and the PNG that later snapshots
read back of an image. -/
inductive SetResult where
  | failed
  | done (token : Int) (png : Bytes)
deriving DecidableEq, Repr

/-- The clipboard after the write of a command. -/
def Board.set (b : Board) (res : SetResult) : ClipCommand → Board
  | .applyText t => match res with
    | .failed => b
    | .done token _ => ⟨.ofText t, token⟩
  | .applyImage _ => match res with
    | .failed => b
    | .done token png => ⟨.ofImage png, token⟩
  | .getText => b

inductive ThreadPhase where
  /-- Inside `recv_timeout`. -/
  | waiting
  /-- Between the write of a command and the snapshot after it. -/
  | applied
  /-- Inside `local_changes.blocking_send`. -/
  | sending (clip : LocalClip)
deriving DecidableEq, Repr

structure ClipThread where
  lastToken : Option Int
  suppress : Option Digest
  phase : ThreadPhase
deriving DecidableEq, Repr

namespace ClipThread

/-- The thread when it enters its loop. -/
def start (snap : Option Snapshot) : ClipThread := ⟨snap.map (·.token), none, .waiting⟩

variable (sha256 : Bytes → Digest)

/-- A command has arrived: the part up to the write. -/
def onCommand (th : ClipThread) : ClipCommand → ClipThread
  | .applyText t => { th with suppress := some (sha256 (asBytes t)), phase := .applied }
  | .applyImage png => { th with suppress := some (sha256 png), phase := .applied }
  | .getText => th

/-- The snapshot after the write. -/
def settle (th : ClipThread) (snap : Option Snapshot) : ClipThread :=
  { th with lastToken := snap.map (·.token), phase := .waiting }

/-- The `Timeout` branch up to the send. -/
def poll (th : ClipThread) (snap : Option Snapshot) : ClipThread :=
  match snap with
  | none => th
  | some snap =>
    if some snap.token = th.lastToken then th
    else if snap.concealed then { th with lastToken := some snap.token }
    else match snap.clip with
      | none => { th with lastToken := some snap.token }
      | some clip =>
        if some (sha256 clip.bytes) = th.suppress then { th with lastToken := some snap.token, suppress := none }
        else { th with lastToken := some snap.token, phase := .sending clip }

end ClipThread

/-- What the thread forwards of a copy with this content, if no filter stops it. -/
def Content.clip (syncImages : Bool) (c : Content) : Option LocalClip :=
  if c.concealed then none
  else match if syncImages then c.image else none with
    | some png => some (.image png)
    | none => (c.text.filter fun t => !t.isEmpty).map .text

@[simp] theorem Content.clip_ofText {t : String} (images : Bool) (h : t ≠ "") :
    (Content.ofText t).clip images = some (.text t) := by
  cases images <;> simp [Content.clip, Content.ofText, h]

@[simp] theorem Board.snapshot_token (os : Platform) (images : Bool) (b : Board) :
    (b.snapshot os images).map (·.token) = some b.token := by
  unfold Board.snapshot
  cases os with
  | macos => dsimp only; split <;> rfl
  | other => rfl

/-- Both platforms forward the same clip of the same content. -/
theorem Board.snapshot_clip (os : Platform) (images : Bool) (b : Board) :
    ∃ snap, b.snapshot os images = some snap ∧ snap.token = b.token ∧ snap.concealed = b.content.concealed ∧
      (b.content.concealed = false → snap.clip = b.content.clip images) := by
  cases os with
  | macos =>
    by_cases hc : b.content.concealed = true
    · exact ⟨⟨b.token, true, none, none⟩, by simp [Board.snapshot, hc], rfl, hc.symm, by simp [hc]⟩
    · refine ⟨_, if_neg hc, rfl, ?_, ?_⟩
      · simpa using hc
      · intro _
        unfold Snapshot.clip Content.clip
        rw [if_neg hc]
        cases (if images then b.content.image else none) <;> rfl
  | other =>
    refine ⟨_, rfl, rfl, rfl, ?_⟩
    intro hc
    have hc' : ¬ b.content.concealed = true := by simp [hc]
    unfold Snapshot.clip Content.clip
    rw [if_neg hc']

/-- What a poll does: nothing on the token it knows; otherwise it learns the token and forwards the clip, unless the
content gives none or the clip is the suppressed one. -/
theorem ClipThread.poll_cases (sha256 : Bytes → Digest) (th : ClipThread) (os : Platform) (images : Bool)
    (b : Board) :
    (th.lastToken = some b.token ∧ th.poll sha256 (b.snapshot os images) = th) ∨
    (th.lastToken ≠ some b.token ∧ b.content.clip images = none ∧
      th.poll sha256 (b.snapshot os images) = { th with lastToken := some b.token }) ∨
    (∃ clip, th.lastToken ≠ some b.token ∧ b.content.clip images = some clip ∧
      th.suppress = some (sha256 clip.bytes) ∧
      th.poll sha256 (b.snapshot os images) = { th with lastToken := some b.token, suppress := none }) ∨
    (∃ clip, th.lastToken ≠ some b.token ∧ b.content.clip images = some clip ∧
      th.suppress ≠ some (sha256 clip.bytes) ∧
      th.poll sha256 (b.snapshot os images) = { th with lastToken := some b.token, phase := .sending clip }) := by
  obtain ⟨snap, hs, htok, hcon, hclip⟩ := b.snapshot_clip os images
  rw [hs]
  unfold ClipThread.poll
  dsimp only
  rw [htok, hcon]
  by_cases ht : th.lastToken = some b.token
  · exact Or.inl ⟨ht, if_pos ht.symm⟩
  · rw [if_neg (fun h => ht h.symm)]
    refine Or.inr ?_
    by_cases hc : b.content.concealed
    · exact Or.inl ⟨ht, by simp [Content.clip, hc], if_pos hc⟩
    · rw [if_neg hc, hclip (by simpa using hc)]
      cases hk : b.content.clip images with
      | none => exact Or.inl ⟨ht, rfl, rfl⟩
      | some clip =>
        refine Or.inr ?_
        dsimp only
        by_cases hsup : th.suppress = some (sha256 clip.bytes)
        · exact Or.inl ⟨clip, ht, rfl, hsup, if_pos hsup.symm⟩
        · exact Or.inr ⟨clip, ht, rfl, hsup, if_neg (fun h => hsup h.symm)⟩

end Qdrop
