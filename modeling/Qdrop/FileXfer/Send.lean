import Qdrop.Proto

/-!
# Sending a blob (`qdropd/src/filexfer.rs`, sender side)

One `send_one` or `send_clip_image` call: it takes a transfer id and streams `BlobStart`, the chunks and `BlobEnd`
into the outbound channel of the connection it found, and waits for the acknowledgement.  `SendCall` is the call
between two of its awaits; the answers of the operating system and of the peer are inputs.  Between `BlobStart` and
`BlobEnd` a call can return at every step, and it then sends nothing more.
-/

namespace Qdrop

inductive Source where
  | file (path : PathBuf)
  /-- What is left of the buffer. -/
  | mem (rest : Bytes)
deriving DecidableEq, Repr

/-- Where `stream_blob` is. -/
inductive SendPhase where
  /-- `BlobStart` is about to be queued. -/
  | starting
  | opening
  | reading
  /-- A chunk is about to be queued. -/
  | sending (data : Bytes)
  /-- `BlobEnd` is about to be queued. -/
  | ending
  /-- Waiting for the acknowledgement. -/
  | awaiting
  | returned (result : Except String String)

structure SendCall where
  /-- The connection whose outbound channel the call holds. -/
  conn : Nat
  name : String
  size : Nat
  purpose : BlobPurpose
  source : Source
  /-- The bytes fed to the running SHA-256. -/
  hasher : Bytes
  phase : SendPhase

def sendAttempts : Nat := 3

/-- `Path::file_name`. -/
def fileName (path : PathBuf) : Option String :=
  match (components path.toList).getLast? with
  | some (.normal s) => some (String.ofList s)
  | _ => none

/-- `send_one` up to `stream_blob`, with what `metadata` says about the path: whether it is a regular file, and its
length. -/
def sendOne (conn : Option Nat) (path : PathBuf) (stat : Except String (Bool × Nat)) : Except String SendCall :=
  match conn, stat with
  | none, _ => .error "peer is not connected"
  | some _, .error err => .error s!"stat {path}: {err}"
  | some conn, .ok (isFile, len) =>
    if isFile = false then .error s!"{path} is not a regular file"
    else match fileName path with
      | none => .error "path has no filename"
      | some name => .ok ⟨conn, name, len, .file, .file path, [], .starting⟩

/-- `send_clip_image` for one peer. -/
def sendClipImage (conn : Nat) (png : Bytes) : SendCall :=
  ⟨conn, "clipboard.png", png.length, .clipboardImage, .mem png, [], .starting⟩

/-- The blob transfer a frame belongs to, seen from its receiver. -/
def blobId : Message → Option Nat
  | .blobStart id _ _ _ | .blobChunk id _ | .blobEnd id _ => some id
  | _ => none

namespace SendCall

/-- The frame the call waits to queue. -/
def frame (sha256 : Bytes → Digest) (c : SendCall) (id : Nat) : Option Message :=
  match c.phase with
  | .starting => some (.blobStart id c.name c.size c.purpose)
  | .sending data => some (.blobChunk id data)
  | .ending => some (.blobEnd id (sha256 c.hasher))
  | .opening | .reading | .awaiting | .returned _ => none

def finish (c : SendCall) (result : Except String String) : SendCall := { c with phase := .returned result }

/-- The frame has been queued. -/
def queued (c : SendCall) : SendCall :=
  match c.phase, c.source with
  | .starting, .file _ => { c with phase := .opening }
  | .starting, .mem _ => { c with phase := .reading }
  | .sending _, _ => { c with phase := .reading }
  | .ending, _ => { c with phase := .awaiting }
  | _, _ => c

/-- The connection is gone. -/
def closed (c : SendCall) : SendCall :=
  match c.phase with
  | .sending _ => c.finish (.error "connection closed mid-transfer")
  | _ => c.finish (.error "connection closed")

/-- `File::open` returns. -/
def opened (c : SendCall) (err : Option String) : Option SendCall :=
  match c.phase with
  | .opening =>
    match err with
    | none => some { c with phase := .reading }
    | some err => some (c.finish (.error err))
  | _ => none

/-- A `read` of the file returns. -/
def read (c : SendCall) (res : Except String Bytes) : Option SendCall :=
  match c.phase, c.source with
  | .reading, .file _ =>
    match res with
    | .error err => some (c.finish (.error err))
    | .ok data =>
      if data = [] then some { c with phase := .ending }
      else if data.length ≤ blobChunk then some { c with phase := .sending data, hasher := c.hasher ++ data }
      else none
  | _, _ => none

/-- The next of the buffer's `chunks(BLOB_CHUNK)`. -/
def nextChunk (c : SendCall) : Option SendCall :=
  match c.phase, c.source with
  | .reading, .mem rest =>
    if rest = [] then some { c with phase := .ending }
    else some { c with
      phase := .sending (rest.take blobChunk)
      hasher := c.hasher ++ rest.take blobChunk
      source := .mem (rest.drop blobChunk) }
  | _, _ => none

/-- What the wait for the acknowledgement gives: a `BlobAck`, a dropped waiter, or the timeout. -/
inductive Answer where
  | ack (ok : Bool) (detail : String)
  | dropped
  | timeout
deriving DecidableEq, Repr

def answered (c : SendCall) (answer : Answer) : Option SendCall :=
  match c.phase with
  | .awaiting =>
    match answer with
    | .ack true detail => some (c.finish (.ok detail))
    | .ack false detail => some (c.finish (.error s!"peer rejected: {detail}"))
    | .dropped => some (c.finish (.error "ack channel dropped"))
    | .timeout => some (c.finish (.error "timed out waiting for peer ack"))
  | _ => none

/-! ### Where a call stands -/

def isStarting (c : SendCall) : Bool :=
  match c.phase with
  | .starting => true
  | _ => false

/-- `BlobStart` has been queued and `BlobEnd` is still to come. -/
def isStreaming (c : SendCall) : Bool :=
  match c.phase with
  | .opening | .reading | .sending _ | .ending => true
  | .starting | .awaiting | .returned _ => false

def hasReturned (c : SendCall) : Bool :=
  match c.phase with
  | .returned _ => true
  | _ => false

variable {sha256 : Bytes → Digest} {c c' : SendCall} {id : Nat} {m : Message}

/-- A call queues `BlobStart` first, then chunks, then `BlobEnd`. -/
theorem frame_cases (h : c.frame sha256 id = some m) :
    (c.isStarting = true ∧ m = .blobStart id c.name c.size c.purpose ∧ c.queued.isStarting = false) ∨
    (∃ data, c.isStarting = false ∧ m = .blobChunk id data ∧ c.isStreaming = true ∧ c.queued.isStreaming = true ∧
      c.queued.isStarting = false) ∨
    (∃ sha, c.isStarting = false ∧ m = .blobEnd id sha ∧ c.queued.isStarting = false) := by
  obtain ⟨conn, name, size, purpose, source, hasher, phase⟩ := c
  cases phase with
  | starting =>
    cases h
    exact Or.inl ⟨rfl, rfl, by cases source <;> rfl⟩
  | sending data =>
    cases h
    exact Or.inr (Or.inl ⟨data, rfl, rfl, rfl, rfl, rfl⟩)
  | ending =>
    cases h
    exact Or.inr (Or.inr ⟨_, rfl, rfl, rfl⟩)
  | opening | reading | awaiting | returned => cases h

theorem frame_blobId (h : c.frame sha256 id = some m) : blobId m = some id := by
  rcases frame_cases h with ⟨-, rfl, -⟩ | ⟨data, -, rfl, -⟩ | ⟨sha, -, rfl, -⟩ <;> rfl

/-- A call with a frame to queue is starting or streaming, and has not returned. -/
theorem of_frame (h : c.frame sha256 id = some m) :
    c.hasReturned = false ∧ (c.isStarting = false → c.isStreaming = true) ∧
      (c.isStarting = true → c.queued.isStreaming = true) := by
  obtain ⟨conn, name, size, purpose, source, hasher, phase⟩ := c
  cases phase with
  | starting => exact ⟨rfl, (fun h => by cases h), fun _ => by cases source <;> rfl⟩
  | sending | ending => exact ⟨rfl, fun _ => rfl, (fun h => by cases h)⟩
  | opening | reading | awaiting | returned => cases h

theorem queued_isStarting (h : c.frame sha256 id = some m) : c.queued.isStarting = false := by
  rcases frame_cases h with ⟨-, -, hq⟩ | ⟨data, -, -, -, -, hq⟩ | ⟨sha, -, -, hq⟩
  · exact hq
  · exact hq
  · exact hq

/-- What the steps between two frames have in common: they are taken while streaming, keep what the call is about, and
never return `Ok`. -/
structure ReadsOn (c c' : SendCall) : Prop where
  streaming : c.isStreaming = true
  notStarting : c.isStarting = false
  started : c'.isStarting = false
  conn : c'.conn = c.conn
  name : c'.name = c.name
  purpose : c'.purpose = c.purpose
  file : ∀ path, c'.source = .file path → c.source = .file path
  notOk : ∀ detail, c'.phase ≠ .returned (.ok detail)

/-- A step that changes the phase, and what was hashed, of a call that was opening or reading its source. -/
private theorem ReadsOn.phase (hphase : c.phase = .opening ∨ c.phase = .reading) {phase : SendPhase} {hasher : Bytes}
    {source : Source} (hs : ∀ path, source = .file path → c.source = .file path) (hst : phase ≠ .starting)
    (hok : ∀ detail, phase ≠ .returned (.ok detail)) :
    c.ReadsOn { c with phase := phase, hasher := hasher, source := source } := by
  refine ⟨?_, ?_, ?_, rfl, rfl, rfl, hs, hok⟩
  · rcases hphase with hphase | hphase <;> simp [isStreaming, hphase]
  · rcases hphase with hphase | hphase <;> simp [isStarting, hphase]
  · cases phase with
    | starting => exact absurd rfl hst
    | _ => rfl

theorem opened_cases {err : Option String} (h : c.opened err = some c') :
    c.ReadsOn c' ∧ (err = none → c'.isStreaming = true) := by
  unfold opened at h
  split at h
  · rename_i hphase
    split at h
    · cases h
      exact ⟨.phase (Or.inl hphase) (fun _ hs => hs) (fun h => by cases h) (fun _ h => by cases h), fun _ => rfl⟩
    · cases h
      exact ⟨.phase (Or.inl hphase) (fun _ hs => hs) (fun h => by cases h) (fun _ h => by cases h),
        (fun h => by cases h)⟩
  · cases h

theorem read_cases {res : Except String Bytes} (h : c.read res = some c') :
    c.ReadsOn c' ∧ (c'.isStreaming = true ∨ ∃ err, res = .error err) := by
  unfold read at h
  split at h
  · rename_i hphase hsource
    split at h
    · cases h
      exact ⟨.phase (Or.inr hphase) (fun _ hs => hs) (fun h => by cases h) (fun _ h => by cases h), Or.inr ⟨_, rfl⟩⟩
    · split at h
      · cases h
        exact ⟨.phase (Or.inr hphase) (fun _ hs => hs) (fun h => by cases h) (fun _ h => by cases h), Or.inl rfl⟩
      · split at h
        · cases h
          exact ⟨.phase (Or.inr hphase) (fun _ hs => hs) (fun h => by cases h) (fun _ h => by cases h), Or.inl rfl⟩
        · cases h
  · cases h

theorem nextChunk_cases (h : c.nextChunk = some c') : c.ReadsOn c' ∧ c'.isStreaming = true := by
  unfold nextChunk at h
  split at h
  · rename_i hphase _
    split at h
    · cases h
      exact ⟨.phase (Or.inr hphase) (fun _ hs => hs) (fun h => by cases h) (fun _ h => by cases h), rfl⟩
    · cases h
      exact ⟨.phase (Or.inr hphase) (fun _ h => by cases h) (fun h => by cases h) (fun _ h => by cases h), rfl⟩
  · cases h

theorem answered_cases {answer : Answer} (h : c.answered answer = some c') :
    c.isStreaming = false ∧ c.isStarting = false ∧ c'.isStarting = false := by
  unfold answered at h
  split at h
  · rename_i hphase
    have hphase : c.isStreaming = false ∧ c.isStarting = false := by simp [isStreaming, isStarting, hphase]
    split at h <;> (cases h; exact ⟨hphase.1, hphase.2, rfl⟩)
  · cases h

theorem isStreaming_of_isStarting (h : c.isStarting = true) : c.isStreaming = false := by
  unfold isStarting at h
  split at h
  · rename_i hphase
    simp [isStreaming, hphase]
  · cases h

theorem isStreaming_of_hasReturned (h : c.hasReturned = true) : c.isStreaming = false := by
  unfold hasReturned at h
  split at h
  · rename_i hphase
    simp [isStreaming, hphase]
  · cases h

/-- A call takes a step that queues no frame. -/
inductive Quiet (sha256 : Bytes → Digest) (c : SendCall) : SendCall → Prop
  | closed {id : Nat} {m : Message} : c.frame sha256 id = some m → Quiet sha256 c c.closed
  | opened {err : Option String} {c' : SendCall} : c.opened err = some c' → Quiet sha256 c c'
  | read {res : Except String Bytes} {c' : SendCall} : c.read res = some c' → Quiet sha256 c c'
  | nextChunk {c' : SendCall} : c.nextChunk = some c' → Quiet sha256 c c'
  | answered {answer : Answer} {c' : SendCall} : c.answered answer = some c' → Quiet sha256 c c'

/-- A chunk about to be queued has at most `BLOB_CHUNK` bytes. -/
theorem Quiet.chunk (h : c.Quiet sha256 c') : ∀ data, c'.phase = .sending data → data.length ≤ blobChunk := by
  intro data hd
  cases h with
  | closed h =>
    unfold SendCall.closed at hd
    split at hd <;> cases hd
  | opened h =>
    unfold SendCall.opened at h
    repeat' split at h
    all_goals cases h
    all_goals cases hd
  | read h =>
    unfold SendCall.read at h
    repeat' split at h
    all_goals cases h
    all_goals cases hd
    assumption
  | nextChunk h =>
    unfold SendCall.nextChunk at h
    repeat' split at h
    all_goals cases h
    all_goals cases hd
    exact List.length_take_le _ _
  | answered h =>
    unfold SendCall.answered at h
    repeat' split at h
    all_goals cases h
    all_goals cases hd

/-- A step without a frame is taken by a call that has not returned; it neither starts one nor ends its stream in good
order, and only a stream goes on as a stream. -/
theorem Quiet.keeps (h : c.Quiet sha256 c') : c.hasReturned = false ∧ c'.isStarting = false ∧ c'.phase ≠ .awaiting ∧
    (c'.isStreaming = true → c.isStreaming = true) := by
  obtain ⟨conn, name, size, purpose, source, hasher, phase⟩ := c
  cases h with
  | closed h =>
    cases phase with
    | starting | sending | ending => exact ⟨rfl, rfl, (fun h => by cases h), (fun h => by cases h)⟩
    | opening | reading | awaiting | returned => cases h
  | opened h =>
    unfold SendCall.opened at h
    repeat' split at h
    all_goals cases h
    all_goals (cases ‹phase = SendPhase.opening›; exact ⟨rfl, rfl, (fun h => by cases h), fun _ => rfl⟩)
  | read h =>
    unfold SendCall.read at h
    repeat' split at h
    all_goals cases h
    all_goals (cases ‹phase = SendPhase.reading›; exact ⟨rfl, rfl, (fun h => by cases h), fun _ => rfl⟩)
  | nextChunk h =>
    unfold SendCall.nextChunk at h
    repeat' split at h
    all_goals cases h
    all_goals (cases ‹phase = SendPhase.reading›; exact ⟨rfl, rfl, (fun h => by cases h), fun _ => rfl⟩)
  | answered h =>
    unfold SendCall.answered at h
    repeat' split at h
    all_goals cases h
    all_goals (cases ‹phase = SendPhase.awaiting›; exact ⟨rfl, rfl, (fun h => by cases h), (fun h => by cases h)⟩)

/-- After a frame was queued the call does not wait to queue a chunk. -/
theorem queued_phase_ne_sending (h : c.frame sha256 id = some m) (data : Bytes) : c.queued.phase ≠ .sending data := by
  obtain ⟨conn, name, size, purpose, source, hasher, phase⟩ := c
  cases phase with
  | starting => cases source <;> exact fun h => by cases h
  | sending | ending => exact fun h => by cases h
  | opening | reading | awaiting | returned => cases h

@[simp] theorem queued_conn : c.queued.conn = c.conn := by
  unfold queued
  split <;> rfl

@[simp] theorem closed_isStarting : c.closed.isStarting = false := by
  unfold closed
  split <;> rfl

end SendCall

/-- A call of `send_one` begins with its `BlobStart`. -/
theorem sendOne_isStarting {conn : Option Nat} {path : PathBuf} {stat : Except String (Bool × Nat)} {c : SendCall}
    (h : sendOne conn path stat = .ok c) : c.isStarting = true := by
  unfold sendOne at h
  repeat' split at h
  all_goals cases h
  rfl

end Qdrop
