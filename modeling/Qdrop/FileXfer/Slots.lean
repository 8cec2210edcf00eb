import Qdrop.FileXfer.Receive
import Qdrop.FileXfer.Send
import Qdrop.Lib.Run

/-!
# Senders and one receiver: are receive slots reclaimed?

Any number of devices send blobs to one receiver over connections that come and go.  A `BlobStart` opens an entry of
`incoming`, and only a later frame of the same transfer closes it; a call that fails between `BlobStart` and
`BlobEnd`, or a connection that drops there, sends no such frame, and the receiver does not look at connections
(`failed_open_keeps_slot`).  `slots_reclaimed` shows that entries and temp files are reclaimed in every run in which
no transfer is cut off like that.
-/

namespace Qdrop

open Lib

/-- A connection to the receiver, and the frames that were queued on it and have not reached the receiver's hub. -/
structure Link where
  conn : Nat
  queue : List Message
deriving DecidableEq, Repr

structure Net where
  /-- `next_id` of each sender. -/
  nextId : DeviceId → Nat
  /-- The connection in the bus of each sender. -/
  link : AList (fun _ : DeviceId => Link)
  nextConn : Nat
  /-- The calls of all senders, under the sender and the id they took. -/
  calls : AList (fun _ : XferKey => SendCall)
  /-- Frames the receiver's router has not handled yet. -/
  hub : List (DeviceId × Message)
  rx : Rx
  /-- What the receiver's handlers have done. -/
  effects : List Effect

def Net.start (fs : FileSys PathBuf) : Net := ⟨fun _ => 1, ∅, 0, ∅, [], ⟨∅, fs⟩, []⟩

inductive NetEvent where
  | connect (p : DeviceId)
  /-- The connection ends; frames that have not reached the hub are lost. -/
  | drop (p : DeviceId)
  | sendOne (p : DeviceId) (path : PathBuf) (stat : Except String (Bool × Nat))
  | sendClipImage (p : DeviceId) (png : Bytes)
  /-- The call's `sender.send(..)` returns. -/
  | queue (k : XferKey)
  | openFile (k : XferKey) (err : Option String)
  | read (k : XferKey) (res : Except String Bytes)
  | nextChunk (k : XferKey)
  | answer (k : XferKey) (answer : SendCall.Answer)
  /-- A frame reaches the receiver's hub. -/
  | deliver (p : DeviceId)
  /-- The receiver's router handles the next frame. -/
  | process (io : Io) (registry : PeersFile)

/-- A call takes the next id of its sender. -/
def Net.begin (s : Net) (p : DeviceId) (c : SendCall) : Net :=
  { s with calls := s.calls.insert (p, s.nextId p) c, nextId := Function.update s.nextId p (s.nextId p + 1) }

/-- The call queues its frame, or finds its connection gone. -/
def Net.queue (sha256 : Bytes → Digest) (s : Net) (k : XferKey) : Option Net :=
  match s.calls.lookup k with
  | none => none
  | some c =>
    match c.frame sha256 k.2, s.link.lookup k.1 with
    | none, _ => none
    | some m, some l =>
      if l.conn = c.conn then
        some { s with
          link := s.link.insert k.1 { l with queue := l.queue ++ [m] }
          calls := s.calls.insert k c.queued }
      else some { s with calls := s.calls.insert k c.closed }
    | some _, none => some { s with calls := s.calls.insert k c.closed }

/-- A step of a call that queues nothing. -/
def Net.update (s : Net) (k : XferKey) (f : SendCall → Option SendCall) : Option Net :=
  match s.calls.lookup k with
  | none => none
  | some c => (f c).map fun c => { s with calls := s.calls.insert k c }

/-- One step of a call, of a connection or of the receiver. -/
def netStep (sha256 : Bytes → Digest) (cfg : XferConfig) (s : Net) : NetEvent → Option Net
  | .connect p =>
    match s.link.lookup p with
    | some _ => none
    | none => some { s with link := s.link.insert p ⟨s.nextConn, []⟩, nextConn := s.nextConn + 1 }
  | .drop p =>
    match s.link.lookup p with
    | some _ => some { s with link := s.link.erase p }
    | none => none
  | .sendOne p path stat =>
    match sendOne ((s.link.lookup p).map Link.conn) path stat with
    | .error _ => some s
    | .ok c => some (s.begin p c)
  | .sendClipImage p png =>
    match s.link.lookup p with
    | none => some s
    | some l => some (s.begin p (Qdrop.sendClipImage l.conn png))
  | .queue k => s.queue sha256 k
  | .openFile k err => s.update k (·.opened err)
  | .read k res => s.update k (·.read res)
  | .nextChunk k => s.update k SendCall.nextChunk
  | .answer k answer => s.update k (·.answered answer)
  | .deliver p =>
    match s.link.lookup p with
    | some ⟨conn, m :: rest⟩ =>
      some { s with link := s.link.insert p ⟨conn, rest⟩, hub := s.hub ++ [(p, m)] }
    | _ => none
  | .process io registry =>
    match s.hub with
    | [] => none
    | (p, m) :: rest =>
      let out := handleBlob sha256 cfg registry io s.rx p m
      some { s with hub := rest, rx := out.1, effects := s.effects ++ out.2 }

/-! ### Quiescence and the condition -/

/-- All calls have returned and all queued frames have been processed. -/
def Quiescent (s : Net) : Prop :=
  (∀ k c, s.calls.lookup k = some c → c.hasReturned = true) ∧
    (∀ p l, s.link.lookup p = some l → l.queue = []) ∧ s.hub = []

/-- The frames of `p` among those in the hub. -/
def framesOf (p : DeviceId) (hub : List (DeviceId × Message)) : List Message :=
  (hub.filter (fun f => f.1 == p)).map Prod.snd

/-- The frames queued on a connection. -/
def queueOf (link : Option Link) : List Message := (link.map Link.queue).getD []

/-- The frames of `p` that the receiver will still handle, in order, if the connection stays. -/
def inFlight (s : Net) (p : DeviceId) : List Message := framesOf p s.hub ++ queueOf (s.link.lookup p)

def isEnd (id : Nat) : Message → Bool
  | .blobEnd id' _ => id' == id
  | _ => false

/-- The `BlobEnd` of transfer `id` is among the frames. -/
def hasEnd (id : Nat) (frames : List Message) : Bool := frames.any (isEnd id)

/-- The call is still streaming, and its connection is up. -/
def streaming (s : Net) (k : XferKey) : Bool :=
  (s.calls.lookup k).any fun c => c.isStreaming && (s.link.lookup k.1).map Link.conn == some c.conn

/-- The end of the transfer is still to come. -/
def toCome (s : Net) (k : XferKey) : Bool := hasEnd k.2 (inFlight s k.1) || streaming s k

/-- No transfer is cut off after the receiver has opened it: a file cannot be opened or read, and a connection drops,
only when the receiver has no entry for the transfer (or its `BlobEnd` is in the hub), a `BlobStart` is processed only
while the end of its transfer is still to come, and removing a temp file does not fail. -/
def uncut (s : Net) : NetEvent → Bool
  | .openFile k (some _) | .read k (.error _) => (s.rx.incoming.lookup k).isNone
  | .drop p => s.rx.incoming.keys.all fun k => k.1 != p || hasEnd k.2 (framesOf p s.hub)
  | .process io _ =>
    !io.failRemove && match s.hub with
      | (p, .blobStart id _ _ _) :: _ => toCome s (p, id)
      | _ => true
  | _ => true

/-! ### Temp files belong to entries -/

/-- Every temp file left belongs to an entry, and is on the disk. -/
structure Tracked (rx : Rx) (parts : List PathBuf) : Prop where
  owned : ∀ q ∈ parts, ∃ k inc dir file, rx.incoming.lookup k = some inc ∧ inc.sink = .file q dir file
  onDisk : ∀ q ∈ parts, ∃ i, rx.fs.node q = some (.file i)

section Tracked

variable {rx : Rx} {parts : List PathBuf} {k : XferKey} {inc : Incoming} {fs : FileSys PathBuf}

/-- A temp file that is not that of the entry at `k` belongs to another entry. -/
private theorem Tracked.elsewhere (h : Tracked rx parts) (k : XferKey) {q : PathBuf} (hq : q ∈ parts)
    (hk : ∀ inc, rx.incoming.lookup k = some inc → ∀ dir file, inc.sink ≠ .file q dir file) :
    ∃ k' inc' dir file, k' ≠ k ∧ rx.incoming.lookup k' = some inc' ∧ inc'.sink = .file q dir file := by
  obtain ⟨k', inc', dir, file, hl, hs⟩ := h.owned q hq
  refine ⟨k', inc', dir, file, ?_, hl, hs⟩
  rintro rfl
  exact hk inc' hl dir file hs

private theorem Tracked.owned_erase (h : Tracked rx parts) {q : PathBuf} (hq : q ∈ parts)
    (hk : ∀ inc, rx.incoming.lookup k = some inc → ∀ dir file, inc.sink ≠ .file q dir file) :
    ∃ k' inc' dir file, (rx.incoming.erase k).lookup k' = some inc' ∧ inc'.sink = .file q dir file := by
  obtain ⟨k', inc', dir, file, hkk, hl, hs⟩ := h.elsewhere k hq hk
  exact ⟨k', inc', dir, file, by rw [AList.lookup_erase_ne hkk]; exact hl, hs⟩

private theorem Tracked.owned_insert (h : Tracked rx parts) {q : PathBuf} (hq : q ∈ parts)
    (hk : ∀ inc, rx.incoming.lookup k = some inc → ∀ dir file, inc.sink ≠ .file q dir file) :
    ∃ k' inc' dir file, (rx.incoming.insert k inc).lookup k' = some inc' ∧ inc'.sink = .file q dir file := by
  obtain ⟨k', inc', dir, file, hkk, hl, hs⟩ := h.elsewhere k hq hk
  exact ⟨k', inc', dir, file, by rw [AList.lookup_insert_ne hkk]; exact hl, hs⟩

private theorem sink_ne_of_file {tmp dir : PathBuf} {file : OpenFile} (hl : rx.incoming.lookup k = some inc)
    (hs : inc.sink = .file tmp dir file) {q : PathBuf} (hne : q ≠ tmp) :
    ∀ inc, rx.incoming.lookup k = some inc → ∀ dir file, inc.sink ≠ .file q dir file := by
  intro inc' hl' dir' file' hs'
  rw [hl] at hl'
  cases hl'
  rw [hs] at hs'
  cases hs'
  exact hne rfl

private theorem sink_ne_of_memory {buf : Bytes} (hl : rx.incoming.lookup k = some inc) (hs : inc.sink = .memory buf)
    (q : PathBuf) : ∀ inc, rx.incoming.lookup k = some inc → ∀ dir file, inc.sink ≠ .file q dir file := by
  intro inc' hl' dir' file' hs'
  rw [hl] at hl'
  cases hl'
  rw [hs] at hs'
  cases hs'

/-- An entry goes, and its temp file is removed. -/
private theorem Tracked.release (h : Tracked rx parts) {io : Io} {tmp dir : PathBuf} {file : OpenFile}
    (hio : io.failRemove = false) (hl : rx.incoming.lookup k = some inc) (hs : inc.sink = .file tmp dir file)
    (hnode : fs.node = rx.fs.node) :
    Tracked ⟨rx.incoming.erase k, (tryRemove io fs tmp).1⟩ ((tryRemove io fs tmp).2.foldl partsAfter parts) := by
  rcases tryRemove_cases io fs tmp with ⟨fs', hrm, heq⟩ | ⟨hfail, heq⟩
  · rw [heq]
    obtain ⟨-, hother, -⟩ := FileSys.removeFile_spec hrm
    constructor
    · intro q hq
      obtain ⟨hq, hne⟩ := List.mem_filter.1 hq
      exact h.owned_erase hq (sink_ne_of_file hl hs (by simpa using hne))
    · intro q hq
      obtain ⟨hq, hne⟩ := List.mem_filter.1 hq
      obtain ⟨i, hi⟩ := h.onDisk q hq
      exact ⟨i, by rw [← hi, ← hnode]; exact hother q (by simpa using hne)⟩
  · rw [heq]
    -- removing fails only where there is no file, and then the temp file is gone already
    have hgone : tmp ∉ parts := by
      intro hmem
      obtain ⟨i, hi⟩ := h.onDisk tmp hmem
      rcases hfail with hfail | hnone
      · rw [hio] at hfail
        cases hfail
      · exact FileSys.removeFile_none hnone i (by rw [hnode]; exact hi)
    constructor
    · intro q hq
      exact h.owned_erase hq (sink_ne_of_file hl hs (fun he => hgone (by rw [← he]; exact hq)))
    · intro q hq
      obtain ⟨i, hi⟩ := h.onDisk q hq
      exact ⟨i, by rw [← hi, ← hnode]⟩

/-- An entry in memory goes. -/
private theorem Tracked.releaseMemory (h : Tracked rx parts) {buf : Bytes} (hl : rx.incoming.lookup k = some inc)
    (hs : inc.sink = .memory buf) : Tracked ⟨rx.incoming.erase k, rx.fs⟩ parts :=
  ⟨fun q hq => h.owned_erase hq (sink_ne_of_memory hl hs q), h.onDisk⟩

private theorem onDisk_createDirAll {q d : PathBuf} {i : Nat} (hmk : rx.fs.createDirAll d = some fs)
    (hi : rx.fs.node q = some (.file i)) : fs.node q = some (.file i) := by
  obtain ⟨-, hother, -, hdir⟩ := FileSys.createDirAll_spec hmk
  have hne : q ≠ d := by
    rintro rfl
    exact hdir i hi
  rw [hother q hne, hi]

private theorem tracked_onStart (h : Tracked rx parts) (cfg : XferConfig) (registry : PeersFile) (io : Io)
    (p : DeviceId) (id : Nat) (name : String) (size : Nat) (purpose : BlobPurpose)
    (hl : rx.incoming.lookup (p, id) = none) :
    Tracked (onStart cfg registry io rx p id name size purpose).1
      ((onStart cfg registry io rx p id name size purpose).2.foldl partsAfter parts) := by
  have hfree : ∀ q inc, rx.incoming.lookup (p, id) = some inc → ∀ dir file, inc.sink ≠ .file q dir file := by
    intro q inc hl'
    rw [hl] at hl'
    cases hl'
  rcases onStart_cases cfg registry io rx p id name size purpose with
    ⟨detail, heq⟩ | ⟨fs, detail, hmk, heq⟩ | ⟨-, -, -, heq⟩ | ⟨safe, fs, fs', handle, -, -, -, hmk, hcr, heq⟩
  · rw [heq]
    exact h
  · rw [heq]
    refine ⟨h.owned, fun q hq => ?_⟩
    obtain ⟨i, hi⟩ := h.onDisk q hq
    exact ⟨i, onDisk_createDirAll hmk hi⟩
  · rw [heq]
    exact ⟨fun q hq => h.owned_insert hq (hfree q), h.onDisk⟩
  · rw [heq]
    obtain ⟨hnew, -, -, hother, -⟩ := FileSys.create_spec hcr
    have hparts : ∀ q, q ∈ partsAfter parts (.create (tmpPathFor (finalDirFor cfg registry p) safe id)) →
        q = tmpPathFor (finalDirFor cfg registry p) safe id ∨ q ∈ parts := by
      intro q hq
      simp only [partsAfter] at hq
      split at hq
      · exact Or.inr hq
      · exact List.mem_cons.1 hq
    constructor
    · intro q hq
      rcases hparts q hq with rfl | hq
      · exact ⟨(p, id), _, _, _, AList.lookup_insert _, rfl⟩
      · exact h.owned_insert hq (hfree q)
    · intro q hq
      by_cases hqt : q = tmpPathFor (finalDirFor cfg registry p) safe id
      · exact ⟨_, by rw [hqt]; exact hnew⟩
      · obtain ⟨i, hi⟩ := h.onDisk q ((hparts q hq).resolve_left hqt)
        exact ⟨i, by rw [(hother q hqt).1]; exact onDisk_createDirAll hmk hi⟩

private theorem tracked_onChunk (h : Tracked rx parts) {io : Io} (hio : io.failRemove = false) (p : DeviceId)
    (id : Nat) (data : Bytes) :
    Tracked (onChunk io rx p id data).1 ((onChunk io rx p id data).2.foldl partsAfter parts) := by
  rcases onChunk_cases io rx p id data with
    ⟨-, heq⟩ | ⟨inc, tmp, dir, file, fs, file', hl, hs, hw, heq⟩ | ⟨inc, tmp, dir, file, fs, file', hl, hs, hw, heq⟩ |
    ⟨inc, buf, hl, hs, -, heq⟩ | ⟨inc, buf, hl, hs, heq⟩
  · rw [heq]
    exact h
  · rw [heq]
    constructor
    · intro q hq
      by_cases hqt : q = tmp
      · subst hqt
        exact ⟨(p, id), _, _, _, AList.lookup_insert _, rfl⟩
      · exact h.owned_insert hq (sink_ne_of_file hl hs hqt)
    · intro q hq
      rw [(writeAll_frame hw).1]
      exact h.onDisk q hq
  · rw [heq]
    simp only [List.cons_append, List.foldl_cons, List.foldl_append, List.foldl_nil, reject, partsAfter]
    exact h.release hio hl hs (writeAll_frame hw).1
  · rw [heq]
    exact ⟨fun q hq => h.owned_insert hq (sink_ne_of_memory hl hs q), h.onDisk⟩
  · rw [heq]
    exact h.releaseMemory hl hs

private theorem tracked_onEnd (h : Tracked rx parts) (sha256 : Bytes → Digest) (cfg : XferConfig)
    (registry : PeersFile) {io : Io} (hio : io.failRemove = false) (p : DeviceId) (id : Nat) (sha : Digest) :
    Tracked (onEnd sha256 cfg registry io rx p id sha).1
      ((onEnd sha256 cfg registry io rx p id sha).2.foldl partsAfter parts) := by
  rcases onEnd_cases sha256 cfg registry io rx p id sha with
    ⟨-, heq⟩ | ⟨inc, detail, hl, heq⟩ | ⟨inc, bytes, hl, -, hs, heq⟩ |
    ⟨inc, tmp, dir, file, fs, shown, hl, -, hs, hren, heq⟩ | ⟨inc, tmp, dir, file, detail, hl, hs, heq⟩
  · rw [heq]
    exact h
  · rw [heq]
    simp only [List.foldl_append, List.foldl_cons, List.foldl_nil, reject, partsAfter]
    cases hs : inc.sink with
    | file tmp dir file => exact h.release hio hl hs rfl
    | memory buf => exact h.releaseMemory hl hs
  · rw [heq]
    have hparts : ((if cfg.clipSink then [Effect.clip bytes] else []) ++
        [Effect.send p (.blobAck id true "clipboard-image")]).foldl partsAfter parts = parts := by
      split <;> rfl
    rw [hparts]
    exact h.releaseMemory hl hs
  · rw [heq]
    obtain ⟨⟨i, hi, hdest⟩, -, hother, -⟩ := FileSys.rename_spec hren
    constructor
    · intro q hq
      obtain ⟨hq, hne⟩ := List.mem_filter.1 hq
      exact h.owned_erase hq (sink_ne_of_file hl hs (by simpa using hne))
    · intro q hq
      obtain ⟨hq, hne⟩ := List.mem_filter.1 hq
      by_cases hqd : q = uniqueDest rx.fs dir inc.name
      · exact ⟨i, by rw [hqd]; exact hdest⟩
      · obtain ⟨j, hj⟩ := h.onDisk q hq
        exact ⟨j, by rw [← hj]; exact hother q (by simpa using hne) hqd⟩
  · rw [heq]
    simp only [List.foldl_append, List.foldl_cons, List.foldl_nil, reject, partsAfter]
    exact h.release hio hl hs rfl

end Tracked

/-! ### Entries have an end to come -/

def startId : Message → Option Nat
  | .blobStart id _ _ _ => some id
  | _ => none

/-- The transfers whose `BlobStart` is among the frames. -/
def startsOf (frames : List Message) : List Nat := frames.filterMap startId

/-- The transfer's `BlobStart` has been queued, or never will be. -/
def Begun (s : Net) (k : XferKey) : Prop := ∃ c, s.calls.lookup k = some c ∧ c.isStarting = false

structure Sound (s : Net) : Prop where
  toCome : ∀ k, (s.rx.incoming.lookup k).isSome = true → toCome s k = true
  begun : ∀ k, (s.rx.incoming.lookup k).isSome = true → Begun s k
  starts : ∀ p, ∀ id ∈ startsOf (inFlight s p), Begun s (p, id) ∧ s.rx.incoming.lookup (p, id) = none
  once : ∀ p, (startsOf (inFlight s p)).Nodup
  ids : ∀ k c, s.calls.lookup k = some c → k.2 < s.nextId k.1
  tracked : Tracked s.rx (leftParts s.effects)

theorem sound_start (fs : FileSys PathBuf) : Sound (Net.start fs) where
  toCome k h := by cases h
  begun k h := by cases h
  starts p id h := by cases h
  once p := List.nodup_nil
  ids k c h := by cases h
  tracked := ⟨fun q hq => (by cases hq), fun q hq => (by cases hq)⟩

section Senders

variable {s s' : Net} {k : XferKey} {c c' : SendCall} {p : DeviceId}

/-- A step that does not touch the receiver. -/
private theorem Sound.senders (h : Sound s) (hrx : s'.rx = s.rx) (heffects : s'.effects = s.effects)
    (hcome : ∀ k, (s.rx.incoming.lookup k).isSome = true → Qdrop.toCome s k = true → Qdrop.toCome s' k = true)
    (hbegun : ∀ k, Begun s k → Begun s' k)
    (hstarts : ∀ p, ∀ id ∈ startsOf (inFlight s' p), id ∈ startsOf (inFlight s p) ∨
      Begun s' (p, id) ∧ s.rx.incoming.lookup (p, id) = none)
    (honce : ∀ p, (startsOf (inFlight s' p)).Nodup)
    (hids : ∀ k c, s'.calls.lookup k = some c → k.2 < s'.nextId k.1) : Sound s' where
  toCome k hk := by
    rw [hrx] at hk
    exact hcome k hk (h.toCome k hk)
  begun k hk := by
    rw [hrx] at hk
    exact hbegun k (h.begun k hk)
  starts p id hid := by
    rw [hrx]
    rcases hstarts p id hid with hid | hnew
    · exact ⟨hbegun _ (h.starts p id hid).1, (h.starts p id hid).2⟩
    · exact hnew
  once := honce
  ids := hids
  tracked := by
    rw [hrx, heffects]
    exact h.tracked

/-- The calls after one of them has moved on. -/
private theorem begun_insert (hst : c'.isStarting = false) (hcalls : s'.calls = s.calls.insert k c') (k' : XferKey)
    (hb : Begun s k') : Begun s' k' := by
  unfold Begun
  rw [hcalls]
  by_cases hkk : k' = k
  · subst hkk
    exact ⟨c', AList.lookup_insert _, hst⟩
  · rw [AList.lookup_insert_ne hkk]
    exact hb

private theorem Sound.ids_insert (h : Sound s) (hl : s.calls.lookup k = some c) (k' : XferKey) (c₁ : SendCall)
    (hl' : (s.calls.insert k c').lookup k' = some c₁) : k'.2 < s.nextId k'.1 := by
  by_cases hkk : k' = k
  · subst hkk
    exact h.ids k' c hl
  · rw [AList.lookup_insert_ne hkk] at hl'
    exact h.ids k' c₁ hl'

private theorem streaming_insert {k' : XferKey}
    (hlink : (s'.link.lookup k'.1).map Link.conn = (s.link.lookup k'.1).map Link.conn)
    (hcalls : s'.calls = s.calls.insert k c') (hl : s.calls.lookup k = some c)
    (hk : k' = k → c'.isStreaming = true ∧ c'.conn = c.conn) (h : streaming s k' = true) :
    streaming s' k' = true := by
  unfold streaming at h ⊢
  rw [hcalls, hlink]
  by_cases hkk : k' = k
  · subst hkk
    obtain ⟨hstr, hconn⟩ := hk rfl
    rw [hl, Option.any_some, Bool.and_eq_true] at h
    rw [AList.lookup_insert, Option.any_some, hstr, hconn]
    exact h.2
  · rw [AList.lookup_insert_ne hkk]
    exact h

/-- One call moves on, without queueing a frame. -/
private theorem Sound.setCall (h : Sound s) (hl : s.calls.lookup k = some c) (hst : c'.isStarting = false)
    (hcome : (s.rx.incoming.lookup k).isSome = true → streaming s k = true →
      c'.isStreaming = true ∧ c'.conn = c.conn) :
    Sound { s with calls := s.calls.insert k c' } := by
  refine h.senders rfl rfl (fun k' hk' hc => ?_) (begun_insert hst rfl) (fun q id hid => Or.inl hid) h.once
    (h.ids_insert hl)
  rcases Bool.or_eq_true_iff.1 hc with hend | hstr
  · exact Bool.or_eq_true_iff.2 (Or.inl hend)
  · refine Bool.or_eq_true_iff.2 (Or.inr (streaming_insert (s := s) rfl rfl hl (fun hkk => ?_) hstr))
    subst hkk
    exact hcome hk' hstr

/-- A new call takes an id that no transfer has. -/
private theorem sound_begin (h : Sound s) (p : DeviceId) (c : SendCall) : Sound (s.begin p c) := by
  have hfresh : ∀ k c₁, s.calls.lookup k = some c₁ → k ≠ (p, s.nextId p) := by
    rintro k c₁ hl rfl
    exact absurd (h.ids _ c₁ hl) (Nat.lt_irrefl _)
  refine h.senders rfl rfl (fun k hk hc => ?_) (fun k hb => ?_) (fun q id hid => Or.inl hid) h.once
    (fun k c₁ hl => ?_)
  · obtain ⟨c₁, hl, -⟩ := h.begun k hk
    unfold Qdrop.toCome at hc ⊢
    unfold streaming at hc ⊢
    rw [Net.begin]
    dsimp only
    rw [AList.lookup_insert_ne (hfresh k c₁ hl)]
    exact hc
  · obtain ⟨c₁, hl, hst⟩ := hb
    exact ⟨c₁, by rw [Net.begin]; dsimp only; rw [AList.lookup_insert_ne (hfresh k c₁ hl)]; exact hl, hst⟩
  · rw [Net.begin] at hl ⊢
    dsimp only at hl ⊢
    have hle : s.nextId k.1 ≤ Function.update s.nextId p (s.nextId p + 1) k.1 := by
      by_cases hkp : k.1 = p
      · rw [hkp, Function.update_self]
        omega
      · rw [Function.update_of_ne hkp]
    by_cases hkk : k = (p, s.nextId p)
    · subst hkk
      rw [Function.update_self]
      omega
    · rw [AList.lookup_insert_ne hkk] at hl
      exact lt_of_lt_of_le (h.ids k c₁ hl) hle

private theorem inFlight_append (s : Net) (p q : DeviceId) {l : Link} (hlink : s.link.lookup p = some l) (m : Message)
    (calls : AList (fun _ : XferKey => SendCall)) :
    inFlight { s with link := s.link.insert p { l with queue := l.queue ++ [m] }, calls := calls } q =
      inFlight s q ++ if q = p then [m] else [] := by
  unfold inFlight
  dsimp only
  split
  · rename_i hqp
    rw [hqp, AList.lookup_insert, hlink, List.append_assoc]
    rfl
  · rename_i hqp
    rw [AList.lookup_insert_ne hqp, List.append_nil]

private theorem hasEnd_append (id : Nat) (xs ys : List Message) :
    hasEnd id (xs ++ ys) = (hasEnd id xs || hasEnd id ys) := List.any_append

private theorem startsOf_append (xs ys : List Message) : startsOf (xs ++ ys) = startsOf xs ++ startsOf ys :=
  List.filterMap_append

section Queue

variable {sha256 : Bytes → Digest} {l : Link} {m : Message}

private theorem conns_append (hlink : s.link.lookup p = some l) (q : DeviceId) :
    ((s.link.insert p { l with queue := l.queue ++ [m] }).lookup q).map Link.conn =
      (s.link.lookup q).map Link.conn := by
  by_cases hq : q = p
  · rw [hq, AList.lookup_insert, hlink]
    rfl
  · rw [AList.lookup_insert_ne hq]

/-- Only a call that has not begun queues a `BlobStart`, with its own id. -/
private theorem startsOf_frame {id : Nat} (hframe : c.frame sha256 k.2 = some m) (hid : id ∈ startsOf [m]) :
    id = k.2 ∧ c.isStarting = true := by
  rcases SendCall.frame_cases hframe with ⟨hst, rfl, -⟩ | ⟨data, -, rfl, -⟩ | ⟨sha, -, rfl, -⟩
  · exact ⟨by simpa [startsOf, startId] using hid, hst⟩
  · cases hid
  · cases hid

private theorem startsOf_single_nodup (m : Message) : (startsOf [m]).Nodup := by
  unfold startsOf
  cases hid : startId m <;> simp [hid]

private theorem not_begun_of_isStarting (hl : s.calls.lookup k = some c) (hst : c.isStarting = true) :
    ¬ Begun s k := by
  rintro ⟨c₁, hl₁, hst₁⟩
  rw [hl] at hl₁
  cases hl₁
  rw [hst] at hst₁
  cases hst₁

/-- A frame other than `BlobEnd` leaves its call streaming; `BlobEnd` is then on its way. -/
private theorem streaming_frame {k' : XferKey} (hl : s.calls.lookup k = some c)
    (hframe : c.frame sha256 k.2 = some m) (hcalls : s'.calls = s.calls.insert k c.queued)
    (hconns : ∀ q, (s'.link.lookup q).map Link.conn = (s.link.lookup q).map Link.conn)
    (hstr : streaming s k' = true) :
    hasEnd k'.2 (if k'.1 = k.1 then [m] else []) = true ∨ streaming s' k' = true := by
  by_cases hkk : k' = k
  · subst hkk
    rcases SendCall.frame_cases hframe with ⟨hst, rfl, -⟩ | ⟨data, -, rfl, -, hstr', -⟩ | ⟨sha, -, rfl, -⟩
    · exact absurd hstr (by simp [streaming, hl, SendCall.isStreaming_of_isStarting hst])
    · exact Or.inr (streaming_insert (hconns _) hcalls hl (fun _ => ⟨hstr', SendCall.queued_conn⟩) hstr)
    · exact Or.inl (by simp [hasEnd, isEnd])
  · exact Or.inr (streaming_insert (hconns _) hcalls hl (fun he => absurd he hkk) hstr)

/-- The call's connection takes its next frame. -/
private theorem Sound.append (h : Sound s) (hl : s.calls.lookup k = some c) (hframe : c.frame sha256 k.2 = some m)
    (hlink : s.link.lookup k.1 = some l) :
    Sound { s with
      link := s.link.insert k.1 { l with queue := l.queue ++ [m] }, calls := s.calls.insert k c.queued } := by
  have hflight := fun q => inFlight_append s k.1 q hlink m (s.calls.insert k c.queued)
  have hst := SendCall.queued_isStarting hframe
  refine h.senders rfl rfl (fun k' _ hc => ?_) (begun_insert hst rfl) (fun q id hid => ?_) (fun q => ?_)
    (h.ids_insert hl)
  · unfold Qdrop.toCome at hc ⊢
    rw [hflight, hasEnd_append, Bool.or_assoc, Bool.or_eq_true_iff]
    rcases Bool.or_eq_true_iff.1 hc with hend | hstr
    · exact Or.inl hend
    · exact Or.inr (Bool.or_eq_true_iff.2 (streaming_frame hl hframe rfl (conns_append hlink) hstr))
  · rw [hflight, startsOf_append, List.mem_append] at hid
    rcases hid with hid | hid
    · exact Or.inl hid
    · split at hid
      · rename_i hq
        obtain ⟨rfl, hstart⟩ := startsOf_frame hframe hid
        subst hq
        refine Or.inr ⟨⟨c.queued, AList.lookup_insert _, hst⟩, ?_⟩
        by_contra hsome
        exact not_begun_of_isStarting hl hstart (h.begun k (Option.isSome_iff_ne_none.2 hsome))
      · cases hid
  · rw [hflight, startsOf_append, List.nodup_append]
    refine ⟨h.once q, ?_, fun id hid id' hid' => ?_⟩
    · split
      · exact startsOf_single_nodup m
      · exact List.nodup_nil
    · split at hid'
      · rename_i hq
        obtain ⟨rfl, hstart⟩ := startsOf_frame hframe hid'
        subst hq
        rintro rfl
        exact not_begun_of_isStarting hl hstart (h.starts k.1 k.2 hid).1
      · cases hid'

private theorem sound_queue (h : Sound s) (hs : s.queue sha256 k = some s') : Sound s' := by
  unfold Net.queue at hs
  split at hs
  · cases hs
  · rename_i c hl
    -- a call whose connection is gone has no entry that waits for it
    have hgone : (s.link.lookup k.1).map Link.conn ≠ some c.conn →
        Sound { s with calls := s.calls.insert k c.closed } := by
      intro hlink
      refine h.setCall hl SendCall.closed_isStarting (fun _ hstr => ?_)
      unfold streaming at hstr
      rw [hl, Option.any_some, Bool.and_eq_true, beq_iff_eq] at hstr
      exact absurd hstr.2 hlink
    split at hs
    · cases hs
    · rename_i m l hframe hlink
      split at hs
      · cases hs
        exact h.append hl hframe hlink
      · rename_i hconn
        cases hs
        exact hgone (by rw [hlink]; simpa using hconn)
    · rename_i hlink
      cases hs
      exact hgone (by rw [hlink]; simp)

end Queue

private theorem update_some {f : SendCall → Option SendCall} (hs : s.update k f = some s') :
    ∃ c c', s.calls.lookup k = some c ∧ f c = some c' ∧ s' = { s with calls := s.calls.insert k c' } := by
  unfold Net.update at hs
  split at hs
  · cases hs
  · rename_i c hl
    obtain ⟨c', hc', rfl⟩ := Option.map_eq_some_iff.1 hs
    exact ⟨c, c', hl, hc', rfl⟩

private theorem framesOf_append (p : DeviceId) (hub : List (DeviceId × Message)) (f : DeviceId × Message) :
    framesOf p (hub ++ [f]) = framesOf p hub ++ if f.1 = p then [f.2] else [] := by
  unfold framesOf
  rw [List.filter_append, List.map_append]
  split
  · rename_i hf
    rw [List.filter_cons_of_pos (by simpa using hf)]
    rfl
  · rename_i hf
    rw [List.filter_cons_of_neg (by simpa using hf)]
    rfl

private theorem framesOf_cons (p : DeviceId) (hub : List (DeviceId × Message)) (f : DeviceId × Message) :
    framesOf p (f :: hub) = (if f.1 = p then [f.2] else []) ++ framesOf p hub := by
  unfold framesOf
  split
  · rename_i hf
    rw [List.filter_cons_of_pos (by simpa using hf)]
    rfl
  · rename_i hf
    rw [List.filter_cons_of_neg (by simpa using hf)]
    rfl

/-- What is in flight and which connections are up decides what is still to come. -/
private theorem toCome_congr (hflight : inFlight s' k.1 = inFlight s k.1)
    (hlink : (s'.link.lookup k.1).map Link.conn = (s.link.lookup k.1).map Link.conn)
    (hcalls : s'.calls = s.calls) : Qdrop.toCome s' k = Qdrop.toCome s k := by
  unfold Qdrop.toCome streaming
  rw [hcalls, hflight, hlink]

private theorem sound_deliver (h : Sound s) {conn : Nat} {m : Message} {rest : List Message}
    (hlink : s.link.lookup p = some ⟨conn, m :: rest⟩) :
    Sound { s with link := s.link.insert p ⟨conn, rest⟩, hub := s.hub ++ [(p, m)] } := by
  have hflight : ∀ q, inFlight { s with
      link := s.link.insert p ⟨conn, rest⟩, hub := s.hub ++ [(p, m)] } q = inFlight s q := by
    intro q
    unfold inFlight
    dsimp only
    rw [framesOf_append]
    by_cases hq : q = p
    · rw [hq, AList.lookup_insert, hlink, if_pos rfl, List.append_assoc]
      rfl
    · rw [AList.lookup_insert_ne hq, if_neg (fun he => hq he.symm), List.append_nil]
  have hconns : ∀ q, ((s.link.insert p ⟨conn, rest⟩).lookup q).map Link.conn = (s.link.lookup q).map Link.conn := by
    intro q
    by_cases hq : q = p
    · rw [hq, AList.lookup_insert, hlink]
      rfl
    · rw [AList.lookup_insert_ne hq]
  refine h.senders rfl rfl (fun k _ hc => ?_) (fun _ hb => hb) (fun q id hid => ?_) (fun q => ?_) h.ids
  · rw [toCome_congr (hflight k.1) (hconns k.1) rfl]
    exact hc
  · rw [hflight] at hid
    exact Or.inl hid
  · rw [hflight]
    exact h.once q

private theorem sound_connect (h : Sound s) (hlink : s.link.lookup p = none) (n : Nat) :
    Sound { s with link := s.link.insert p ⟨s.nextConn, []⟩, nextConn := n } := by
  have hflight : ∀ q, inFlight { s with
      link := s.link.insert p ⟨s.nextConn, []⟩, nextConn := n } q = inFlight s q := by
    intro q
    unfold inFlight
    dsimp only
    by_cases hq : q = p
    · rw [hq, AList.lookup_insert, hlink]
      rfl
    · rw [AList.lookup_insert_ne hq]
  refine h.senders rfl rfl (fun k _ hc => ?_) (fun _ hb => hb) (fun q id hid => ?_) (fun q => ?_) h.ids
  · by_cases hk : k.1 = p
    · -- without a connection only a `BlobEnd` in the hub was to come
      unfold Qdrop.toCome at hc ⊢
      rw [hflight]
      refine Bool.or_eq_true_iff.2 (Or.inl ((Bool.or_eq_true_iff.1 hc).resolve_right (fun hstr => ?_)))
      unfold streaming at hstr
      rw [hk, hlink] at hstr
      cases hl : s.calls.lookup k <;> simp [hl] at hstr
    · rw [toCome_congr (hflight k.1) (by dsimp only; rw [AList.lookup_insert_ne hk]) rfl]
      exact hc
  · rw [hflight] at hid
    exact Or.inl hid
  · rw [hflight]
    exact h.once q

private theorem sound_drop (h : Sound s) (hok : uncut s (.drop p) = true) :
    Sound { s with link := s.link.erase p } := by
  have hself : inFlight { s with link := s.link.erase p } p = framesOf p s.hub := by
    unfold inFlight
    dsimp only
    rw [AList.lookup_erase]
    exact List.append_nil _
  have hother : ∀ q, q ≠ p → inFlight { s with link := s.link.erase p } q = inFlight s q := by
    intro q hq
    unfold inFlight
    dsimp only
    rw [AList.lookup_erase_ne hq]
  have hsub : ∀ q, (startsOf (inFlight { s with link := s.link.erase p } q)).Sublist
      (startsOf (inFlight s q)) := by
    intro q
    by_cases hq : q = p
    · rw [hq, hself, inFlight, startsOf_append]
      exact List.sublist_append_left _ _
    · rw [hother q hq]
  refine h.senders rfl rfl (fun k hk hc => ?_) (fun _ hb => hb) (fun q id hid => Or.inl ((hsub q).subset hid))
    (fun q => (hsub q).nodup (h.once q)) h.ids
  by_cases hkp : k.1 = p
  · have hmem : k ∈ s.rx.incoming.keys := AList.mem_keys.1 (AList.lookup_isSome.1 hk)
    have hall := List.all_eq_true.1 hok k hmem
    rw [hkp, bne_self_eq_false, Bool.false_or] at hall
    unfold Qdrop.toCome
    rw [hkp, hself, hall]
    rfl
  · rw [toCome_congr (hother k.1 hkp) (by dsimp only; rw [AList.lookup_erase_ne hkp]) rfl]
    exact hc

end Senders

/-! ### The receiver's steps -/

section Receiver

variable {s : Net} {p : DeviceId} {m : Message} {rest : List (DeviceId × Message)} {rx' : Rx} {effects' : List Effect}

/-- A frame that opens an entry only for its own transfer, while the end of it is still to come, and closes the entry
whose `BlobEnd` it is. -/
private theorem Sound.handled (h : Sound s) (hhub : s.hub = (p, m) :: rest)
    (hopens : ∀ k, (rx'.incoming.lookup k).isSome = true → (s.rx.incoming.lookup k).isSome = true ∨
      k.1 = p ∧ startId m = some k.2 ∧ Qdrop.toCome s k = true)
    (hcloses : ∀ id, isEnd id m = true → rx'.incoming.lookup (p, id) = none)
    (htracked : Tracked rx' (leftParts effects')) :
    Sound { s with hub := rest, rx := rx', effects := effects' } := by
  have hflight : ∀ q, inFlight s q = (if p = q then [m] else []) ++
      inFlight { s with hub := rest, rx := rx', effects := effects' } q := by
    intro q
    unfold inFlight
    rw [hhub, framesOf_cons, List.append_assoc]
  have hsub : ∀ q, (startsOf (inFlight { s with hub := rest, rx := rx', effects := effects' } q)).Sublist
      (startsOf (inFlight s q)) := by
    intro q
    rw [hflight q, startsOf_append]
    exact List.sublist_append_right _ _
  refine ⟨fun k hk => ?_, fun k hk => ?_, fun q id hid => ⟨?_, ?_⟩, fun q => (hsub q).nodup (h.once q), h.ids,
    htracked⟩
  · have hc : Qdrop.toCome s k = true := by
      rcases hopens k hk with hold | ⟨-, -, hc⟩
      · exact h.toCome k hold
      · exact hc
    unfold Qdrop.toCome at hc ⊢
    rw [hflight, hasEnd_append, Bool.or_assoc] at hc
    refine (Bool.or_eq_true_iff.1 hc).resolve_left (fun hend => ?_)
    split at hend
    · rename_i hkp
      have hnone := hcloses k.2 (by simpa [hasEnd] using hend)
      rw [hkp] at hnone
      rw [hnone] at hk
      cases hk
    · cases hend
  · rcases hopens k hk with hold | ⟨hkp, hid, -⟩
    · exact h.begun k hold
    · refine (h.starts k.1 k.2 ?_).1
      rw [hflight, if_pos hkp.symm, startsOf_append]
      exact List.mem_append_left _ (by simp [startsOf, hid])
  · exact (h.starts q id ((hsub q).subset hid)).1
  · by_contra hsome
    rcases hopens (q, id) (Option.isSome_iff_ne_none.2 hsome) with hold | ⟨hkp, hid', -⟩
    · rw [(h.starts q id ((hsub q).subset hid)).2] at hold
      cases hold
    · -- the same `BlobStart` would be in flight twice
      obtain rfl : q = p := hkp
      have honce := h.once q
      rw [hflight, if_pos rfl, startsOf_append, List.nodup_append] at honce
      exact honce.2.2 id (by simpa [startsOf] using hid') id hid rfl

private theorem isSome_onStart {cfg : XferConfig} {registry : PeersFile} {io : Io} {st : Rx} {id : Nat}
    {name : String} {size : Nat} {purpose : BlobPurpose} {k : XferKey}
    (h : ((onStart cfg registry io st p id name size purpose).1.incoming.lookup k).isSome = true) :
    (st.incoming.lookup k).isSome = true ∨ k = (p, id) := by
  by_cases hk : k = (p, id)
  · exact Or.inr hk
  · left
    rcases onStart_cases cfg registry io st p id name size purpose with
      ⟨_, heq⟩ | ⟨_, _, _, heq⟩ | ⟨_, _, _, heq⟩ | ⟨_, _, _, _, _, _, _, _, _, heq⟩
    · rwa [heq] at h
    · rwa [heq] at h
    · rwa [heq, AList.lookup_insert_ne hk] at h
    · rwa [heq, AList.lookup_insert_ne hk] at h

private theorem isSome_onChunk {io : Io} {st : Rx} {id : Nat} {data : Bytes} {k : XferKey}
    (h : ((onChunk io st p id data).1.incoming.lookup k).isSome = true) : (st.incoming.lookup k).isSome = true := by
  by_cases hk : k = (p, id)
  · subst hk
    rcases onChunk_cases io st p id data with ⟨hl, heq⟩ | ⟨_, _, _, _, _, _, hl, _, _, heq⟩ |
      ⟨_, _, _, _, _, _, hl, _, _, heq⟩ | ⟨_, _, hl, _, _, heq⟩ | ⟨_, _, hl, _, heq⟩
    · rwa [heq] at h
    all_goals
      rw [hl]
      rfl
  · rcases onChunk_cases io st p id data with ⟨_, heq⟩ | ⟨_, _, _, _, _, _, _, _, _, heq⟩ |
      ⟨_, _, _, _, _, _, _, _, _, heq⟩ | ⟨_, _, _, _, _, heq⟩ | ⟨_, _, _, _, heq⟩
    · rwa [heq] at h
    · rwa [heq, AList.lookup_insert_ne hk] at h
    · rwa [heq, AList.lookup_erase_ne hk] at h
    · rwa [heq, AList.lookup_insert_ne hk] at h
    · rwa [heq, AList.lookup_erase_ne hk] at h

private theorem incoming_onEnd (sha256 : Bytes → Digest) (cfg : XferConfig) (registry : PeersFile) (io : Io) (st : Rx)
    (p : DeviceId) (id : Nat) (sha : Digest) :
    (onEnd sha256 cfg registry io st p id sha).1.incoming.lookup (p, id) = none ∧
      ∀ k, k ≠ (p, id) → (onEnd sha256 cfg registry io st p id sha).1.incoming.lookup k = st.incoming.lookup k := by
  rcases onEnd_cases sha256 cfg registry io st p id sha with ⟨hl, heq⟩ | ⟨_, _, _, heq⟩ | ⟨_, _, _, _, _, heq⟩ |
    ⟨_, _, _, _, _, _, _, _, _, _, heq⟩ | ⟨_, _, _, _, _, _, _, heq⟩
  · rw [heq]
    exact ⟨hl, fun _ _ => rfl⟩
  all_goals
    rw [heq]
    exact ⟨AList.lookup_erase .., fun k hk => AList.lookup_erase_ne hk⟩

private theorem leftParts_append (effects new : List Effect) :
    leftParts (effects ++ new) = new.foldl partsAfter (leftParts effects) := List.foldl_append

private theorem sound_process (h : Sound s) (sha256 : Bytes → Digest) (cfg : XferConfig) {io : Io}
    {registry : PeersFile} (hhub : s.hub = (p, m) :: rest) (hok : uncut s (.process io registry) = true) :
    Sound { s with
      hub := rest
      rx := (handleBlob sha256 cfg registry io s.rx p m).1
      effects := s.effects ++ (handleBlob sha256 cfg registry io s.rx p m).2 } := by
  simp only [uncut, hhub, Bool.and_eq_true, Bool.not_eq_true'] at hok
  obtain ⟨hio, hstart⟩ := hok
  have hskip : (∀ id, isEnd id m = false) → handleBlob sha256 cfg registry io s.rx p m = (s.rx, []) →
      Sound { s with
        hub := rest
        rx := (handleBlob sha256 cfg registry io s.rx p m).1
        effects := s.effects ++ (handleBlob sha256 cfg registry io s.rx p m).2 } := by
    intro hend heq
    rw [heq, List.append_nil]
    refine h.handled hhub (fun k hk => Or.inl hk) (fun id hid => ?_) h.tracked
    rw [hend id] at hid
    cases hid
  cases m with
  | blobStart id name size purpose =>
    have hnone : s.rx.incoming.lookup (p, id) = none := by
      refine (h.starts p id ?_).2
      unfold inFlight
      rw [hhub, framesOf_cons, if_pos rfl]
      simp [startsOf, startId]
    refine h.handled hhub (fun k hk => ?_) (fun id' hid' => by cases hid') ?_
    · rcases isSome_onStart hk with hold | rfl
      · exact Or.inl hold
      · exact Or.inr ⟨rfl, rfl, hstart⟩
    · rw [leftParts_append]
      exact tracked_onStart h.tracked cfg registry io p id name size purpose hnone
  | blobChunk id data =>
    refine h.handled hhub (fun k hk => Or.inl (isSome_onChunk hk)) (fun id' hid' => by cases hid') ?_
    rw [leftParts_append]
    exact tracked_onChunk h.tracked hio p id data
  | blobEnd id sha =>
    obtain ⟨hgone, hother⟩ := incoming_onEnd sha256 cfg registry io s.rx p id sha
    refine h.handled hhub (fun k hk => Or.inl ?_) (fun id' hid' => ?_) ?_
    · by_cases hkk : k = (p, id)
      · subst hkk
        rw [handleBlob, hgone] at hk
        cases hk
      · rwa [handleBlob, hother k hkk] at hk
    · obtain rfl : id = id' := by simpa [isEnd] using hid'
      exact hgone
    · rw [leftParts_append]
      exact tracked_onEnd h.tracked sha256 cfg registry hio p id sha
  | hello | ping | pong | clipboard | blobAck | openUrl | authRequest | authReply =>
    exact hskip (fun _ => rfl) rfl

end Receiver

theorem sound_step {sha256 : Bytes → Digest} {cfg : XferConfig} {s s' : Net} {e : NetEvent} (h : Sound s)
    (hok : uncut s e = true) (hs : netStep sha256 cfg s e = some s') : Sound s' := by
  cases e with
  | connect p =>
    simp only [netStep] at hs
    split at hs
    · cases hs
    · rename_i hlink
      cases hs
      exact sound_connect h hlink _
  | drop p =>
    simp only [netStep] at hs
    split at hs
    · cases hs
      exact sound_drop h hok
    · cases hs
  | sendOne p path stat =>
    simp only [netStep] at hs
    split at hs
    · cases hs
      exact h
    · cases hs
      exact sound_begin h p _
  | sendClipImage p png =>
    simp only [netStep] at hs
    split at hs
    · cases hs
      exact h
    · cases hs
      exact sound_begin h p _
  | queue k => exact sound_queue h hs
  | openFile k err =>
    obtain ⟨c, c', hl, hc, rfl⟩ := update_some hs
    obtain ⟨hon, hstr⟩ := SendCall.opened_cases hc
    refine h.setCall hl hon.started (fun hk _ => ?_)
    cases err with
    | none => exact ⟨hstr rfl, hon.conn⟩
    | some err =>
      simp only [uncut, Option.isNone_iff_eq_none] at hok
      rw [hok] at hk
      cases hk
  | read k res =>
    obtain ⟨c, c', hl, hc, rfl⟩ := update_some hs
    obtain ⟨hon, hstr⟩ := SendCall.read_cases hc
    refine h.setCall hl hon.started (fun hk _ => ?_)
    rcases hstr with hstr | ⟨err, rfl⟩
    · exact ⟨hstr, hon.conn⟩
    · simp only [uncut, Option.isNone_iff_eq_none] at hok
      rw [hok] at hk
      cases hk
  | nextChunk k =>
    obtain ⟨c, c', hl, hc, rfl⟩ := update_some hs
    obtain ⟨hon, hstr⟩ := SendCall.nextChunk_cases hc
    exact h.setCall hl hon.started (fun _ _ => ⟨hstr, hon.conn⟩)
  | answer k answer =>
    obtain ⟨c, c', hl, hc, rfl⟩ := update_some hs
    obtain ⟨hnstr, -, hst⟩ := SendCall.answered_cases hc
    refine h.setCall hl hst (fun _ hstr => ?_)
    simp [streaming, hl, hnstr] at hstr
  | deliver p =>
    simp only [netStep] at hs
    split at hs
    · rename_i conn m rest hlink
      cases hs
      exact sound_deliver h hlink
    · cases hs
  | process io registry =>
    simp only [netStep] at hs
    split at hs
    · cases hs
    · rename_i p m rest hhub
      cases hs
      exact sound_process h sha256 cfg hhub hok

/-- In every run in which no transfer is cut off after the receiver has opened it, and removing temp files does not
fail: when all calls have returned and all frames have been processed, the receiver has no entry, no temp file is
left, and there is room for a new transfer. -/
theorem slots_reclaimed (sha256 : Bytes → Digest) (cfg : XferConfig) (fs : FileSys PathBuf) (es : List NetEvent)
    (s : Net) (hr : Run (netStep sha256 cfg) (fun s e => uncut s e = true) (Net.start fs) es s) (hq : Quiescent s) :
    s.rx.incoming.keys = [] ∧ leftParts s.effects = [] ∧ s.rx.incoming.keys.length < maxConcurrentIncoming := by
  have h : Sound s := hr.invariant (sound_start fs) (fun _ _ _ h hok hs => sound_step h hok hs)
  obtain ⟨hcalls, hlinks, hhub⟩ := hq
  have hflight : ∀ p, inFlight s p = [] := by
    intro p
    unfold inFlight
    rw [hhub]
    cases hl : s.link.lookup p with
    | none => rfl
    | some l => simp [framesOf, queueOf, hlinks p l hl]
  have hnone : ∀ k, s.rx.incoming.lookup k = none := by
    intro k
    by_contra hsome
    have hc := h.toCome k (Option.isSome_iff_ne_none.2 hsome)
    unfold toCome at hc
    rw [hflight] at hc
    unfold streaming at hc
    cases hl : s.calls.lookup k with
    | none => simp [hl, hasEnd] at hc
    | some c => simp [hl, hasEnd, SendCall.isStreaming_of_hasReturned (hcalls k c hl)] at hc
  have hkeys : s.rx.incoming.keys = [] := by
    rw [List.eq_nil_iff_forall_not_mem]
    intro k hk
    have := AList.lookup_isSome.2 (AList.mem_keys.2 hk)
    rw [hnone k] at this
    cases this
  refine ⟨hkeys, ?_, by rw [hkeys]; decide⟩
  rw [List.eq_nil_iff_forall_not_mem]
  intro q hq
  obtain ⟨k, inc, -, -, hl, -⟩ := h.tracked.owned q hq
  rw [hnone k] at hl
  cases hl

/-! ### A file that cannot be opened -/

private def quiescent (s : Net) : Bool :=
  s.calls.keys.all (fun k => (s.calls.lookup k).all SendCall.hasReturned) &&
    s.link.keys.all (fun p => (s.link.lookup p).all (fun l => l.queue.isEmpty)) && s.hub.isEmpty

private theorem quiescent_of {s : Net} (h : quiescent s = true) : Quiescent s := by
  simp only [quiescent, Bool.and_eq_true, List.all_eq_true, List.isEmpty_iff] at h
  obtain ⟨⟨hcalls, hlinks⟩, hhub⟩ := h
  refine ⟨fun k c hl => ?_, fun p l hl => ?_, hhub⟩
  · have hc := hcalls k (AList.mem_keys.1 (AList.lookup_isSome.1 (Option.isSome_iff_exists.2 ⟨c, hl⟩)))
    rwa [hl, Option.all_some] at hc
  · have hq := hlinks p (AList.mem_keys.1 (AList.lookup_isSome.1 (Option.isSome_iff_exists.2 ⟨l, hl⟩)))
    rw [hl, Option.all_some] at hq
    exact List.isEmpty_iff.1 hq

private def keepFiles : XferConfig := ⟨"d", .never, true⟩

private def sameDigest (_ : Bytes) : Digest := Vector.replicate 32 0

/-- The receiver has opened the transfer when the sender finds that it may not read the file. -/
private def failedOpen : List NetEvent :=
  [.connect "p", .sendOne "p" "/h/x" (.ok (true, 1)), .queue ("p", 1), .deliver "p", .process Io.ok .absent,
    .openFile ("p", 1) (some "Permission denied (os error 13)")]

theorem failed_open_keeps_slot :
    ¬ ∀ (sha256 : Bytes → Digest) (cfg : XferConfig) (fs : FileSys PathBuf) (es : List NetEvent) (s : Net),
      Run (netStep sha256 cfg) Always (Net.start fs) es s → Quiescent s →
      s.rx.incoming.keys = [] ∧ leftParts s.effects = [] ∧ s.rx.incoming.keys.length < maxConcurrentIncoming := by
  intro h
  obtain ⟨s, hrun, hview⟩ := run_of_exec_view (netStep sameDigest keepFiles) (fun _ => True)
    (Net.start FileSys.empty) failedOpen (fun s => (quiescent s, s.rx.incoming.keys, leftParts s.effects))
    (true, [("p", 1)], ["d/.x.1.part"]) (fun _ _ => trivial) (by decide)
  simp only [Prod.mk.injEq] at hview
  obtain ⟨hq, hkeys, -⟩ := hview
  have hnil := (h _ _ _ _ s hrun (quiescent_of hq)).1
  rw [hkeys] at hnil
  cases hnil

/-- The connection drops once the `BlobEnd` has reached the hub; the acknowledgement never comes. -/
private def droppedAfterEnd : List NetEvent :=
  [.connect "p", .sendOne "p" "/h/x" (.ok (true, 2)), .queue ("p", 1), .deliver "p", .process Io.ok .absent,
    .openFile ("p", 1) none, .read ("p", 1) (.ok [1, 2]), .queue ("p", 1), .read ("p", 1) (.ok []), .queue ("p", 1),
    .deliver "p", .deliver "p", .drop "p", .process Io.ok .absent, .process Io.ok .absent, .answer ("p", 1) .timeout]

theorem slots_reclaimed_after_drop :
    ∃ s, Run (netStep sameDigest keepFiles) (fun s e => uncut s e = true) (Net.start FileSys.empty) droppedAfterEnd
      s ∧ Quiescent s ∧ s.effects ≠ [] ∧ s.rx.incoming.keys = [] ∧ leftParts s.effects = [] := by
  obtain ⟨s, hrun, hview⟩ := run_of_exec_checked (netStep sameDigest keepFiles) (fun s e => uncut s e = true)
    (Net.start FileSys.empty) droppedAfterEnd (fun s => (quiescent s, s.effects.isEmpty)) (true, false) (by decide)
  simp only [Prod.mk.injEq, List.isEmpty_eq_false_iff] at hview
  have hq := quiescent_of hview.1
  obtain ⟨hkeys, hparts, -⟩ := slots_reclaimed _ _ _ _ s hrun hq
  exact ⟨s, hrun, hq, hview.2, hkeys, hparts⟩

end Qdrop
