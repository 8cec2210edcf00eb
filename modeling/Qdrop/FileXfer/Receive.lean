import Mathlib.Data.List.AList
import Qdrop.Lib.FileSys
import Qdrop.Peers

/-!
# Receiving a blob (`qdropd/src/filexfer.rs`, receiver side)

`BlobStart` opens an entry of `incoming` (for a file: a temp file next to its destination), `BlobChunk` writes and
hashes, `BlobEnd` checks digest and size and renames the temp file into place.  The frame router hands the frames
of all peers to one task, so the three handlers run one at a time.

The operating system's answers are an input: `Io` says which calls of a frame fail beyond what the file system's
state already decides.  `writeAll` follows tokio's `fs::File`, which returns before the write has happened and
reports its error at the next operation on the file.  The digest function is a parameter.
-/

namespace Qdrop

open Lib

/-! ### Configuration and paths -/

/-- When incoming files and URLs are held for confirmation. -/
inductive ConfirmPolicy where
  | never
  | unlisted
  | always
deriving DecidableEq, Repr

/-- Whether an incoming transfer from `peerId` should be diverted for confirmation; an unreadable registry
authorizes nobody. -/
def needsConfirm (policy : ConfirmPolicy) (registry : PeersFile) (peerId : DeviceId) : Bool :=
  match policy with
  | .never => false
  | .always => true
  | .unlisted =>
    match registry.load with
    | .ok doc => !doc.isAuthorized peerId
    | .error _ => true

/-- `Path::join`. -/
def join (base rel : PathBuf) : PathBuf :=
  if rel.toList.head? = some '/' then rel
  else if base.toList = [] ∨ base.toList.getLast? = some '/' then base ++ rel
  else base ++ "/" ++ rel

/-- Cap on an in-memory (clipboard-image) blob. -/
def maxMemBlob : Nat := 64 * 1024 * 1024

/-- Cap on concurrent incoming transfers (across all peers). -/
def maxConcurrentIncoming : Nat := 16

/-- The parts of `FileXfer` the receiver reads and never writes. -/
structure XferConfig where
  downloadDir : PathBuf
  confirm : ConfirmPolicy
  /-- Whether the sync subsystem takes completed clipboard images. -/
  clipSink : Bool
deriving DecidableEq, Repr

/-! ### Transfers in progress -/

/-- A transfer id is chosen by the sender, so it names a transfer only together with the peer. -/
abbrev XferKey := DeviceId × Nat

/-- A tokio `fs::File`: the handle, and whether the last write failed without this being reported yet. -/
structure OpenFile where
  handle : Handle
  deferred : Bool
deriving DecidableEq, Repr

inductive Sink where
  | file (tmpPath finalDir : PathBuf) (file : OpenFile)
  | memory (buf : Bytes)
deriving DecidableEq, Repr

structure Incoming where
  name : String
  sink : Sink
  /-- The bytes fed to the running SHA-256. -/
  hasher : Bytes
  written : Nat
  declared : Nat
deriving DecidableEq, Repr

/-- The entry after a chunk went to its sink. -/
def Incoming.push (inc : Incoming) (sink : Sink) (data : Bytes) : Incoming where
  name := inc.name
  sink := sink
  hasher := inc.hasher ++ data
  written := inc.written + data.length
  declared := inc.declared

/-- The receiver: the transfers in progress and the disk. -/
structure Rx where
  incoming : AList (fun _ : XferKey => Incoming)
  fs : FileSys PathBuf

/-- What the operating system answers while one frame is handled, beyond what the disk's state decides; `err` is the
text of an error. -/
structure Io where
  failMkdir : Bool
  failCreate : Bool
  /-- The write of the chunk fails after this many bytes. -/
  failWrite : Option Nat
  failRename : Bool
  failRemove : Bool
  err : String
deriving DecidableEq, Repr

/-- Every call succeeds that the disk's state allows. -/
def Io.ok : Io := ⟨false, false, none, false, false, ""⟩

/-- What a handler does besides changing the receiver's state. -/
inductive Effect where
  | send (peer : DeviceId) (msg : Message)
  | mkdir (path : PathBuf)
  | create (path : PathBuf)
  | write (path : PathBuf)
  | rename (src dst : PathBuf)
  | remove (path : PathBuf)
  | clip (png : Bytes)
  | notify (summary body : String)
deriving DecidableEq, Repr

/-- The negative acknowledgement sent to the peer. -/
def reject (peerId : DeviceId) (id : Nat) (detail : String) : Effect :=
  .send peerId (.blobAck id false detail)

/-! ### Temp files and destinations -/

/-- The temp file of a transfer: it names the file and the id, not the peer. -/
def tmpPathFor (finalDir : PathBuf) (safe : String) (id : Nat) : PathBuf :=
  join finalDir ("." ++ safe ++ "." ++ toString id ++ ".part")

/-- `str::rsplit_once('.')`. -/
def rsplitDot (s : List Char) : Option (List Char × List Char) :=
  match s.reverse.dropWhile (· ≠ '.') with
  | [] => none
  | _ :: stem => some (stem.reverse, (s.reverse.takeWhile (· ≠ '.')).reverse)

/-- The numbered variant of a name that is already taken. -/
def numbered (name : String) (i : Nat) : String :=
  match rsplitDot name.toList with
  | some (stem, ext) => String.ofList stem ++ " (" ++ toString i ++ ")" ++ ("." ++ String.ofList ext)
  | none => name ++ " (" ++ toString i ++ ")"

/-- The first free name among `name`, `name (1)`, …, `name (9999)`, and `name` itself when none is free. -/
def uniqueDest (fs : FileSys PathBuf) (dir : PathBuf) (name : String) : PathBuf :=
  if fs.present (join dir name) = false then join dir name
  else match (List.range' 1 9999).find? (fun i => !fs.present (join dir (numbered name i))) with
    | some i => join dir (numbered name i)
    | none => join dir name

/-! ### The file of a transfer -/

/-- Size of the buffer tokio hands to the blocking pool. -/
def maxBuf : Nat := 2 * 1024 * 1024

/-- `write_all`.  An error left by an earlier write is reported now; an error of this call's own buffers is reported
when another buffer of the call follows and stays deferred when it hits the last one. -/
def writeAll (fs : FileSys PathBuf) (f : OpenFile) (data : Bytes) (fail : Option Nat) :
    FileSys PathBuf × OpenFile × Bool :=
  if data = [] then (fs, f, true)
  else if f.deferred then (fs, { f with deferred := false }, false)
  else match fail with
    | none => ((fs.write f.handle data).1, ⟨(fs.write f.handle data).2, false⟩, true)
    | some k =>
      let w := fs.write f.handle (data.take (min k (data.length - 1)))
      let last := decide (min k (data.length - 1) / maxBuf = (data.length - 1) / maxBuf)
      (w.1, ⟨w.2, last⟩, last)

/-- `remove_file`, its result ignored. -/
def tryRemove (io : Io) (fs : FileSys PathBuf) (p : PathBuf) : FileSys PathBuf × List Effect :=
  if io.failRemove then (fs, [])
  else match fs.removeFile p with
    | some fs' => (fs', [.remove p])
    | none => (fs, [])

/-- Drop the temp file of a transfer that ends without a result. -/
def cleanup (io : Io) (fs : FileSys PathBuf) : Sink → FileSys PathBuf × List Effect
  | .file tmpPath _ _ => tryRemove io fs tmpPath
  | .memory _ => (fs, [])

/-! ### The three handlers -/

/-- The directory a file of this peer goes to. -/
def finalDirFor (cfg : XferConfig) (registry : PeersFile) (peerId : DeviceId) : PathBuf :=
  if needsConfirm cfg.confirm registry peerId then join cfg.downloadDir "pending" else cfg.downloadDir

/-- Open the temp file of a file transfer whose name was accepted as `safe`. -/
def openTemp (cfg : XferConfig) (registry : PeersFile) (io : Io) (st : Rx) (peerId : DeviceId) (id : Nat)
    (safe : String) (size : Nat) : Rx × List Effect :=
  let finalDir := finalDirFor cfg registry peerId
  match if io.failMkdir then none else st.fs.createDirAll finalDir with
  | none => (st, [reject peerId id s!"cannot create download dir: {io.err}"])
  | some fs =>
    let tmpPath := tmpPathFor finalDir safe id
    match if io.failCreate then none else fs.create tmpPath with
    | none => (⟨st.incoming, fs⟩, [.mkdir finalDir, reject peerId id s!"cannot create temp file: {io.err}"])
    | some (fs', handle) =>
      (⟨st.incoming.insert (peerId, id) ⟨safe, .file tmpPath finalDir ⟨handle, false⟩, [], 0, size⟩, fs'⟩,
        [.mkdir finalDir, .create tmpPath])

def onStart (cfg : XferConfig) (registry : PeersFile) (io : Io) (st : Rx) (peerId : DeviceId) (id : Nat)
    (name : String) (size : Nat) (purpose : BlobPurpose) : Rx × List Effect :=
  if maxConcurrentIncoming ≤ st.incoming.keys.length then
    (st, [reject peerId id "too many concurrent transfers"])
  else match purpose with
    | .clipboardImage =>
      if !cfg.clipSink then (st, [reject peerId id "clipboard image sync not available"])
      else if maxMemBlob < size then (st, [reject peerId id "clipboard image too large"])
      else
        (⟨st.incoming.insert (peerId, id) ⟨"clipboard-image", .memory [], [], 0, size⟩, st.fs⟩, [])
    | .file =>
      match safeBlobName name with
      | none => (st, [reject peerId id "unsafe filename"])
      | some safe => openTemp cfg registry io st peerId id safe size

def onChunk (io : Io) (st : Rx) (peerId : DeviceId) (id : Nat) (data : Bytes) : Rx × List Effect :=
  match st.incoming.lookup (peerId, id) with
  | none => (st, [])
  | some inc =>
    match inc.sink with
    | .file tmpPath finalDir file =>
      match writeAll st.fs file data io.failWrite with
      | (fs, file', true) =>
        (⟨st.incoming.insert (peerId, id) (inc.push (.file tmpPath finalDir file') data), fs⟩, [.write tmpPath])
      | (fs, _, false) =>
        let (fs', effs) := tryRemove io fs tmpPath
        (⟨st.incoming.erase (peerId, id), fs'⟩, .write tmpPath :: effs ++ [reject peerId id "write failed"])
    | .memory buf =>
      if maxMemBlob < buf.length + data.length then
        (⟨st.incoming.erase (peerId, id), st.fs⟩, [reject peerId id "clipboard image too large"])
      else
        (⟨st.incoming.insert (peerId, id) (inc.push (.memory (buf ++ data)) data), st.fs⟩, [])

/-- Rename a verified file into place. -/
def place (cfg : XferConfig) (registry : PeersFile) (io : Io) (st : Rx) (peerId : DeviceId) (id : Nat)
    (name : String) (tmpPath finalDir : PathBuf) : Rx × List Effect :=
  let dest := uniqueDest st.fs finalDir name
  match if io.failRename then none else st.fs.rename tmpPath dest with
  | none =>
    let (fs, effs) := tryRemove io st.fs tmpPath
    (⟨st.incoming, fs⟩, effs ++ [reject peerId id s!"rename failed: {io.err}"])
  | some fs =>
    let shown := if needsConfirm cfg.confirm registry peerId then s!"{dest} (pending review)" else dest
    (⟨st.incoming, fs⟩,
      [.rename tmpPath dest, .send peerId (.blobAck id true name),
        .notify s!"Received {name}" s!"From a peer → {shown}"])

def onEnd (sha256 : Bytes → Digest) (cfg : XferConfig) (registry : PeersFile) (io : Io) (st : Rx)
    (peerId : DeviceId) (id : Nat) (sha : Digest) : Rx × List Effect :=
  match st.incoming.lookup (peerId, id) with
  | none => (st, [])
  | some inc =>
    let st : Rx := ⟨st.incoming.erase (peerId, id), st.fs⟩
    -- the results of `flush` and `sync_all` are ignored
    if sha256 inc.hasher ≠ sha then
      let (fs, effs) := cleanup io st.fs inc.sink
      (⟨st.incoming, fs⟩, effs ++ [reject peerId id "sha256 mismatch"])
    else if inc.declared ≠ 0 ∧ inc.written ≠ inc.declared then
      let (fs, effs) := cleanup io st.fs inc.sink
      (⟨st.incoming, fs⟩, effs ++ [reject peerId id "size mismatch"])
    else match inc.sink with
      | .memory bytes =>
        (st, (if cfg.clipSink then [.clip bytes] else []) ++
          [.send peerId (.blobAck id true "clipboard-image")])
      | .file tmpPath finalDir _ => place cfg registry io st peerId id inc.name tmpPath finalDir

/-- The receiver's part of `FileXfer::handle_inbound`; a `BlobAck` concerns the sender side. -/
def handleBlob (sha256 : Bytes → Digest) (cfg : XferConfig) (registry : PeersFile) (io : Io) (st : Rx)
    (peerId : DeviceId) : Message → Rx × List Effect
  | .blobStart id name size purpose => onStart cfg registry io st peerId id name size purpose
  | .blobChunk id data => onChunk io st peerId id data
  | .blobEnd id sha => onEnd sha256 cfg registry io st peerId id sha
  | _ => (st, [])

/-! ### Temp files left behind -/

/-- The temp files after one more effect: created, and neither renamed nor removed since. -/
def partsAfter (parts : List PathBuf) : Effect → List PathBuf
  | .create p => if p ∈ parts then parts else p :: parts
  | .rename src _ => parts.filter (· ≠ src)
  | .remove p => parts.filter (· ≠ p)
  | .send .. | .mkdir _ | .write _ | .clip _ | .notify .. => parts

/-- The `.part` files that remain. -/
def leftParts (effects : List Effect) : List PathBuf := effects.foldl partsAfter []

/-! ### What each handler can do -/

/-- `write_all` writes through the handle: the paths stay as they are, and so does every other inode. -/
theorem writeAll_frame {fs fs' : FileSys PathBuf} {f f' : OpenFile} {data : Bytes} {fail : Option Nat} {ok : Bool}
    (h : writeAll fs f data fail = (fs', f', ok)) :
    fs'.node = fs.node ∧ f'.handle.ino = f.handle.ino ∧ ∀ i, i ≠ f.handle.ino → fs'.data i = fs.data i := by
  have hw := fun bytes => (FileSys.write_spec fs f.handle bytes).2.2
  unfold writeAll at h
  split at h
  · cases h
    exact ⟨rfl, rfl, fun _ _ => rfl⟩
  · split at h
    · cases h
      exact ⟨rfl, rfl, fun _ _ => rfl⟩
    · split at h
      · cases h
        exact ⟨rfl, rfl, hw data⟩
      · cases h
        exact ⟨rfl, rfl, hw _⟩

section Cases

variable (sha256 : Bytes → Digest) (cfg : XferConfig) (registry : PeersFile) (io : Io) (st : Rx) (peerId : DeviceId)
  (id : Nat)

/-- `remove_file` removes the file or leaves the disk alone. -/
theorem tryRemove_cases (fs : FileSys PathBuf) (p : PathBuf) :
    (∃ fs', fs.removeFile p = some fs' ∧ tryRemove io fs p = (fs', [.remove p])) ∨
      ((io.failRemove = true ∨ fs.removeFile p = none) ∧ tryRemove io fs p = (fs, [])) := by
  unfold tryRemove
  split
  · rename_i h; exact Or.inr ⟨Or.inl h, rfl⟩
  · split
    · rename_i fs' h; exact Or.inl ⟨fs', h, rfl⟩
    · rename_i h; exact Or.inr ⟨Or.inr h, rfl⟩

variable {io} in
/-- `remove_file` does nothing but remove its file. -/
theorem mem_tryRemove {fs : FileSys PathBuf} {p : PathBuf} {eff : Effect} (h : eff ∈ (tryRemove io fs p).2) :
    eff = .remove p := by
  rcases tryRemove_cases io fs p with ⟨_, _, heq⟩ | ⟨_, heq⟩
  · rw [heq] at h
    exact List.mem_singleton.1 h
  · rw [heq] at h
    cases h

variable {io} in
theorem mem_cleanup {fs : FileSys PathBuf} {sink : Sink} {eff : Effect} (h : eff ∈ (cleanup io fs sink).2) :
    ∃ p, eff = .remove p := by
  cases sink with
  | file tmpPath finalDir file => exact ⟨tmpPath, mem_tryRemove h⟩
  | memory buf => cases h

/-- Unless the system refuses, a file that is there can be removed. -/
theorem tryRemove_of_file {fs : FileSys PathBuf} {p : PathBuf} {i : Nat} (hio : io.failRemove = false)
    (hp : fs.node p = some (.file i)) :
    ∃ fs', fs.removeFile p = some fs' ∧ tryRemove io fs p = (fs', [.remove p]) := by
  rcases tryRemove_cases io fs p with h | ⟨hfail | hfail, -⟩
  · exact h
  · rw [hio] at hfail
    cases hfail
  · exact absurd hp (FileSys.removeFile_none hfail i)

/-- A `BlobStart` is refused (possibly after the directory was made), or opens a transfer in memory, or opens one
with a temp file. -/
theorem onStart_cases (name : String) (size : Nat) (purpose : BlobPurpose) :
    (∃ detail, onStart cfg registry io st peerId id name size purpose = (st, [reject peerId id detail])) ∨
    (∃ fs detail, st.fs.createDirAll (finalDirFor cfg registry peerId) = some fs ∧
      onStart cfg registry io st peerId id name size purpose =
        (⟨st.incoming, fs⟩, [.mkdir (finalDirFor cfg registry peerId), reject peerId id detail])) ∨
    (purpose = .clipboardImage ∧ st.incoming.keys.length < maxConcurrentIncoming ∧ size ≤ maxMemBlob ∧
      onStart cfg registry io st peerId id name size purpose =
        (⟨st.incoming.insert (peerId, id) ⟨"clipboard-image", .memory [], [], 0, size⟩, st.fs⟩, [])) ∨
    (∃ safe fs fs' handle, purpose = .file ∧ safeBlobName name = some safe ∧
      st.incoming.keys.length < maxConcurrentIncoming ∧
      st.fs.createDirAll (finalDirFor cfg registry peerId) = some fs ∧
      fs.create (tmpPathFor (finalDirFor cfg registry peerId) safe id) = some (fs', handle) ∧
      onStart cfg registry io st peerId id name size purpose =
        (⟨st.incoming.insert (peerId, id) ⟨safe, .file (tmpPathFor (finalDirFor cfg registry peerId) safe id)
            (finalDirFor cfg registry peerId) ⟨handle, false⟩, [], 0, size⟩, fs'⟩,
          [.mkdir (finalDirFor cfg registry peerId),
            .create (tmpPathFor (finalDirFor cfg registry peerId) safe id)])) := by
  unfold onStart
  split
  · exact Or.inl ⟨_, rfl⟩
  · rename_i hlen
    have hlen : st.incoming.keys.length < maxConcurrentIncoming := by omega
    cases purpose with
    | clipboardImage =>
      dsimp only
      split
      · exact Or.inl ⟨_, rfl⟩
      · split
        · exact Or.inl ⟨_, rfl⟩
        · rename_i hsize
          exact Or.inr (Or.inr (Or.inl ⟨rfl, hlen, by omega, rfl⟩))
    | file =>
      dsimp only
      cases hsafe : safeBlobName name with
      | none => exact Or.inl ⟨_, rfl⟩
      | some safe =>
        unfold openTemp
        dsimp only
        split
        · exact Or.inl ⟨_, rfl⟩
        · rename_i fs hmk
          have hmk : st.fs.createDirAll (finalDirFor cfg registry peerId) = some fs := by
            split at hmk
            · cases hmk
            · exact hmk
          split
          · exact Or.inr (Or.inl ⟨fs, _, hmk, rfl⟩)
          · rename_i fs' handle hcr
            have hcr : fs.create (tmpPathFor (finalDirFor cfg registry peerId) safe id) = some (fs', handle) := by
              split at hcr
              · cases hcr
              · exact hcr
            exact Or.inr (Or.inr (Or.inr ⟨safe, fs, fs', handle, rfl, rfl, hlen, hmk, hcr, rfl⟩))

/-- A `BlobChunk` for an unknown transfer does nothing; otherwise it extends the transfer or drops it. -/
theorem onChunk_cases (data : Bytes) :
    (st.incoming.lookup (peerId, id) = none ∧ onChunk io st peerId id data = (st, [])) ∨
    (∃ inc tmpPath finalDir file fs file', st.incoming.lookup (peerId, id) = some inc ∧
      inc.sink = .file tmpPath finalDir file ∧ writeAll st.fs file data io.failWrite = (fs, file', true) ∧
      onChunk io st peerId id data =
        (⟨st.incoming.insert (peerId, id) (inc.push (.file tmpPath finalDir file') data), fs⟩,
          [.write tmpPath])) ∨
    (∃ inc tmpPath finalDir file fs file', st.incoming.lookup (peerId, id) = some inc ∧
      inc.sink = .file tmpPath finalDir file ∧ writeAll st.fs file data io.failWrite = (fs, file', false) ∧
      onChunk io st peerId id data =
        (⟨st.incoming.erase (peerId, id), (tryRemove io fs tmpPath).1⟩,
          .write tmpPath :: (tryRemove io fs tmpPath).2 ++ [reject peerId id "write failed"])) ∨
    (∃ inc buf, st.incoming.lookup (peerId, id) = some inc ∧ inc.sink = .memory buf ∧
      buf.length + data.length ≤ maxMemBlob ∧
      onChunk io st peerId id data =
        (⟨st.incoming.insert (peerId, id) (inc.push (.memory (buf ++ data)) data), st.fs⟩, [])) ∨
    (∃ inc buf, st.incoming.lookup (peerId, id) = some inc ∧ inc.sink = .memory buf ∧
      onChunk io st peerId id data =
        (⟨st.incoming.erase (peerId, id), st.fs⟩, [reject peerId id "clipboard image too large"])) := by
  unfold onChunk
  cases hl : st.incoming.lookup (peerId, id) with
  | none => exact Or.inl ⟨rfl, rfl⟩
  | some inc =>
    right
    cases hsink : inc.sink with
    | file tmpPath finalDir file =>
      rcases hw : writeAll st.fs file data io.failWrite with ⟨fs, file', _ | _⟩
      · exact Or.inr (Or.inl ⟨inc, tmpPath, finalDir, file, fs, file', rfl, hsink, hw,
          by simp only [hsink, hw]⟩)
      · exact Or.inl ⟨inc, tmpPath, finalDir, file, fs, file', rfl, hsink, hw, by simp only [hsink, hw]⟩
    | memory buf =>
      by_cases hlen : maxMemBlob < buf.length + data.length
      · exact Or.inr (Or.inr (Or.inr ⟨inc, buf, rfl, hsink, by simp only [hsink, hlen, if_true]⟩))
      · exact Or.inr (Or.inr (Or.inl ⟨inc, buf, rfl, hsink, by omega,
          by simp only [hsink, hlen, if_false]⟩))

/-- A `BlobEnd` for an unknown transfer does nothing; otherwise the entry goes, and the transfer is refused, handed
to the clipboard, renamed into place, or refused because the rename failed. -/
theorem onEnd_cases (sha : Digest) :
    (st.incoming.lookup (peerId, id) = none ∧ onEnd sha256 cfg registry io st peerId id sha = (st, [])) ∨
    (∃ inc detail, st.incoming.lookup (peerId, id) = some inc ∧
      onEnd sha256 cfg registry io st peerId id sha =
        (⟨st.incoming.erase (peerId, id), (cleanup io st.fs inc.sink).1⟩,
          (cleanup io st.fs inc.sink).2 ++ [reject peerId id detail])) ∨
    (∃ inc bytes, st.incoming.lookup (peerId, id) = some inc ∧ sha256 inc.hasher = sha ∧
      inc.sink = .memory bytes ∧
      onEnd sha256 cfg registry io st peerId id sha = (⟨st.incoming.erase (peerId, id), st.fs⟩,
        (if cfg.clipSink then [.clip bytes] else []) ++ [.send peerId (.blobAck id true "clipboard-image")])) ∨
    (∃ inc tmpPath finalDir file fs shown, st.incoming.lookup (peerId, id) = some inc ∧
      sha256 inc.hasher = sha ∧ inc.sink = .file tmpPath finalDir file ∧
      st.fs.rename tmpPath (uniqueDest st.fs finalDir inc.name) = some fs ∧
      onEnd sha256 cfg registry io st peerId id sha = (⟨st.incoming.erase (peerId, id), fs⟩,
        [.rename tmpPath (uniqueDest st.fs finalDir inc.name), .send peerId (.blobAck id true inc.name),
          .notify s!"Received {inc.name}" shown])) ∨
    (∃ inc tmpPath finalDir file detail, st.incoming.lookup (peerId, id) = some inc ∧
      inc.sink = .file tmpPath finalDir file ∧
      onEnd sha256 cfg registry io st peerId id sha =
        (⟨st.incoming.erase (peerId, id), (tryRemove io st.fs tmpPath).1⟩,
          (tryRemove io st.fs tmpPath).2 ++ [reject peerId id detail])) := by
  unfold onEnd
  cases hl : st.incoming.lookup (peerId, id) with
  | none => exact Or.inl ⟨rfl, rfl⟩
  | some inc =>
    right
    by_cases hsha : sha256 inc.hasher = sha
    · by_cases hsize : inc.declared ≠ 0 ∧ inc.written ≠ inc.declared
      · exact Or.inl ⟨inc, "size mismatch", rfl, by simp [hsha, hsize]⟩
      · cases hsink : inc.sink with
        | memory bytes =>
          exact Or.inr (Or.inl ⟨inc, bytes, rfl, hsha, hsink,
            by simp only [hsha, hsize, hsink, ne_eq, not_true_eq_false, if_false]⟩)
        | file tmpPath finalDir file =>
          right; right
          simp only [hsha, hsize, hsink, ne_eq, not_true_eq_false, if_false, place]
          split
          · exact Or.inr ⟨inc, tmpPath, finalDir, file, _, rfl, hsink, rfl⟩
          · rename_i fs hren
            have hren : st.fs.rename tmpPath (uniqueDest st.fs finalDir inc.name) = some fs := by
              split at hren
              · cases hren
              · exact hren
            exact Or.inl ⟨inc, tmpPath, finalDir, file, fs, _, rfl, hsha, hsink, hren, rfl⟩
    · exact Or.inl ⟨inc, "sha256 mismatch", rfl, by simp [hsha]⟩

variable {st peerId id} in
/-- A verified file is renamed into place and acknowledged. -/
theorem onEnd_place {sha : Digest} {inc : Incoming} {tmpPath finalDir : PathBuf} {file : OpenFile}
    {fs : FileSys PathBuf} (hl : st.incoming.lookup (peerId, id) = some inc) (hsha : sha256 inc.hasher = sha)
    (hsize : inc.declared = 0 ∨ inc.written = inc.declared) (hsink : inc.sink = .file tmpPath finalDir file)
    (hio : io.failRename = false) (hren : st.fs.rename tmpPath (uniqueDest st.fs finalDir inc.name) = some fs) :
    ∃ shown, onEnd sha256 cfg registry io st peerId id sha = (⟨st.incoming.erase (peerId, id), fs⟩,
      [.rename tmpPath (uniqueDest st.fs finalDir inc.name), .send peerId (.blobAck id true inc.name),
        .notify s!"Received {inc.name}" shown]) := by
  have hsize' : ¬ (inc.declared ≠ 0 ∧ inc.written ≠ inc.declared) := by tauto
  simp only [onEnd, hl, hsha, hsize', hsink, place, hio, hren, ne_eq, not_true_eq_false, if_false,
    Bool.false_eq_true]
  exact ⟨_, rfl⟩

variable {st peerId id} in
/-- A file that fails a check or cannot be renamed is refused, and its temp file is removed. -/
theorem onEnd_refuse {sha : Digest} {inc : Incoming} {tmpPath finalDir : PathBuf} {file : OpenFile} {i : Nat}
    (hl : st.incoming.lookup (peerId, id) = some inc) (hsink : inc.sink = .file tmpPath finalDir file)
    (htmp : st.fs.node tmpPath = some (.file i)) (hio : io.failRemove = false)
    (hno : ¬ (sha256 inc.hasher = sha ∧ (inc.declared = 0 ∨ inc.written = inc.declared) ∧ io.failRename = false ∧
      st.fs.node (uniqueDest st.fs finalDir inc.name) ≠ some .dir)) :
    ∃ fs detail, st.fs.removeFile tmpPath = some fs ∧ onEnd sha256 cfg registry io st peerId id sha =
      (⟨st.incoming.erase (peerId, id), fs⟩, [.remove tmpPath, reject peerId id detail]) := by
  obtain ⟨fs, hrm, hremoved⟩ := tryRemove_of_file io hio htmp
  by_cases hsha : sha256 inc.hasher = sha
  · by_cases hsize : inc.declared ≠ 0 ∧ inc.written ≠ inc.declared
    · exact ⟨fs, "size mismatch", hrm, by simp [onEnd, hl, hsha, hsize, hsink, cleanup, hremoved]⟩
    · have hchecked : inc.declared = 0 ∨ inc.written = inc.declared := by tauto
      have hfail : (if io.failRename then none
          else st.fs.rename tmpPath (uniqueDest st.fs finalDir inc.name)) = none := by
        cases hren : io.failRename with
        | true => rfl
        | false =>
          refine FileSys.rename_onto_dir ?_
          by_contra hdest
          exact hno ⟨hsha, hchecked, hren, hdest⟩
      refine ⟨fs, s!"rename failed: {io.err}", hrm, ?_⟩
      simp only [onEnd, hl, hsha, hsize, hsink, place, hfail, hremoved, ne_eq, not_true_eq_false, if_false,
        List.cons_append, List.nil_append]
  · exact ⟨fs, "sha256 mismatch", hrm, by simp [onEnd, hl, hsha, hsink, cleanup, hremoved]⟩

end Cases

end Qdrop
