import Qdrop.Lib.Run
import Qdrop.Lib.Table
import Qdrop.FileXfer.Paths

/-!
# Delivered files are what was sent, as long as temp files are private

The digest is computed over the stream of received chunks, while the bytes that end up in the download directory
are those of the temp file.  The two agree when every transfer in progress has a temp file of its own
(`Whole`), which two peers using the same id, name and directory at the same time break (`temp_file_is_shared`).
`delivered_intact` shows that this sharing, and a rename onto another transfer's temp file when all ten thousand
candidate names are taken, are the only ways to lose the agreement.
-/

namespace Qdrop

open Lib

/-! ### Runs of the receiver -/

/-- One frame as the router hands it over, with the content of `peers.toml` and the operating system's answers
while it is handled. -/
structure Frame where
  peer : DeviceId
  msg : Message
  registry : PeersFile
  io : Io

abbrev Log := List (Frame × List Effect)

/-- The receiver together with what has happened so far. -/
structure History where
  rx : Rx
  log : Log

/-- A receiver without transfers in progress, on any disk. -/
def History.start (fs : FileSys PathBuf) : History := ⟨⟨∅, fs⟩, []⟩

/-- What handling a frame does. -/
def handled (sha256 : Bytes → Digest) (cfg : XferConfig) (s : History) (f : Frame) : Rx × List Effect :=
  handleBlob sha256 cfg f.registry f.io s.rx f.peer f.msg

def receive (sha256 : Bytes → Digest) (cfg : XferConfig) (s : History) (f : Frame) : History :=
  ⟨(handled sha256 cfg s f).1, s.log ++ [(f, (handled sha256 cfg s f).2)]⟩

def Effect.isSend : Effect → Bool
  | .send _ _ => true
  | _ => false

/-- The bytes received for `k` after one more frame: an accepted `BlobStart` (one that is not answered) begins
anew. -/
def receivedStep (k : XferKey) (acc : Bytes) (h : Frame × List Effect) : Bytes :=
  match h.1.msg with
  | .blobStart id _ _ _ => if (h.1.peer, id) = k ∧ h.2.any Effect.isSend = false then [] else acc
  | .blobChunk id data => if (h.1.peer, id) = k then acc ++ data else acc
  | _ => acc

/-- The concatenation of the chunks received for `k` since its `BlobStart`. -/
def received (k : XferKey) (log : Log) : Bytes := log.foldl (receivedStep k) []

/-- Whenever `f` renames a temp file into place and acknowledges it, the file holds what was received. -/
def Intact (sha256 : Bytes → Digest) (cfg : XferConfig) (s : History) (f : Frame) : Prop :=
  ∀ id sha tmp dest detail, f.msg = .blobEnd id sha →
    Effect.rename tmp dest ∈ (handled sha256 cfg s f).2 →
    Effect.send f.peer (.blobAck id true detail) ∈ (handled sha256 cfg s f).2 →
    (handled sha256 cfg s f).1.fs.read dest = some (received (f.peer, id) s.log)

/-- No transfer in progress other than `k` has the temp file `p`. -/
def NotTempOfOther (st : Rx) (k : XferKey) (p : PathBuf) : Prop :=
  ∀ k' inc tmp dir file, st.incoming.lookup k' = some inc → inc.sink = .file tmp dir file → k' ≠ k → tmp ≠ p

/-- The frame does not make two transfers share a file: a `BlobStart` does not repeat the id, the name and the
directory of a transfer that another peer has open, and a `BlobEnd` for which every candidate name is taken does not
replace another transfer's temp file. -/
def KeepsApart (cfg : XferConfig) (s : History) (f : Frame) : Prop :=
  match f.msg with
  | .blobStart id name _ .file =>
    ∀ safe k inc tmp file, safeBlobName name = some safe → s.rx.incoming.lookup k = some inc →
      inc.sink = .file tmp (finalDirFor cfg f.registry f.peer) file → k.2 = id → inc.name = safe → k.1 = f.peer
  | .blobEnd id _ =>
    ∀ inc tmp dir file, s.rx.incoming.lookup (f.peer, id) = some inc → inc.sink = .file tmp dir file →
      (∀ n ∈ destNames inc.name, s.rx.fs.present (join dir n) = true) →
      NotTempOfOther s.rx (f.peer, id) (join dir inc.name)
  | _ => True

/-! ### The invariant -/

theorem received_snoc (k : XferKey) (log : Log) (h : Frame × List Effect) :
    received k (log ++ [h]) = receivedStep k (received k log) h := by
  simp [received, List.foldl_append]

/-- A file transfer in progress: its temp file exists under its own name, the handle points at the end of it, and
it holds the bytes that were hashed. -/
structure FileOk (cfg : XferConfig) (fs : FileSys PathBuf) (k : XferKey) (inc : Incoming) (tmp dir : PathBuf)
    (file : OpenFile) : Prop where
  path : tmp = tmpPathFor dir inc.name k.2
  dir : dir = cfg.downloadDir ∨ dir = join cfg.downloadDir "pending"
  bare : Bare inc.name
  node : fs.node tmp = some (.file file.handle.ino)
  data : fs.data file.handle.ino = inc.hasher
  pos : file.handle.pos = inc.hasher.length
  reported : file.deferred = false

/-- Every transfer in progress has hashed what was received for it, and has a temp file of its own. -/
structure Whole (cfg : XferConfig) (s : History) : Prop where
  hashed : ∀ k inc, s.rx.incoming.lookup k = some inc → inc.hasher = received k s.log
  files : ∀ k inc tmp dir file, s.rx.incoming.lookup k = some inc → inc.sink = .file tmp dir file →
    FileOk cfg s.rx.fs k inc tmp dir file
  apart : ∀ k inc tmp dir file, s.rx.incoming.lookup k = some inc → inc.sink = .file tmp dir file →
    NotTempOfOther s.rx k tmp

theorem whole_start (cfg : XferConfig) (fs : FileSys PathBuf) : Whole cfg (History.start fs) where
  hashed k inc h := by cases h
  files k inc tmp dir file h := by cases h
  apart k inc tmp dir file h := by cases h

/-- Only the temp file's own name and inode matter. -/
private theorem FileOk.frame {cfg : XferConfig} {fs fs' : FileSys PathBuf} {k : XferKey} {inc : Incoming}
    {tmp dir : PathBuf} {file : OpenFile} (h : FileOk cfg fs k inc tmp dir file)
    (hn : fs'.node tmp = fs.node tmp) (hd : fs'.data file.handle.ino = fs.data file.handle.ino) :
    FileOk cfg fs' k inc tmp dir file :=
  { h with node := hn.trans h.node, data := hd.trans h.data }

/-- A step that changes at most the entry of `key`: the other entries stay whole when their temp files are left
alone, and the entry of `key` has to be shown whole. -/
private theorem Whole.update {cfg : XferConfig} {s : History} (hw : Whole cfg s) {rx : Rx}
    {h : Frame × List Effect} (key : XferKey)
    (hother : ∀ k, k ≠ key → rx.incoming.lookup k = s.rx.incoming.lookup k)
    (hlog : ∀ k, k ≠ key → receivedStep k (received k s.log) h = received k s.log)
    (hfs : ∀ k inc tmp dir file, k ≠ key → s.rx.incoming.lookup k = some inc → inc.sink = .file tmp dir file →
      rx.fs.node tmp = s.rx.fs.node tmp ∧ rx.fs.data file.handle.ino = s.rx.fs.data file.handle.ino)
    (hkey : ∀ inc, rx.incoming.lookup key = some inc →
      inc.hasher = receivedStep key (received key s.log) h ∧
      ∀ tmp dir file, inc.sink = .file tmp dir file →
        FileOk cfg rx.fs key inc tmp dir file ∧ NotTempOfOther s.rx key tmp) :
    Whole cfg ⟨rx, s.log ++ [h]⟩ where
  hashed k inc hk := by
    rw [received_snoc]
    by_cases hkk : k = key
    · subst hkk; exact (hkey inc hk).1
    · rw [hlog k hkk]
      rw [hother k hkk] at hk
      exact hw.hashed k inc hk
  files k inc tmp dir file hk hs := by
    by_cases hkk : k = key
    · subst hkk; exact ((hkey inc hk).2 tmp dir file hs).1
    · have hk : rx.incoming.lookup k = some inc := hk
      rw [hother k hkk] at hk
      obtain ⟨hn, hd⟩ := hfs k inc tmp dir file hkk hk hs
      exact (hw.files k inc tmp dir file hk hs).frame hn hd
  apart k inc tmp dir file hk hs := by
    intro k' inc' tmp' dir' file' hk' hs' hne
    have hk : rx.incoming.lookup k = some inc := hk
    have hk' : rx.incoming.lookup k' = some inc' := hk'
    by_cases hkk : k = key
    · subst hkk
      rw [hother k' hne] at hk'
      exact ((hkey inc hk).2 tmp dir file hs).2 k' inc' tmp' dir' file' hk' hs' hne
    · rw [hother k hkk] at hk
      by_cases hkk' : k' = key
      · subst hkk'
        have := ((hkey inc' hk').2 tmp' dir' file' hs').2 k inc tmp dir file hk hs hkk
        exact fun e => this e.symm
      · rw [hother k' hkk'] at hk'
        exact hw.apart k inc tmp dir file hk hs k' inc' tmp' dir' file' hk' hs' hne

/-- A step that leaves the transfers alone, and the files of the transfers. -/
private theorem Whole.keep {cfg : XferConfig} {s : History} (hw : Whole cfg s) {fs : FileSys PathBuf}
    {h : Frame × List Effect} (hlog : ∀ k, receivedStep k (received k s.log) h = received k s.log)
    (hfs : ∀ k inc tmp dir file, s.rx.incoming.lookup k = some inc → inc.sink = .file tmp dir file →
      fs.node tmp = s.rx.fs.node tmp ∧ fs.data file.handle.ino = s.rx.fs.data file.handle.ino) :
    Whole cfg ⟨⟨s.rx.incoming, fs⟩, s.log ++ [h]⟩ where
  hashed k inc hk := by
    rw [received_snoc, hlog k]
    exact hw.hashed k inc hk
  files k inc tmp dir file hk hs := by
    obtain ⟨hn, hd⟩ := hfs k inc tmp dir file hk hs
    exact (hw.files k inc tmp dir file hk hs).frame hn hd
  apart k inc tmp dir file hk hs := hw.apart k inc tmp dir file hk hs

/-- The entry of `key` is gone. -/
private theorem Whole.drop {cfg : XferConfig} {s : History} (hw : Whole cfg s) {fs : FileSys PathBuf}
    {h : Frame × List Effect} {key : XferKey}
    (hlog : ∀ k, k ≠ key → receivedStep k (received k s.log) h = received k s.log)
    (hfs : ∀ k inc tmp dir file, k ≠ key → s.rx.incoming.lookup k = some inc → inc.sink = .file tmp dir file →
      fs.node tmp = s.rx.fs.node tmp ∧ fs.data file.handle.ino = s.rx.fs.data file.handle.ino) :
    Whole cfg ⟨⟨s.rx.incoming.erase key, fs⟩, s.log ++ [h]⟩ := by
  apply hw.update key (fun k hk => AList.lookup_erase_ne hk) hlog hfs
  intro inc hk
  rw [AList.lookup_erase] at hk
  cases hk

/-- Removing the temp file of `key` leaves the temp files of the other transfers alone. -/
private theorem Whole.tryRemove {cfg : XferConfig} {s : History} (hw : Whole cfg s) (io : Io) {key : XferKey}
    {inc₀ : Incoming} {tmp₀ dir₀ : PathBuf} {file₀ : OpenFile} (hk₀ : s.rx.incoming.lookup key = some inc₀)
    (hs₀ : inc₀.sink = .file tmp₀ dir₀ file₀) :
    ∀ k inc tmp dir file, k ≠ key → s.rx.incoming.lookup k = some inc → inc.sink = .file tmp dir file →
      (tryRemove io s.rx.fs tmp₀).1.node tmp = s.rx.fs.node tmp ∧
        (tryRemove io s.rx.fs tmp₀).1.data file.handle.ino = s.rx.fs.data file.handle.ino := by
  intro k inc tmp dir file hne hk hs
  have hne' : tmp ≠ tmp₀ := hw.apart key inc₀ tmp₀ dir₀ file₀ hk₀ hs₀ k inc tmp dir file hk hs hne
  rcases tryRemove_cases io s.rx.fs tmp₀ with ⟨fs', hrm, heq⟩ | ⟨-, heq⟩
  · rw [heq]
    obtain ⟨-, hn, hd⟩ := FileSys.removeFile_spec hrm
    exact ⟨hn tmp hne', by rw [hd]⟩
  · rw [heq]; exact ⟨rfl, rfl⟩

/-! ### Every frame keeps the invariant -/

/-- Making a directory leaves every regular file alone. -/
private theorem createDirAll_frame {fs fs' : FileSys PathBuf} {d tmp : PathBuf} {i : Nat}
    (h : fs.createDirAll d = some fs') (hn : fs.node tmp = some (.file i)) :
    fs'.node tmp = fs.node tmp ∧ fs'.data = fs.data := by
  obtain ⟨-, hframe, hdata, hd⟩ := FileSys.createDirAll_spec h
  refine ⟨hframe tmp ?_, hdata⟩
  rintro rfl
  exact hd i hn

private theorem whole_start_frame {sha256 : Bytes → Digest} {cfg : XferConfig} {s : History} {f : Frame}
    {id size : Nat} {name : String} {purpose : BlobPurpose} (hw : Whole cfg s) (hap : KeepsApart cfg s f)
    (hm : f.msg = .blobStart id name size purpose) : Whole cfg (receive sha256 cfg s f) := by
  have hout : handled sha256 cfg s f = onStart cfg f.registry f.io s.rx f.peer id name size purpose := by
    simp only [handled, hm, handleBlob]
  have hlog : ∀ k effs, k ≠ (f.peer, id) → receivedStep k (received k s.log) (f, effs) = received k s.log := by
    intro k effs hne
    simp only [receivedStep, hm]
    exact if_neg (fun h => hne h.1.symm)
  unfold receive
  rw [hout]
  rcases onStart_cases cfg f.registry f.io s.rx f.peer id name size purpose with
    ⟨detail, h⟩ | ⟨fs, detail, hmk, h⟩ | ⟨rfl, -, -, h⟩ | ⟨safe, fs, fs', handle, rfl, hsafe, -, hmk, hcr, h⟩
  · rw [h]
    refine hw.keep (fun k => ?_) (fun _ _ _ _ _ _ _ => ⟨rfl, rfl⟩)
    simp [receivedStep, hm, reject, Effect.isSend]
  · rw [h]
    refine hw.keep (fun k => ?_) (fun k inc tmp dir file hk hs => ?_)
    · simp [receivedStep, hm, reject, Effect.isSend]
    · obtain ⟨hn, hd⟩ := createDirAll_frame hmk (hw.files k inc tmp dir file hk hs).node
      exact ⟨hn, by rw [hd]⟩
  · rw [h]
    refine hw.update (f.peer, id) (fun k hk => AList.lookup_insert_ne hk) (fun k hk => hlog k _ hk)
      (fun _ _ _ _ _ _ _ _ => ⟨rfl, rfl⟩) ?_
    intro inc hk
    rw [AList.lookup_insert] at hk
    cases hk
    exact ⟨by simp [receivedStep, hm], fun _ _ _ hs => by cases hs⟩
  · rw [h]
    obtain ⟨hnode, hpos, hdata, hothers, hdata'⟩ := FileSys.create_spec hcr
    have hbare := safeBlobName_bare hsafe
    -- the condition rules out that another transfer's temp file is the one just opened
    have hprivate : NotTempOfOther s.rx (f.peer, id) (tmpPathFor (finalDirFor cfg f.registry f.peer) safe id) := by
      intro k inc tmp dir file hk hs hne heq
      have hok := hw.files k inc tmp dir file hk hs
      rw [hok.path] at heq
      obtain ⟨hdir, hname, hid⟩ := tmpPathFor_inj hok.dir (finalDirFor_cases cfg f.registry f.peer)
        hok.bare.2.2.2 hbare.2.2.2 heq
      simp only [KeepsApart, hm] at hap
      have := hap safe k inc tmp file hsafe hk (hdir ▸ hs) hid hname
      exact hne (Prod.ext this hid)
    refine hw.update (f.peer, id) (fun k hk => AList.lookup_insert_ne hk) (fun k hk => hlog k _ hk) ?_ ?_
    · intro k inc tmp dir file hne hk hs
      have hok := hw.files k inc tmp dir file hk hs
      obtain ⟨hn, hd⟩ := createDirAll_frame hmk hok.node
      obtain ⟨hn', hino⟩ := hothers tmp (hprivate k inc tmp dir file hk hs hne)
      have hne' : file.handle.ino ≠ handle.ino := by
        intro e
        exact hino (by rw [hn, hok.node, e])
      exact ⟨hn'.trans hn, by rw [hdata' _ hne', hd]⟩
    · intro inc hk
      rw [AList.lookup_insert] at hk
      cases hk
      refine ⟨by simp [receivedStep, hm, Effect.isSend], ?_⟩
      intro tmp dir file hs
      cases hs
      exact ⟨⟨rfl, finalDirFor_cases cfg f.registry f.peer, hbare, hnode, hdata, by simp [hpos], rfl⟩, hprivate⟩

/-- Without a fault, `write_all` appends to the temp file and touches no other inode. -/
theorem writeAll_append {fs : FileSys PathBuf} {file : OpenFile} (data : Bytes)
    (hpos : file.handle.pos = (fs.data file.handle.ino).length) (hdef : file.deferred = false) :
    ∃ fs' file', writeAll fs file data none = (fs', file', true) ∧ fs'.node = fs.node ∧
      file'.handle.ino = file.handle.ino ∧ file'.handle.pos = file.handle.pos + data.length ∧
      file'.deferred = false ∧ fs'.data file.handle.ino = fs.data file.handle.ino ++ data ∧
      ∀ i, i ≠ file.handle.ino → fs'.data i = fs.data i := by
  by_cases hd : data = []
  · subst hd
    exact ⟨fs, file, by simp [writeAll], rfl, rfl, by simp, hdef, by simp, fun _ _ => rfl⟩
  · obtain ⟨hn, hdata, hframe⟩ := FileSys.write_spec fs file.handle data
    refine ⟨(fs.write file.handle data).1, ⟨(fs.write file.handle data).2, false⟩, ?_, hn, rfl, rfl, rfl, ?_, hframe⟩
    · simp only [writeAll, hd, hdef, if_false, Bool.false_eq_true]
    · rw [hdata, hpos, overwrite_end]

private theorem whole_chunk_frame {sha256 : Bytes → Digest} {cfg : XferConfig} {s : History} {f : Frame}
    {id : Nat} {data : Bytes} (hw : Whole cfg s) (hio : f.io.failWrite = none)
    (hm : f.msg = .blobChunk id data) : Whole cfg (receive sha256 cfg s f) := by
  have hout : handled sha256 cfg s f = onChunk f.io s.rx f.peer id data := by
    simp only [handled, hm, handleBlob]
  have hlog : ∀ k effs, k ≠ (f.peer, id) → receivedStep k (received k s.log) (f, effs) = received k s.log := by
    intro k effs hne
    simp only [receivedStep, hm]
    exact if_neg (fun h => hne h.symm)
  unfold receive
  rw [hout]
  rcases onChunk_cases f.io s.rx f.peer id data with
    ⟨hl, h⟩ | ⟨inc, tmp, dir, file, fs, file', hl, hs, hwr, h⟩ | ⟨inc, tmp, dir, file, fs, file', hl, hs, hwr, h⟩ |
    ⟨inc, buf, hl, hs, -, h⟩ | ⟨inc, buf, hl, hs, h⟩
  · rw [h]
    refine hw.update (f.peer, id) (fun _ _ => rfl) (fun k hk => hlog k _ hk)
      (fun _ _ _ _ _ _ _ _ => ⟨rfl, rfl⟩) (fun inc hk => ?_)
    rw [hl] at hk
    cases hk
  · -- the chunk went to the temp file
    rw [h]
    have hok := hw.files _ inc tmp dir file hl hs
    obtain ⟨fs₁, file₁, hwr', hn, hino, hpos, hdef, hdata, hframe⟩ :=
      writeAll_append data (by rw [hok.data]; exact hok.pos) hok.reported
    rw [hio, hwr'] at hwr
    cases hwr
    refine hw.update (f.peer, id) (fun k hk => AList.lookup_insert_ne hk) (fun k hk => hlog k _ hk) ?_ ?_
    · intro k inc' tmp' dir' file' hne hk hs'
      refine ⟨by rw [hn], hframe _ ?_⟩
      intro e
      have hok' := hw.files k inc' tmp' dir' file' hk hs'
      have : tmp' = tmp := s.rx.fs.sole tmp' tmp file'.handle.ino hok'.node (by rw [hok.node, e])
      exact hw.apart _ inc tmp dir file hl hs k inc' tmp' dir' file' hk hs' hne this
    · intro inc' hk
      rw [AList.lookup_insert] at hk
      cases hk
      refine ⟨by simp [receivedStep, hm, Incoming.push, hw.hashed _ inc hl], ?_⟩
      intro tmp' dir' file' hs'
      simp only [Incoming.push, Sink.file.injEq] at hs'
      obtain ⟨rfl, rfl, rfl⟩ := hs'
      refine ⟨⟨hok.path, hok.dir, hok.bare, ?_, ?_, ?_, hdef⟩, hw.apart _ inc tmp dir file hl hs⟩
      · rw [hn, hino]; exact hok.node
      · rw [hino, hdata, hok.data]; rfl
      · rw [hpos, hok.pos]; simp [Incoming.push]
  · -- a write without a fault does not fail
    have hok := hw.files _ inc tmp dir file hl hs
    obtain ⟨fs₁, file₁, hwr', -⟩ :=
      writeAll_append data (by rw [hok.data]; exact hok.pos) hok.reported
    rw [hio, hwr'] at hwr
    cases hwr
  · rw [h]
    refine hw.update (f.peer, id) (fun k hk => AList.lookup_insert_ne hk) (fun k hk => hlog k _ hk)
      (fun _ _ _ _ _ _ _ _ => ⟨rfl, rfl⟩) ?_
    intro inc' hk
    rw [AList.lookup_insert] at hk
    cases hk
    exact ⟨by simp [receivedStep, hm, Incoming.push, hw.hashed _ inc hl], fun _ _ _ hs' => by cases hs'⟩
  · rw [h]
    exact hw.drop (fun k hk => hlog k _ hk) (fun _ _ _ _ _ _ _ _ => ⟨rfl, rfl⟩)

/-- Renaming the temp file of one transfer leaves the temp files of the others alone. -/
private theorem rename_frame {cfg : XferConfig} {s : History} {f : Frame} {id : Nat} {sha : Digest}
    (hw : Whole cfg s) (hap : KeepsApart cfg s f) (hm : f.msg = .blobEnd id sha) {inc₀ : Incoming}
    {tmp₀ dir₀ : PathBuf} {file₀ : OpenFile} {fs : FileSys PathBuf}
    (hk₀ : s.rx.incoming.lookup (f.peer, id) = some inc₀) (hs₀ : inc₀.sink = .file tmp₀ dir₀ file₀)
    (hren : s.rx.fs.rename tmp₀ (uniqueDest s.rx.fs dir₀ inc₀.name) = some fs) :
    ∀ k inc tmp dir file, k ≠ (f.peer, id) → s.rx.incoming.lookup k = some inc →
      inc.sink = .file tmp dir file →
      fs.node tmp = s.rx.fs.node tmp ∧ fs.data file.handle.ino = s.rx.fs.data file.handle.ino := by
  intro k inc tmp dir file hne hk hs
  obtain ⟨-, -, hframe, hdata⟩ := FileSys.rename_spec hren
  have hok := hw.files k inc tmp dir file hk hs
  have hsrc : tmp ≠ tmp₀ := hw.apart _ inc₀ tmp₀ dir₀ file₀ hk₀ hs₀ k inc tmp dir file hk hs hne
  have hdst : tmp ≠ uniqueDest s.rx.fs dir₀ inc₀.name := by
    intro e
    rcases uniqueDest_free s.rx.fs dir₀ inc₀.name with hfree | ⟨hfirst, htaken⟩
    · rw [← e, hok.node] at hfree; cases hfree
    · simp only [KeepsApart, hm] at hap
      exact hap inc₀ tmp₀ dir₀ file₀ hk₀ hs₀ htaken k inc tmp dir file hk hs hne (e.trans hfirst)
  exact ⟨hframe tmp hsrc hdst, by rw [hdata]⟩

private theorem whole_end_frame {sha256 : Bytes → Digest} {cfg : XferConfig} {s : History} {f : Frame}
    {id : Nat} {sha : Digest} (hw : Whole cfg s) (hap : KeepsApart cfg s f) (hm : f.msg = .blobEnd id sha) :
    Whole cfg (receive sha256 cfg s f) := by
  have hout : handled sha256 cfg s f = onEnd sha256 cfg f.registry f.io s.rx f.peer id sha := by
    simp only [handled, hm, handleBlob]
  have hlog : ∀ k effs, receivedStep k (received k s.log) (f, effs) = received k s.log := by
    intro k effs
    simp only [receivedStep, hm]
  unfold receive
  rw [hout]
  rcases onEnd_cases sha256 cfg f.registry f.io s.rx f.peer id sha with
    ⟨hl, h⟩ | ⟨inc, detail, hl, h⟩ | ⟨inc, bytes, hl, -, hs, h⟩ | ⟨inc, tmp, dir, file, fs, shown, hl, -, hs, hren, h⟩ |
    ⟨inc, tmp, dir, file, detail, hl, hs, h⟩
  · rw [h]
    exact hw.keep (fun k => hlog k _) (fun _ _ _ _ _ _ _ => ⟨rfl, rfl⟩)
  · rw [h]
    refine hw.drop (fun k _ => hlog k _) ?_
    cases hs : inc.sink with
    | memory buf => exact fun _ _ _ _ _ _ _ _ => ⟨rfl, rfl⟩
    | file tmp dir file => exact hw.tryRemove f.io hl hs
  · rw [h]
    exact hw.drop (fun k _ => hlog k _) (fun _ _ _ _ _ _ _ _ => ⟨rfl, rfl⟩)
  · rw [h]
    exact hw.drop (fun k _ => hlog k _) (rename_frame hw hap hm hl hs hren)
  · rw [h]
    exact hw.drop (fun k _ => hlog k _) (hw.tryRemove f.io hl hs)

/-- The step lemma: a frame that keeps the temp files apart and whose writes succeed keeps the invariant. -/
theorem whole_receive {sha256 : Bytes → Digest} {cfg : XferConfig} {s : History} {f : Frame} (hw : Whole cfg s)
    (hio : f.io.failWrite = none) (hap : KeepsApart cfg s f) : Whole cfg (receive sha256 cfg s f) := by
  cases hm : f.msg with
  | blobStart id name size purpose => exact whole_start_frame hw hap hm
  | blobChunk id data => exact whole_chunk_frame hw hio hm
  | blobEnd id sha => exact whole_end_frame hw hap hm
  | _ =>
    have hout : handled sha256 cfg s f = (s.rx, []) := by simp only [handled, hm, handleBlob]
    unfold receive
    rw [hout]
    exact hw.keep (fun k => by simp only [receivedStep, hm]) (fun _ _ _ _ _ _ _ => ⟨rfl, rfl⟩)

/-! ### Delivered files -/

/-- Renaming moves the bytes. -/
theorem rename_read {fs fs' : FileSys PathBuf} {p q : PathBuf} {i : Nat} (h : fs.rename p q = some fs')
    (hp : fs.node p = some (.file i)) : fs'.read q = some (fs.data i) := by
  obtain ⟨⟨j, hj, hq⟩, -, -, hdata⟩ := FileSys.rename_spec h
  rw [hp] at hj
  cases hj
  simp [FileSys.read, hq, hdata]

/-- Whole transfers are delivered intact. -/
theorem intact_of_whole {sha256 : Bytes → Digest} {cfg : XferConfig} {s : History} {f : Frame}
    (hw : Whole cfg s) : Intact sha256 cfg s f := by
  intro id sha tmp dest detail hm hren hack
  have hout : handled sha256 cfg s f = onEnd sha256 cfg f.registry f.io s.rx f.peer id sha := by
    simp only [handled, hm, handleBlob]
  rw [hout] at hren hack ⊢
  have hno : ∀ (io : Io) (fs : FileSys PathBuf) (p : PathBuf), Effect.rename tmp dest ∉ (tryRemove io fs p).2 := by
    intro io fs p h
    cases mem_tryRemove h
  rcases onEnd_cases sha256 cfg f.registry f.io s.rx f.peer id sha with
    ⟨-, h⟩ | ⟨inc, d, -, h⟩ | ⟨inc, bytes, -, -, -, h⟩ | ⟨inc, tmp', dir, file, fs, shown, hl, -, hs, hren', h⟩ |
    ⟨inc, tmp', dir, file, d, -, -, h⟩
  · rw [h] at hren; cases hren
  · rw [h] at hren
    cases hsink : inc.sink with
    | memory buf => simp [cleanup, hsink, reject] at hren
    | file t d' fl => simp [cleanup, hsink, reject, hno] at hren
  · rw [h] at hren
    split at hren <;> simp at hren
  · rw [h] at hren ⊢
    simp only [List.mem_cons, Effect.rename.injEq, reduceCtorEq, List.not_mem_nil, or_false] at hren
    obtain ⟨rfl, rfl⟩ := hren
    have hok := hw.files _ inc tmp dir file hl hs
    rw [rename_read hren' hok.node, hok.data, hw.hashed _ inc hl]
  · rw [h] at hren
    simp [hno, reject] at hren

/-- For every interleaving of the frames of any number of peers in which no frame makes two transfers share a file:
whatever is renamed into the download directory and acknowledged is exactly what was received for it. -/
theorem delivered_intact (sha256 : Bytes → Digest) (cfg : XferConfig) (fs : FileSys PathBuf)
    (frames : List Frame) (s : History) (f : Frame)
    (hr : Run (fun s f => some (receive sha256 cfg s f)) (fun s f => f.io = Io.ok ∧ KeepsApart cfg s f)
      (History.start fs) frames s) : Intact sha256 cfg s f := by
  apply intact_of_whole
  refine hr.invariant (whole_start cfg fs) ?_
  rintro s f t hw ⟨hio, hap⟩ ht
  cases ht
  exact whole_receive hw (by rw [hio]; rfl) hap

/-! ### Two peers, one temp file -/

private def openConfig : XferConfig := ⟨"d", .never, false⟩

private def frameOf (peer : DeviceId) (msg : Message) : Frame := ⟨peer, msg, .absent, Io.ok⟩

/-- Peers `a` and `b` both send a file `x` under id 1; `b` starts after `a`'s chunk has arrived. -/
private def sharedFrames : List Frame :=
  [frameOf "a" (.blobStart 1 "x" 2 .file), frameOf "a" (.blobChunk 1 [1, 2]),
    frameOf "b" (.blobStart 1 "x" 1 .file), frameOf "b" (.blobChunk 1 [7])]

/-- `b`'s `BlobStart` truncates the temp file `a` is writing, so `a`'s file is delivered and acknowledged with
`b`'s bytes, whatever the digest function. -/
theorem temp_file_is_shared :
    ¬ ∃ sha256 : Bytes → Digest, ∀ (cfg : XferConfig) (fs : FileSys PathBuf) (frames : List Frame) (s : History)
      (f : Frame), Run (fun s f => some (receive sha256 cfg s f)) (fun _ f => f.io = Io.ok) (History.start fs)
        frames s → f.io = Io.ok → Intact sha256 cfg s f := by
  rintro ⟨sha256, h⟩
  have hrun := run_of_total (receive sha256 openConfig) (fun f => f.io = Io.ok) (History.start FileSys.empty)
    sharedFrames (by decide)
  generalize hs : sharedFrames.foldl (receive sha256 openConfig) (History.start FileSys.empty) = s at hrun
  have hint := h openConfig FileSys.empty sharedFrames s (frameOf "a" (.blobEnd 1 (sha256 [1, 2]))) hrun rfl
  have hl : s.rx.incoming.lookup ("a", 1) = some ⟨"x", .file "d/.x.1.part" "d" ⟨⟨0, 2⟩, false⟩, [1, 2], 2, 2⟩ := by
    rw [← hs]; rfl
  have hdest : uniqueDest s.rx.fs "d" "x" = "d/x" := by rw [← hs]; rfl
  obtain ⟨fs', hren, hread⟩ : ∃ fs', s.rx.fs.rename "d/.x.1.part" "d/x" = some fs' ∧ fs'.read "d/x" = some [7] := by
    rw [← hs]; exact ⟨_, rfl, rfl⟩
  have hrec : received ("a", 1) s.log = [1, 2] := by rw [← hs]; rfl
  obtain ⟨shown, hout⟩ : ∃ shown, handled sha256 openConfig s (frameOf "a" (.blobEnd 1 (sha256 [1, 2]))) =
      (⟨s.rx.incoming.erase ("a", 1), fs'⟩, [.rename "d/.x.1.part" "d/x", .send "a" (.blobAck 1 true "x"),
        .notify s!"Received x" shown]) := by
    rw [← hdest] at hren ⊢
    exact onEnd_place _ _ _ _ hl rfl (Or.inr rfl) rfl rfl hren
  have := hint 1 (sha256 [1, 2]) "d/.x.1.part" "d/x" "x" rfl (by rw [hout]; simp) (by rw [hout]; simp [frameOf])
  rw [hout] at this
  have hbytes : fs'.read "d/x" = some (received ("a", 1) s.log) := this
  rw [hread, hrec] at hbytes
  exact absurd hbytes (by decide)

/-- Two peers sending files of the same name under different ids. -/
private def apartFrames : List Frame :=
  [frameOf "a" (.blobStart 1 "x" 2 .file), frameOf "b" (.blobStart 2 "x" 1 .file),
    frameOf "a" (.blobChunk 1 [1, 2])]

theorem delivered_intact_two_peers :
    Intact (fun _ => Vector.replicate 32 0) openConfig
      (apartFrames.foldl (receive (fun _ => Vector.replicate 32 0) openConfig) (History.start FileSys.empty))
      (frameOf "a" (.blobEnd 1 (Vector.replicate 32 0))) := by
  refine delivered_intact _ _ FileSys.empty apartFrames _ _ ?_
  refine (((Run.nil _).snoc (e := frameOf "a" (.blobStart 1 "x" 2 .file)) ⟨rfl, ?_⟩ rfl).snoc
    (e := frameOf "b" (.blobStart 2 "x" 1 .file)) ⟨rfl, ?_⟩ rfl).snoc
    (e := frameOf "a" (.blobChunk 1 [1, 2])) ⟨rfl, trivial⟩ rfl
  · intro safe k inc tmp file _ hk
    cases hk
  · intro safe k inc tmp file _ hk _ hid _
    have hne : k ≠ ("a", 1) := by rintro rfl; cases hid
    have hk : (AList.insert ("a", 1) _ (∅ : AList fun _ : XferKey => Incoming)).lookup k = some inc := hk
    rw [AList.lookup_insert_ne hne] at hk
    cases hk

end Qdrop
