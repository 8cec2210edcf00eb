import Qdrop.FileXfer.Confined

/-!
# Temp files and the files already there

`File::create` truncates what it finds at the temp path, `rename` replaces what it finds at the destination, and
inserting an entry replaces the one with the same key.  The temp path names the directory, the file and the id, all
chosen by the peer, so each of these can hit a file that is not the transfer's own.

`files_kept_iff` and `no_stray_temps_iff` say in which runs this does not happen: a frame opens its temp file where
there is none (`OpensTemp`), and finishes a transfer while one of the candidate names is free (`Finishes`).
-/

namespace Qdrop

open Lib

/-! ### What a frame does to the entries and the disk -/

/-- `p` is the temp file of the transfer `k`. -/
def TempOf (st : Rx) (k : XferKey) (p : PathBuf) : Prop :=
  ∃ inc dir file, st.incoming.lookup k = some inc ∧ inc.sink = .file p dir file

/-- There is a regular file at `p`. -/
def HasFile (fs : FileSys PathBuf) (p : PathBuf) : Prop := ∃ i, fs.node p = some (.file i)

/-- The frame is a `BlobStart` that opens the temp file `p`: there is a slot, the name is safe, and the directory and
the file can be created. -/
def OpensTemp (cfg : XferConfig) (s : History) (f : Frame) (p : PathBuf) : Prop :=
  ∃ id name size safe, f.msg = .blobStart id name size .file ∧
    s.rx.incoming.keys.length < maxConcurrentIncoming ∧ safeBlobName name = some safe ∧
    f.io.failMkdir = false ∧ f.io.failCreate = false ∧ ¬ HasFile s.rx.fs (finalDirFor cfg f.registry f.peer) ∧
    s.rx.fs.node p ≠ some .dir ∧ p = tmpPathFor (finalDirFor cfg f.registry f.peer) safe id

/-- The frame is a `BlobStart` that opens an image in memory. -/
def OpensImage (cfg : XferConfig) (s : History) (f : Frame) : Prop :=
  ∃ id name size, f.msg = .blobStart id name size .clipboardImage ∧
    s.rx.incoming.keys.length < maxConcurrentIncoming ∧ cfg.clipSink = true ∧ size ≤ maxMemBlob

/-- The frame is the `BlobEnd` of a file that passes both checks, and renaming does not fail by itself. -/
def Finishes (sha256 : Bytes → Digest) (s : History) (f : Frame) (p dir : PathBuf) (name : String) : Prop :=
  ∃ id sha inc file, f.msg = .blobEnd id sha ∧ s.rx.incoming.lookup (f.peer, id) = some inc ∧
    inc.sink = .file p dir file ∧ sha256 inc.hasher = sha ∧ (inc.declared = 0 ∨ inc.written = inc.declared) ∧
    f.io.failRename = false ∧ inc.name = name

/-- The same regular files with the same inodes. -/
def SameFiles (fs fs' : FileSys PathBuf) : Prop := ∀ p i, fs'.node p = some (.file i) ↔ fs.node p = some (.file i)

/-- What one frame can do. -/
inductive FrameOutcome (sha256 : Bytes → Digest) (cfg : XferConfig) (s : History) (f : Frame) : Rx × List Effect → Prop
  | idle {fs : FileSys PathBuf} {effs : List Effect} (hsame : SameFiles s.rx.fs fs) (hdata : fs.data = s.rx.fs.data)
      (heffs : ∀ eff ∈ effs, eff.files = []) : FrameOutcome sha256 cfg s f (⟨s.rx.incoming, fs⟩, effs)
  | image {k : XferKey} {inc : Incoming} (hkey : f.key? = some k) (hopen : OpensImage cfg s f)
      (hs : inc.sink = .memory []) : FrameOutcome sha256 cfg s f (⟨s.rx.incoming.insert k inc, s.rx.fs⟩, [])
  | opened {k : XferKey} {inc : Incoming} {p dir : PathBuf} {fs : FileSys PathBuf} {h : Handle}
      (hkey : f.key? = some k) (hopen : OpensTemp cfg s f p) (hs : inc.sink = .file p dir ⟨h, false⟩)
      (hnode : fs.node p = some (.file h.ino))
      (hother : ∀ q i, q ≠ p → (fs.node q = some (.file i) ↔ s.rx.fs.node q = some (.file i)))
      (hino : ∀ q, q ≠ p → s.rx.fs.node q ≠ some (.file h.ino))
      (hdata : ∀ i, i ≠ h.ino → fs.data i = s.rx.fs.data i) :
      FrameOutcome sha256 cfg s f (⟨s.rx.incoming.insert k inc, fs⟩, [.mkdir dir, .create p])
  | written {k : XferKey} {inc inc' : Incoming} {p dir : PathBuf} {file file' : OpenFile} {fs : FileSys PathBuf}
      (hkey : f.key? = some k) (hl : s.rx.incoming.lookup k = some inc) (hs : inc.sink = .file p dir file)
      (hs' : inc'.sink = .file p dir file') (hino : file'.handle.ino = file.handle.ino)
      (hnode : fs.node = s.rx.fs.node) (hdata : ∀ i, i ≠ file.handle.ino → fs.data i = s.rx.fs.data i) :
      FrameOutcome sha256 cfg s f (⟨s.rx.incoming.insert k inc', fs⟩, [.write p])
  | buffered {k : XferKey} {inc inc' : Incoming} {buf buf' : Bytes} (hkey : f.key? = some k)
      (hl : s.rx.incoming.lookup k = some inc) (hs : inc.sink = .memory buf) (hs' : inc'.sink = .memory buf') :
      FrameOutcome sha256 cfg s f (⟨s.rx.incoming.insert k inc', s.rx.fs⟩, [])
  | dropped {k : XferKey} {inc : Incoming} {p dir : PathBuf} {file : OpenFile} {fs : FileSys PathBuf}
      {before after : List Effect} (hkey : f.key? = some k) (hl : s.rx.incoming.lookup k = some inc)
      (hs : inc.sink = .file p dir file) (hnode : fs.node = s.rx.fs.node)
      (hdata : ∀ i, i ≠ file.handle.ino → fs.data i = s.rx.fs.data i) (hbefore : before = [] ∨ before = [.write p])
      (hafter : ∀ eff ∈ after, eff.files = []) :
      FrameOutcome sha256 cfg s f (⟨s.rx.incoming.erase k, (tryRemove f.io fs p).1⟩,
        before ++ (tryRemove f.io fs p).2 ++ after)
  | forgotten {k : XferKey} {inc : Incoming} {buf : Bytes} {effs : List Effect} (hkey : f.key? = some k)
      (hl : s.rx.incoming.lookup k = some inc) (hs : inc.sink = .memory buf) (heffs : ∀ eff ∈ effs, eff.files = []) :
      FrameOutcome sha256 cfg s f (⟨s.rx.incoming.erase k, s.rx.fs⟩, effs)
  | placed {k : XferKey} {inc : Incoming} {p dir : PathBuf} {file : OpenFile} {fs : FileSys PathBuf}
      {after : List Effect} (hkey : f.key? = some k) (hl : s.rx.incoming.lookup k = some inc)
      (hs : inc.sink = .file p dir file) (hfin : Finishes sha256 s f p dir inc.name)
      (hren : s.rx.fs.rename p (uniqueDest s.rx.fs dir inc.name) = some fs)
      (hafter : ∀ eff ∈ after, eff.files = []) :
      FrameOutcome sha256 cfg s f (⟨s.rx.incoming.erase k, fs⟩, .rename p (uniqueDest s.rx.fs dir inc.name) :: after)

section Outcomes

variable {sha256 : Bytes → Digest} {cfg : XferConfig} {s : History} {f : Frame}

theorem sameFiles_refl (fs : FileSys PathBuf) : SameFiles fs fs := fun _ _ => Iff.rfl

/-- Making a directory makes and removes no regular file. -/
theorem sameFiles_createDirAll {fs fs' : FileSys PathBuf} {d : PathBuf} (h : fs.createDirAll d = some fs') :
    SameFiles fs fs' := by
  obtain ⟨hd, hother, -, hno⟩ := FileSys.createDirAll_spec h
  intro p i
  by_cases hp : p = d
  · subst hp
    constructor
    · intro hi
      rw [hd] at hi
      cases hi
    · intro hi
      exact absurd hi (hno i)
  · rw [hother p hp]

/-- A temp file is only created when the operating system lets it. -/
private theorem onStart_create {registry : PeersFile} {io : Io} {st : Rx} {peerId : DeviceId} {id : Nat}
    {name : String} {size : Nat} {purpose : BlobPurpose} {p : PathBuf}
    (h : Effect.create p ∈ (onStart cfg registry io st peerId id name size purpose).2) :
    io.failMkdir = false ∧ io.failCreate = false := by
  unfold onStart openTemp at h
  split at h
  · simp [reject] at h
  · cases purpose with
    | clipboardImage =>
      dsimp only at h
      split at h
      · simp [reject] at h
      · split at h
        · simp [reject] at h
        · simp at h
    | file =>
      dsimp only at h
      split at h
      · simp [reject] at h
      · split at h
        · simp [reject] at h
        · rename_i hmk
          split at h
          · simp [reject] at h
          · rename_i hcr
            constructor
            · by_contra hf
              rw [if_pos (by simpa using hf)] at hmk
              cases hmk
            · by_contra hf
              rw [if_pos (by simpa using hf)] at hcr
              cases hcr

private theorem onStart_image_nil {registry : PeersFile} {io : Io} {st : Rx} {peerId : DeviceId} {id : Nat}
    {name : String} {size : Nat} (h : (onStart cfg registry io st peerId id name size .clipboardImage).2 = []) :
    cfg.clipSink = true := by
  unfold onStart at h
  split at h
  · simp at h
  · dsimp only at h
    split at h
    · simp at h
    · rename_i hc
      simpa using hc

private theorem outcome_start {id size : Nat} {name : String} {purpose : BlobPurpose}
    (hm : f.msg = .blobStart id name size purpose) : FrameOutcome sha256 cfg s f (handled sha256 cfg s f) := by
  have hkey : f.key? = some (f.peer, id) := by simp only [Frame.key?, hm]
  have hout : handled sha256 cfg s f = onStart cfg f.registry f.io s.rx f.peer id name size purpose := by
    simp only [handled, hm, handleBlob]
  rw [hout]
  rcases onStart_cases cfg f.registry f.io s.rx f.peer id name size purpose with
    ⟨detail, h⟩ | ⟨fs, detail, hmk, h⟩ | ⟨rfl, hlen, hsize, h⟩ |
    ⟨safe, fs, fs', handle, rfl, hsafe, hlen, hmk, hcr, h⟩
  · rw [h]
    refine .idle (sameFiles_refl _) rfl ?_
    intro eff he
    rw [List.mem_singleton.1 he]
    rfl
  · rw [h]
    obtain ⟨-, -, hdata, -⟩ := FileSys.createDirAll_spec hmk
    refine .idle (sameFiles_createDirAll hmk) hdata ?_
    intro eff he
    simp only [List.mem_cons, List.not_mem_nil, or_false] at he
    rcases he with rfl | rfl <;> rfl
  · have hclip : cfg.clipSink = true := onStart_image_nil (by rw [h])
    rw [h]
    exact .image hkey ⟨id, name, size, hm, hlen, hclip, hsize⟩ rfl
  · have hio := onStart_create (p := tmpPathFor (finalDirFor cfg f.registry f.peer) safe id) (by rw [h]; simp)
    rw [h]
    obtain ⟨hd, hdother, hddata, hdno⟩ := FileSys.createDirAll_spec hmk
    obtain ⟨hnode, -, -, hother, hdata⟩ := FileSys.create_spec hcr
    have hbare := safeBlobName_bare hsafe
    have hne : tmpPathFor (finalDirFor cfg f.registry f.peer) safe id ≠ finalDirFor cfg f.registry f.peer :=
      tmpPathFor_ne_self hbare.2.2.2
    have hsame := sameFiles_createDirAll hmk
    refine .opened hkey ⟨id, name, size, safe, hm, hlen, hsafe, hio.1, hio.2, ?_, ?_, rfl⟩ rfl hnode ?_ ?_ ?_
    · rintro ⟨i, hi⟩
      exact hdno i hi
    · intro hdir
      rw [← hdother _ hne] at hdir
      unfold FileSys.create at hcr
      rw [hdir] at hcr
      cases hcr
    · intro q i hq
      rw [(hother q hq).1]
      exact hsame q i
    · intro q hq hi
      exact (hother q hq).2 ((hsame q handle.ino).2 hi)
    · intro i hi
      rw [hdata i hi, hddata]

private theorem outcome_chunk {id : Nat} {data : Bytes} (hm : f.msg = .blobChunk id data) :
    FrameOutcome sha256 cfg s f (handled sha256 cfg s f) := by
  have hkey : f.key? = some (f.peer, id) := by simp only [Frame.key?, hm]
  have hout : handled sha256 cfg s f = onChunk f.io s.rx f.peer id data := by
    simp only [handled, hm, handleBlob]
  rw [hout]
  rcases onChunk_cases f.io s.rx f.peer id data with
    ⟨-, h⟩ | ⟨inc, tmp, dir, file, fs, file', hl, hs, hw, h⟩ | ⟨inc, tmp, dir, file, fs, file', hl, hs, hw, h⟩ |
    ⟨inc, buf, hl, hs, -, h⟩ | ⟨inc, buf, hl, hs, h⟩
  · rw [h]
    exact .idle (sameFiles_refl _) rfl (fun eff he => by cases he)
  · rw [h]
    obtain ⟨hnode, hino, hdata⟩ := writeAll_frame hw
    exact .written hkey hl hs rfl hino hnode hdata
  · rw [h]
    obtain ⟨hnode, -, hdata⟩ := writeAll_frame hw
    show FrameOutcome sha256 cfg s f (⟨s.rx.incoming.erase (f.peer, id), (tryRemove f.io fs tmp).1⟩,
      [.write tmp] ++ (tryRemove f.io fs tmp).2 ++ [reject f.peer id "write failed"])
    refine .dropped hkey hl hs hnode hdata (Or.inr rfl) ?_
    intro eff he
    rw [List.mem_singleton.1 he]
    rfl
  · rw [h]
    exact .buffered hkey hl hs rfl
  · rw [h]
    refine .forgotten hkey hl hs ?_
    intro eff he
    rw [List.mem_singleton.1 he]
    rfl

private theorem outcome_end {id : Nat} {sha : Digest} (hm : f.msg = .blobEnd id sha) :
    FrameOutcome sha256 cfg s f (handled sha256 cfg s f) := by
  have hkey : f.key? = some (f.peer, id) := by simp only [Frame.key?, hm]
  have hout : handled sha256 cfg s f = onEnd sha256 cfg f.registry f.io s.rx f.peer id sha := by
    simp only [handled, hm, handleBlob]
  have hreject : ∀ detail, ∀ eff ∈ [reject f.peer id detail], eff.files = [] := by
    intro detail eff he
    rw [List.mem_singleton.1 he]
    rfl
  rw [hout]
  cases hl : s.rx.incoming.lookup (f.peer, id) with
  | none =>
    have h : onEnd sha256 cfg f.registry f.io s.rx f.peer id sha = (s.rx, []) := by simp only [onEnd, hl]
    rw [h]
    exact .idle (sameFiles_refl _) rfl (fun eff he => by cases he)
  | some inc =>
    cases hs : inc.sink with
    | memory buf =>
      unfold onEnd
      simp only [hl, hs]
      split
      · exact .forgotten hkey hl hs (hreject _)
      · split
        · exact .forgotten hkey hl hs (hreject _)
        · refine .forgotten hkey hl hs ?_
          intro eff he
          rcases List.mem_append.1 he with he | he
          · split at he
            · rw [List.mem_singleton.1 he]
              rfl
            · cases he
          · rw [List.mem_singleton.1 he]
            rfl
    | file tmp dir file =>
      have hdrop : ∀ detail, FrameOutcome sha256 cfg s f (⟨s.rx.incoming.erase (f.peer, id),
          (tryRemove f.io s.rx.fs tmp).1⟩, [] ++ (tryRemove f.io s.rx.fs tmp).2 ++ [reject f.peer id detail]) :=
        fun detail => .dropped hkey hl hs rfl (fun _ _ => rfl) (Or.inl rfl) (hreject detail)
      unfold onEnd
      simp only [hl, hs, cleanup]
      split
      · exact hdrop _
      · rename_i hsha
        split
        · exact hdrop _
        · rename_i hsize
          unfold place
          dsimp only
          split
          · exact hdrop _
          · rename_i fs hren
            have hio : f.io.failRename = false := by
              by_contra hf
              rw [if_pos (by simpa using hf)] at hren
              cases hren
            rw [hio, if_neg Bool.false_ne_true] at hren
            refine .placed hkey hl hs ⟨id, sha, inc, file, hm, hl, hs, by simpa using hsha, ?_, hio, rfl⟩ hren ?_
            · by_cases h0 : inc.declared = 0
              · exact Or.inl h0
              · exact Or.inr (by simpa [h0] using hsize)
            · intro eff he
              simp only [List.mem_cons, List.not_mem_nil, or_false] at he
              rcases he with rfl | rfl <;> rfl

/-- Every frame has one of these outcomes. -/
theorem frameOutcome (sha256 : Bytes → Digest) (cfg : XferConfig) (s : History) (f : Frame) :
    FrameOutcome sha256 cfg s f (handled sha256 cfg s f) := by
  cases hm : f.msg with
  | blobStart id name size purpose => exact outcome_start hm
  | blobChunk id data => exact outcome_chunk hm
  | blobEnd id sha => exact outcome_end hm
  | _ =>
    have hout : handled sha256 cfg s f = (s.rx, []) := by simp only [handled, hm, handleBlob]
    rw [hout]
    exact .idle (sameFiles_refl _) rfl (fun eff he => by cases he)

/-- A `BlobStart` that can open its temp file does. -/
theorem handled_opens (sha256 : Bytes → Digest) (cfg : XferConfig) {id size : Nat} {name safe : String}
    (hm : f.msg = .blobStart id name size .file) (hlen : s.rx.incoming.keys.length < maxConcurrentIncoming)
    (hsafe : safeBlobName name = some safe) (hmk : f.io.failMkdir = false) (hcr : f.io.failCreate = false)
    (hdir : ¬ HasFile s.rx.fs (finalDirFor cfg f.registry f.peer))
    (hp : s.rx.fs.node (tmpPathFor (finalDirFor cfg f.registry f.peer) safe id) ≠ some .dir) :
    ∃ handle fs, fs.node (tmpPathFor (finalDirFor cfg f.registry f.peer) safe id) = some (.file handle.ino) ∧
      handle.pos = 0 ∧ fs.data handle.ino = [] ∧
      handled sha256 cfg s f = (⟨s.rx.incoming.insert (f.peer, id) ⟨safe,
          .file (tmpPathFor (finalDirFor cfg f.registry f.peer) safe id) (finalDirFor cfg f.registry f.peer)
            ⟨handle, false⟩, [], 0, size⟩, fs⟩,
        [.mkdir (finalDirFor cfg f.registry f.peer),
          .create (tmpPathFor (finalDirFor cfg f.registry f.peer) safe id)]) := by
  have hne : tmpPathFor (finalDirFor cfg f.registry f.peer) safe id ≠ finalDirFor cfg f.registry f.peer :=
    tmpPathFor_ne_self (safeBlobName_bare hsafe).2.2.2
  obtain ⟨fs, hfs⟩ : ∃ fs, s.rx.fs.createDirAll (finalDirFor cfg f.registry f.peer) = some fs :=
    FileSys.createDirAll_some fun i hi => hdir ⟨i, hi⟩
  obtain ⟨-, hdother, -, -⟩ := FileSys.createDirAll_spec hfs
  obtain ⟨fs', handle, hc⟩ : ∃ fs' handle,
      fs.create (tmpPathFor (finalDirFor cfg f.registry f.peer) safe id) = some (fs', handle) :=
    FileSys.create_some (by rw [hdother _ hne]; exact hp)
  have hlen' : ¬ maxConcurrentIncoming ≤ s.rx.incoming.keys.length := by omega
  obtain ⟨hnode, hpos, hdata, -⟩ := FileSys.create_spec hc
  refine ⟨handle, fs', hnode, hpos, hdata, ?_⟩
  simp only [handled, hm, handleBlob, onStart, hlen', hsafe, openTemp, hmk, hcr, hfs, hc, if_false, Bool.false_eq_true]

private theorem opensTemp_handled {p : PathBuf} (sha256 : Bytes → Digest) (h : OpensTemp cfg s f p) :
    ∃ k inc dir file fs, f.key? = some k ∧ inc.sink = .file p dir file ∧
      handled sha256 cfg s f = (⟨s.rx.incoming.insert k inc, fs⟩, [.mkdir dir, .create p]) := by
  obtain ⟨id, name, size, safe, hm, hlen, hsafe, hmk, hcr, hdir, hp, rfl⟩ := h
  obtain ⟨handle, fs, -, -, -, hout⟩ := handled_opens sha256 cfg hm hlen hsafe hmk hcr hdir hp
  exact ⟨(f.peer, id), ⟨safe, .file (tmpPathFor (finalDirFor cfg f.registry f.peer) safe id)
    (finalDirFor cfg f.registry f.peer) ⟨handle, false⟩, [], 0, size⟩, _, _, fs, by simp only [Frame.key?, hm], rfl,
    hout⟩

private theorem opensImage_handled (sha256 : Bytes → Digest) (h : OpensImage cfg s f) :
    ∃ k inc buf, f.key? = some k ∧ inc.sink = .memory buf ∧
      handled sha256 cfg s f = (⟨s.rx.incoming.insert k inc, s.rx.fs⟩, []) := by
  obtain ⟨id, name, size, hm, hlen, hclip, hsize⟩ := h
  have hlen' : ¬ maxConcurrentIncoming ≤ s.rx.incoming.keys.length := by omega
  have hsize' : ¬ maxMemBlob < size := by omega
  refine ⟨(f.peer, id), ⟨"clipboard-image", .memory [], [], 0, size⟩, [], by simp only [Frame.key?, hm], rfl, ?_⟩
  simp only [handled, hm, handleBlob, onStart, hlen', hclip, hsize', if_false, Bool.not_true, Bool.false_eq_true]

/-- A `BlobEnd` that passes the checks renames the temp file when the disk lets it. -/
private theorem finishes_handled (cfg : XferConfig) {p dir : PathBuf} {name : String} {fs : FileSys PathBuf}
    (h : Finishes sha256 s f p dir name) (hren : s.rx.fs.rename p (uniqueDest s.rx.fs dir name) = some fs) :
    ∃ k inc file after, f.key? = some k ∧ s.rx.incoming.lookup k = some inc ∧ inc.sink = .file p dir file ∧
      handled sha256 cfg s f =
        (⟨s.rx.incoming.erase k, fs⟩, .rename p (uniqueDest s.rx.fs dir name) :: after) := by
  obtain ⟨id, sha, inc, file, hm, hl, hs, hsha, hsize, hio, rfl⟩ := h
  obtain ⟨shown, hout⟩ := onEnd_place sha256 cfg f.registry f.io hl hsha hsize hs hio hren
  refine ⟨(f.peer, id), inc, file, [.send f.peer (.blobAck id true inc.name),
    .notify s!"Received {inc.name}" shown], by simp only [Frame.key?, hm], hl, hs, ?_⟩
  simp only [handled, hm, handleBlob]
  exact hout

end Outcomes

/-! ### Every transfer has a temp file of its own -/

/-- Every file transfer has its own temp path, and the file there is the one it has open. -/
structure OwnTemps (st : Rx) : Prop where
  own : ∀ k inc p dir file, st.incoming.lookup k = some inc → inc.sink = .file p dir file →
    st.fs.node p = some (.file file.handle.ino)
  apart : ∀ k k' p, TempOf st k p → TempOf st k' p → k = k'

/-- The frame opens no temp file that another transfer has open, and does not rename onto one. -/
def SparesTemps (sha256 : Bytes → Digest) (cfg : XferConfig) (s : History) (f : Frame) : Prop :=
  (∀ p, OpensTemp cfg s f p → ∀ k, TempOf s.rx k p → f.key? = some k) ∧
  ∀ p dir name, Finishes sha256 s f p dir name → (∀ n ∈ destNames name, s.rx.fs.present (join dir n) = true) →
    ∀ k, TempOf s.rx k (join dir name) → f.key? = some k

theorem ownTemps_start (fs : FileSys PathBuf) : OwnTemps (History.start fs).rx where
  own k inc p dir file h := by cases h
  apart k k' p h := by
    obtain ⟨inc, dir, file, hl, -⟩ := h
    cases hl

theorem OwnTemps.hasFile {st : Rx} (h : OwnTemps st) {k : XferKey} {p : PathBuf} (hp : TempOf st k p) :
    HasFile st.fs p := by
  obtain ⟨inc, dir, file, hl, hs⟩ := hp
  exact ⟨_, h.own k inc p dir file hl hs⟩

section Entries

variable {m : AList fun _ : XferKey => Incoming} {fs fs' : FileSys PathBuf} {k k' : XferKey} {inc : Incoming}
  {p q : PathBuf}

theorem tempOf_insert_ne (h : k' ≠ k) : TempOf ⟨m.insert k inc, fs'⟩ k' q ↔ TempOf ⟨m, fs⟩ k' q := by
  simp only [TempOf, AList.lookup_insert_ne h]

theorem tempOf_insert_self : TempOf ⟨m.insert k inc, fs⟩ k q ↔ ∃ dir file, inc.sink = .file q dir file := by
  simp only [TempOf, AList.lookup_insert, Option.some.injEq, exists_and_left, exists_eq_left']

/-- An entry with the temp file of the one it replaces leaves the set of temp files as it is. -/
theorem exists_tempOf_insert (h : (∃ dir file, inc.sink = .file q dir file) ↔ TempOf ⟨m, fs⟩ k q) :
    (∃ k', TempOf ⟨m, fs⟩ k' q) ↔ ∃ k', TempOf ⟨m.insert k inc, fs'⟩ k' q := by
  constructor
  · rintro ⟨k', hk'⟩
    by_cases hkk : k' = k
    · subst hkk
      exact ⟨k', tempOf_insert_self.2 (h.2 hk')⟩
    · exact ⟨k', (tempOf_insert_ne hkk).2 hk'⟩
  · rintro ⟨k', hk'⟩
    by_cases hkk : k' = k
    · subst hkk
      exact ⟨k', h.1 (tempOf_insert_self.1 hk')⟩
    · exact ⟨k', (tempOf_insert_ne hkk).1 hk'⟩

theorem tempOf_erase_ne (h : k' ≠ k) : TempOf ⟨m.erase k, fs'⟩ k' q ↔ TempOf ⟨m, fs⟩ k' q := by
  simp only [TempOf, AList.lookup_erase_ne h]

theorem not_tempOf_erase_self : ¬ TempOf ⟨m.erase k, fs⟩ k q := by
  rintro ⟨inc, dir, file, hl, -⟩
  have hl : (m.erase k).lookup k = some inc := hl
  rw [AList.lookup_erase] at hl
  cases hl

/-- What is left after erasing was there before. -/
theorem tempOf_of_erase (h : TempOf ⟨m.erase k, fs'⟩ k' q) : k' ≠ k ∧ TempOf ⟨m, fs⟩ k' q := by
  by_cases hk : k' = k
  · subst hk
    exact absurd h not_tempOf_erase_self
  · exact ⟨hk, (tempOf_erase_ne hk).1 h⟩

theorem TempOf.eq_of_lookup {st : Rx} {dir : PathBuf} {file : OpenFile} (h : TempOf st k q)
    (hl : st.incoming.lookup k = some inc) (hs : inc.sink = .file p dir file) : q = p := by
  obtain ⟨inc', dir', file', hl', hs'⟩ := h
  rw [hl] at hl'
  cases hl'
  rw [hs] at hs'
  cases hs'
  rfl

theorem TempOf.not_memory {st : Rx} {buf : Bytes} (h : TempOf st k q) (hl : st.incoming.lookup k = some inc)
    (hs : inc.sink = .memory buf) : False := by
  obtain ⟨inc', dir', file', hl', hs'⟩ := h
  rw [hl] at hl'
  cases hl'
  rw [hs] at hs'
  cases hs'

end Entries

/-- Putting in an entry keeps the temp files apart when the others' stay on the disk and no other transfer has the
new one. -/
private theorem OwnTemps.insert {st : Rx} (h : OwnTemps st) {k : XferKey} {inc : Incoming} {fs : FileSys PathBuf}
    (hother : ∀ k' inc' p dir file, k' ≠ k → st.incoming.lookup k' = some inc' → inc'.sink = .file p dir file →
      fs.node p = some (.file file.handle.ino))
    (hself : ∀ p dir file, inc.sink = .file p dir file →
      fs.node p = some (.file file.handle.ino) ∧ ∀ k', TempOf st k' p → k' = k) :
    OwnTemps ⟨st.incoming.insert k inc, fs⟩ where
  own k' inc' p dir file hl hs := by
    have hl : (st.incoming.insert k inc).lookup k' = some inc' := hl
    rcases lookup_insert_eq_some.1 hl with ⟨rfl, rfl⟩ | ⟨hk, hl⟩
    · exact (hself p dir file hs).1
    · exact hother k' inc' p dir file hk hl hs
  apart k₁ k₂ p h₁ h₂ := by
    -- a temp path of the new entry is no other entry's
    have hnew : ∀ k', k' ≠ k → TempOf ⟨st.incoming.insert k inc, fs⟩ k' p →
        TempOf ⟨st.incoming.insert k inc, fs⟩ k p → False := by
      intro k' hk hp hp'
      obtain ⟨dir, file, hs⟩ := tempOf_insert_self.1 hp'
      exact hk ((hself p dir file hs).2 k' ((tempOf_insert_ne hk).1 hp))
    by_cases hk₁ : k₁ = k
    · by_cases hk₂ : k₂ = k
      · rw [hk₁, hk₂]
      · subst hk₁
        exact (hnew k₂ hk₂ h₂ h₁).elim
    · by_cases hk₂ : k₂ = k
      · subst hk₂
        exact (hnew k₁ hk₁ h₁ h₂).elim
      · exact h.apart k₁ k₂ p ((tempOf_insert_ne hk₁).1 h₁) ((tempOf_insert_ne hk₂).1 h₂)

/-- Taking out an entry keeps the temp files apart when the others' stay on the disk. -/
private theorem OwnTemps.erase {st : Rx} (h : OwnTemps st) {k : XferKey} {fs : FileSys PathBuf}
    (hother : ∀ k' inc' p dir file, k' ≠ k → st.incoming.lookup k' = some inc' → inc'.sink = .file p dir file →
      fs.node p = some (.file file.handle.ino)) : OwnTemps ⟨st.incoming.erase k, fs⟩ where
  own k' inc' p dir file hl hs := by
    have hl : (st.incoming.erase k).lookup k' = some inc' := hl
    obtain ⟨hk, hl⟩ := lookup_erase_eq_some.1 hl
    exact hother k' inc' p dir file hk hl hs
  apart k₁ k₂ p h₁ h₂ := h.apart k₁ k₂ p (tempOf_of_erase h₁).2 (tempOf_of_erase h₂).2

section Step

variable {sha256 : Bytes → Digest} {cfg : XferConfig} {s : History} {f : Frame}

/-- Other transfers have other temp files. -/
private theorem OwnTemps.ne_of_lookup {st : Rx} (h : OwnTemps st) {k k' : XferKey} {inc inc' : Incoming}
    {p q dir dir' : PathBuf} {file file' : OpenFile} (hl : st.incoming.lookup k = some inc)
    (hs : inc.sink = .file p dir file) (hne : k' ≠ k) (hl' : st.incoming.lookup k' = some inc')
    (hs' : inc'.sink = .file q dir' file') : q ≠ p := by
  rintro rfl
  exact hne (h.apart k' k q ⟨inc', dir', file', hl', hs'⟩ ⟨inc, dir, file, hl, hs⟩)

/-- A destination that can be renamed onto and is not free is the first candidate, with all of them taken. -/
private theorem dest_of_rename {fs fs' : FileSys PathBuf} {p dir : PathBuf} {name : String}
    (hren : fs.rename p (uniqueDest fs dir name) = some fs') :
    fs.node (uniqueDest fs dir name) = none ∨ (uniqueDest fs dir name = join dir name ∧
      (∀ n ∈ destNames name, fs.present (join dir n) = true) ∧ HasFile fs (join dir name)) := by
  rcases uniqueDest_free fs dir name with hfree | ⟨hfirst, htaken⟩
  · exact Or.inl hfree
  · refine Or.inr ⟨hfirst, htaken, ?_⟩
    have hpresent := htaken name (List.mem_cons_self ..)
    obtain ⟨⟨i, hp, -⟩, -⟩ := FileSys.rename_spec hren
    cases hn : fs.node (join dir name) with
    | none =>
      rw [FileSys.present, hn] at hpresent
      cases hpresent
    | some node =>
      cases node with
      | file j => exact ⟨j, hn⟩
      | dir =>
        rw [hfirst, FileSys.rename_onto_dir hn] at hren
        cases hren

/-- `remove_file` leaves the other paths and all data alone. -/
theorem tryRemove_frame (io : Io) (fs : FileSys PathBuf) (p : PathBuf) :
    (∀ q, q ≠ p → (tryRemove io fs p).1.node q = fs.node q) ∧ (tryRemove io fs p).1.data = fs.data := by
  rcases tryRemove_cases io fs p with ⟨fs', hrm, heq⟩ | ⟨-, heq⟩
  · obtain ⟨-, hother, hdata⟩ := FileSys.removeFile_spec hrm
    rw [heq]
    exact ⟨hother, hdata⟩
  · rw [heq]
    exact ⟨fun _ _ => rfl, rfl⟩

/-- With all candidates taken and a file under the first one, a `BlobEnd` that passes the checks renames onto it. -/
private theorem finishes_onto_file (cfg : XferConfig) (h : OwnTemps s.rx) {p dir : PathBuf} {name : String}
    (hfin : Finishes sha256 s f p dir name) (htaken : ∀ n ∈ destNames name, s.rx.fs.present (join dir n) = true)
    (hfile : HasFile s.rx.fs (join dir name)) :
    ∃ k inc file fs after, f.key? = some k ∧ s.rx.incoming.lookup k = some inc ∧ inc.sink = .file p dir file ∧
      s.rx.fs.rename p (join dir name) = some fs ∧
      handled sha256 cfg s f = (⟨s.rx.incoming.erase k, fs⟩, .rename p (join dir name) :: after) := by
  obtain ⟨i, hi⟩ := hfile
  have hfirst := uniqueDest_taken htaken
  have hfin' := hfin
  obtain ⟨id, sha, inc, file, -, hl, hs, -⟩ := hfin'
  obtain ⟨fs, hren⟩ := FileSys.rename_of_not_dir (q := uniqueDest s.rx.fs dir name) (h.own _ inc p dir file hl hs)
    (by rw [hfirst, hi]; exact fun hd => by cases hd)
  obtain ⟨k, inc', file', after, hkey, hl', hs', hout⟩ := finishes_handled cfg hfin hren
  rw [hfirst] at hren hout
  exact ⟨k, inc', file', fs, after, hkey, hl', hs', hren, hout⟩

/-- The step lemma, one direction: a frame that spares the other temp files keeps every transfer's own. -/
private theorem ownTemps_outcome (h : OwnTemps s.rx) (hok : SparesTemps sha256 cfg s f) {out : Rx × List Effect}
    (ho : FrameOutcome sha256 cfg s f out) : OwnTemps out.1 := by
  cases ho with
  | idle hsame hdata heffs =>
    exact ⟨fun k inc p dir file hl hs => (hsame p _).2 (h.own k inc p dir file hl hs), h.apart⟩
  | image hkey hopen hs =>
    refine h.insert (fun k' inc' p dir file _ hl hs => h.own k' inc' p dir file hl hs) fun p dir file hf => ?_
    rw [hs] at hf
    cases hf
  | opened hkey hopen hs hnode hother hino hdata =>
    have hnot := hok.1 _ hopen
    refine h.insert (fun k' inc' q dir' file hk hl hs' => ?_) fun q dir' file hf => ?_
    · have hq := h.own k' inc' q dir' file hl hs'
      refine (hother q _ ?_).2 hq
      rintro rfl
      have hkk := hnot k' ⟨inc', dir', file, hl, hs'⟩
      rw [hkey] at hkk
      exact hk (Option.some.inj hkk).symm
    · rw [hs] at hf
      cases hf
      refine ⟨hnode, fun k' hk' => ?_⟩
      have hkk := hnot k' hk'
      rw [hkey] at hkk
      exact (Option.some.inj hkk).symm
  | @written k inc inc' p dir file file' fs hkey hl hs hs' hino hnode hdata =>
    refine h.insert (fun k' inc' q dir' file _ hl hs => ?_) fun q dir' file'' hf => ?_
    · rw [hnode]
      exact h.own k' inc' q dir' file hl hs
    · rw [hs'] at hf
      cases hf
      refine ⟨?_, fun k' hk' => h.apart k' k p hk' ⟨inc, dir, file, hl, hs⟩⟩
      rw [hnode, hino]
      exact h.own k inc p dir file hl hs
  | buffered hkey hl hs hs' =>
    refine h.insert (fun k' inc' p dir file _ hl hs => h.own k' inc' p dir file hl hs) fun p dir file hf => ?_
    rw [hs'] at hf
    cases hf
  | @dropped k inc p dir file fs before after hkey hl hs hnode hdata hbefore hafter =>
    refine h.erase fun k' inc' q dir' file' hk hl' hs' => ?_
    have hq := h.own k' inc' q dir' file' hl' hs'
    rw [(tryRemove_frame f.io fs p).1 q (h.ne_of_lookup hl hs hk hl' hs'), hnode]
    exact hq
  | forgotten hkey hl hs heffs => exact h.erase fun k' inc' p dir file _ hl hs => h.own k' inc' p dir file hl hs
  | @placed k inc p dir file fs after hkey hl hs hfin hren hafter =>
    obtain ⟨-, -, hother, -⟩ := FileSys.rename_spec hren
    refine h.erase fun k' inc' q dir' file' hk hl' hs' => ?_
    have hq := h.own k' inc' q dir' file' hl' hs'
    rw [hother q (h.ne_of_lookup hl hs hk hl' hs') ?_]
    · exact hq
    · rintro rfl
      rcases dest_of_rename hren with hfree | ⟨hfirst, htaken, -⟩
      · rw [hfree] at hq
        cases hq
      · have hkk := hok.2 p dir inc.name hfin htaken k' (by rw [← hfirst]; exact ⟨inc', dir', file', hl', hs'⟩)
        rw [hkey] at hkk
        exact hk (Option.some.inj hkk).symm

/-- A frame gives a transfer a temp file only by opening it. -/
theorem tempOf_outcome {out : Rx × List Effect} (ho : FrameOutcome sha256 cfg s f out) {k : XferKey} {q : PathBuf}
    (h : TempOf out.1 k q) : TempOf s.rx k q ∨ (f.key? = some k ∧ OpensTemp cfg s f q) := by
  -- an entry put in under `k` either has the temp file or leaves it to the old one
  have hinsert : ∀ {k₀ inc fs}, TempOf ⟨s.rx.incoming.insert k₀ inc, fs⟩ k q →
      TempOf s.rx k q ∨ (k = k₀ ∧ ∃ dir file, inc.sink = .file q dir file) := by
    intro k₀ inc fs hq
    by_cases hk : k = k₀
    · subst hk
      exact Or.inr ⟨rfl, tempOf_insert_self.1 hq⟩
    · exact Or.inl ((tempOf_insert_ne hk).1 hq)
  cases ho with
  | idle => exact Or.inl h
  | image hkey hopen hs =>
    rcases hinsert h with h | ⟨-, dir, file, hf⟩
    · exact Or.inl h
    · rw [hs] at hf
      cases hf
  | opened hkey hopen hs =>
    rcases hinsert h with h | ⟨rfl, dir, file, hf⟩
    · exact Or.inl h
    · rw [hs] at hf
      cases hf
      exact Or.inr ⟨hkey, hopen⟩
  | written hkey hl hs hs' =>
    rcases hinsert h with h | ⟨rfl, dir, file, hf⟩
    · exact Or.inl h
    · rw [hs'] at hf
      cases hf
      exact Or.inl ⟨_, _, _, hl, hs⟩
  | buffered hkey hl hs hs' =>
    rcases hinsert h with h | ⟨rfl, dir, file, hf⟩
    · exact Or.inl h
    · rw [hs'] at hf
      cases hf
  | dropped => exact Or.inl (tempOf_of_erase h).2
  | forgotten => exact Or.inl (tempOf_of_erase h).2
  | placed => exact Or.inl (tempOf_of_erase h).2

end Step

/-! ### The files already there -/

/-- `p` is the temp file of the transfer the frame is about. -/
def Own (s : History) (f : Frame) (p : PathBuf) : Prop := ∃ k, f.key? = some k ∧ TempOf s.rx k p

/-- What the frame does truncates, writes, renames and removes no file but the transfer's own temp file, renames onto
no file, and leaves every other file with its name and its content. -/
structure Harmless (s : History) (f : Frame) (out : Rx × List Effect) : Prop where
  create : ∀ p, Effect.create p ∈ out.2 → HasFile s.rx.fs p → Own s f p
  write : ∀ p, Effect.write p ∈ out.2 → Own s f p
  rename : ∀ src dst, Effect.rename src dst ∈ out.2 → Own s f src ∧ ¬ HasFile s.rx.fs dst
  remove : ∀ p, Effect.remove p ∈ out.2 → Own s f p
  others : ∀ p, HasFile s.rx.fs p → ¬ Own s f p → FileSys.Keeps s.rx.fs out.1.fs p

/-- The frame opens its temp file where there is no file but its own temp file, and finishes a transfer only while a
candidate name is free or the first one is taken by a directory. -/
def SparesFiles (sha256 : Bytes → Digest) (cfg : XferConfig) (s : History) (f : Frame) : Prop :=
  (∀ p, OpensTemp cfg s f p → HasFile s.rx.fs p → Own s f p) ∧
  ∀ p dir name, Finishes sha256 s f p dir name → (∀ n ∈ destNames name, s.rx.fs.present (join dir n) = true) →
    ¬ HasFile s.rx.fs (join dir name)

/-- `p` was there before the run, or a transfer has just been completed under this name. -/
def Settled (s : History) (p : PathBuf) : Prop :=
  s.log = [] ∨ ∃ log f effs src, s.log = log ++ [(f, effs)] ∧ Effect.rename src p ∈ effs

/-- In the run with these frames, every file there before it or completed earlier keeps its name and its content, and
no step touches a file other than the temp file of its own transfer. -/
def FilesKept (sha256 : Bytes → Digest) (cfg : XferConfig) (fs : FileSys PathBuf) (frames : List Frame) : Prop :=
  EveryStep (fun s f => some (receive sha256 cfg s f)) (fun s f _ => Harmless s f (handled sha256 cfg s f))
    (History.start fs) frames ∧
  ∀ pre mid post u v p c, frames = pre ++ mid ++ post →
    Run (fun s f => some (receive sha256 cfg s f)) Always (History.start fs) pre u →
    Run (fun s f => some (receive sha256 cfg s f)) Always u mid v →
    Settled u p → u.rx.fs.read p = some c → v.rx.fs.read p = some c

section Kept

variable {sha256 : Bytes → Digest} {cfg : XferConfig} {s : History} {f : Frame}

theorem sparesTemps_of_sparesFiles (h : OwnTemps s.rx) (hok : SparesFiles sha256 cfg s f) :
    SparesTemps sha256 cfg s f := by
  constructor
  · intro p hopen k hk
    obtain ⟨k', hkey, hk'⟩ := hok.1 p hopen (h.hasFile hk)
    rw [hkey, h.apart k k' p hk hk']
  · intro p dir name hfin htaken k hk
    exact absurd (h.hasFile hk) (hok.2 p dir name hfin htaken)

/-- Dropping a transfer writes and removes its temp file. -/
private theorem dropped_effects {io : Io} {fs : FileSys PathBuf} {p : PathBuf} {before after : List Effect}
    (hbefore : before = [] ∨ before = [.write p]) :
    ∀ eff ∈ before ++ (tryRemove io fs p).2 ++ after, eff = .write p ∨ eff = .remove p ∨ eff ∈ after := by
  intro eff he
  rw [List.mem_append, List.mem_append] at he
  rcases he with (he | he) | he
  · rcases hbefore with rfl | rfl
    · cases he
    · exact Or.inl (List.mem_singleton.1 he)
  · exact Or.inr (Or.inl (mem_tryRemove he))
  · exact Or.inr (Or.inr he)

/-- A frame that renames nothing and works on its own temp file only. -/
private theorem harmless_of_own {rx : Rx} {effs : List Effect} (hown : ∀ eff ∈ effs, ∀ q ∈ eff.files, Own s f q)
    (hren : ∀ src dst, Effect.rename src dst ∉ effs)
    (hothers : ∀ q i, s.rx.fs.node q = some (.file i) → ¬ Own s f q → FileSys.Keeps s.rx.fs rx.fs q) :
    Harmless s f (rx, effs) where
  create q he _ := hown _ he q (List.mem_singleton.2 rfl)
  write q he := hown _ he q (List.mem_singleton.2 rfl)
  rename src dst he := absurd he (hren src dst)
  remove q he := hown _ he q (List.mem_singleton.2 rfl)
  others q hq hnot := by
    obtain ⟨i, hi⟩ := hq
    exact hothers q i hi hnot

/-- A frame that works on no file. -/
private theorem harmless_of_quiet {rx : Rx} {effs : List Effect} (h : ∀ eff ∈ effs, eff.files = [])
    (hothers : ∀ q i, s.rx.fs.node q = some (.file i) → FileSys.Keeps s.rx.fs rx.fs q) :
    Harmless s f (rx, effs) := by
  refine harmless_of_own ?_ ?_ fun q i hi _ => hothers q i hi
  · intro eff he q hq
    rw [h eff he] at hq
    cases hq
  · intro src dst he
    cases h _ he

/-- A file that is not the transfer's own is at another path and on another inode. -/
private theorem OwnTemps.foreign (h : OwnTemps s.rx) {k : XferKey} {inc : Incoming} {p dir : PathBuf}
    {file : OpenFile} (hkey : f.key? = some k) (hl : s.rx.incoming.lookup k = some inc)
    (hs : inc.sink = .file p dir file) {q : PathBuf} {i : Nat} (hq : s.rx.fs.node q = some (.file i))
    (hnot : ¬ Own s f q) : q ≠ p ∧ i ≠ file.handle.ino := by
  have hne : q ≠ p := by
    rintro rfl
    exact hnot ⟨k, hkey, inc, dir, file, hl, hs⟩
  refine ⟨hne, ?_⟩
  rintro rfl
  exact hne (s.rx.fs.sole q p file.handle.ino hq (h.own k inc p dir file hl hs))

/-- A frame that spares the other files is harmless. -/
private theorem harmless_outcome (h : OwnTemps s.rx) (hok : SparesFiles sha256 cfg s f) {out : Rx × List Effect}
    (ho : FrameOutcome sha256 cfg s f out) : Harmless s f out := by
  have hkeeps : ∀ q, FileSys.Keeps s.rx.fs s.rx.fs q := fun q => ⟨rfl, fun _ _ => rfl⟩
  cases ho with
  | @idle fs effs hsame hdata heffs =>
    refine harmless_of_quiet heffs fun q i hi => ?_
    exact ⟨by rw [hi]; exact (hsame q i).2 hi, fun j _ => by rw [hdata]⟩
  | image => exact harmless_of_quiet (by simp) fun q _ _ => hkeeps q
  | @opened k inc p dir fs handle hkey hopen hs hnode hother hino hdata =>
    refine ⟨fun q he hfile => ?_, by simp, by simp, by simp, ?_⟩
    · have hq : q = p := by simpa using he
      subst hq
      exact hok.1 q hopen hfile
    · rintro q ⟨i, hi⟩ hnot
      have hne : q ≠ p := by
        rintro rfl
        exact hnot (hok.1 q hopen ⟨i, hi⟩)
      refine ⟨by rw [hi]; exact (hother q i hne).2 hi, fun j hj => hdata j ?_⟩
      rintro rfl
      exact hino q hne hj
  | @written k inc inc' p dir file file' fs hkey hl hs hs' hino hnode hdata =>
    refine harmless_of_own ?_ (by simp) fun q i hi hnot => ?_
    · intro eff he q hq
      rw [List.mem_singleton.1 he] at hq
      rw [List.mem_singleton.1 hq]
      exact ⟨k, hkey, inc, dir, file, hl, hs⟩
    · exact ⟨by rw [hnode], fun j hj => hdata j (h.foreign hkey hl hs hj hnot).2⟩
  | buffered => exact harmless_of_quiet (by simp) fun q _ _ => hkeeps q
  | @dropped k inc p dir file fs before after hkey hl hs hnode hdata hbefore hafter =>
    have hmem := @dropped_effects f.io fs p before after hbefore
    refine harmless_of_own (fun eff he q hq => ?_) (fun src dst he => ?_) fun q i hi hnot => ?_
    · have hown : Own s f p := ⟨k, hkey, inc, dir, file, hl, hs⟩
      rcases hmem eff he with rfl | rfl | he
      · rw [List.mem_singleton.1 hq]
        exact hown
      · rw [List.mem_singleton.1 hq]
        exact hown
      · rw [hafter eff he] at hq
        cases hq
    · rcases hmem _ he with he | he | he
      · cases he
      · cases he
      · cases hafter _ he
    · obtain ⟨hother, hdata'⟩ := tryRemove_frame f.io fs p
      refine ⟨?_, fun j hj => ?_⟩
      · rw [hother q (h.foreign hkey hl hs hi hnot).1, hnode]
      · rw [hdata', hdata j (h.foreign hkey hl hs hj hnot).2]
  | @forgotten k inc buf effs hkey hl hs heffs => exact harmless_of_quiet heffs fun q _ _ => hkeeps q
  | @placed k inc p dir file fs after hkey hl hs hfin hren hafter =>
    have hfree : ¬ HasFile s.rx.fs (uniqueDest s.rx.fs dir inc.name) := by
      rintro ⟨i, hi⟩
      rcases dest_of_rename hren with hfree | ⟨hfirst, htaken, hfile⟩
      · rw [hfree] at hi
        cases hi
      · exact hok.2 p dir inc.name hfin htaken hfile
    -- the rename is the only effect on files
    have hquiet : ∀ eff ∈ after, ∀ q, q ∉ eff.files := by
      intro eff he q hq
      rw [hafter eff he] at hq
      cases hq
    refine ⟨fun q he _ => ?_, fun q he => ?_, fun src dst he => ?_, fun q he => ?_, ?_⟩
    · exact (hquiet _ (List.mem_of_ne_of_mem (fun he => by cases he) he) q (List.mem_singleton.2 rfl)).elim
    · exact (hquiet _ (List.mem_of_ne_of_mem (fun he => by cases he) he) q (List.mem_singleton.2 rfl)).elim
    · rcases List.mem_cons.1 he with he | he
      · cases he
        exact ⟨⟨k, hkey, inc, dir, file, hl, hs⟩, hfree⟩
      · exact (hquiet _ he src (List.mem_cons_self ..)).elim
    · exact (hquiet _ (List.mem_of_ne_of_mem (fun he => by cases he) he) q (List.mem_singleton.2 rfl)).elim
    · rintro q ⟨i, hi⟩ hnot
      obtain ⟨-, -, hother, hdata⟩ := FileSys.rename_spec hren
      refine ⟨hother q (h.foreign hkey hl hs hi hnot).1 ?_, fun j _ => by rw [hdata]⟩
      rintro rfl
      exact hfree ⟨i, hi⟩

/-- The step lemma: a frame is harmless exactly when it spares the other files. -/
theorem harmless_iff (h : OwnTemps s.rx) :
    Harmless s f (handled sha256 cfg s f) ↔ SparesFiles sha256 cfg s f := by
  constructor
  · intro hharm
    constructor
    · intro p hopen hfile
      obtain ⟨k, inc, dir, file, fs, -, -, hout⟩ := opensTemp_handled sha256 hopen
      exact hharm.create p (by rw [hout]; simp) hfile
    · intro p dir name hfin htaken hfile
      obtain ⟨k, inc, file, fs, after, -, -, -, -, hout⟩ := finishes_onto_file cfg h hfin htaken hfile
      exact (hharm.rename p (join dir name) (by rw [hout]; simp)).2 hfile
  · intro hok
    exact harmless_outcome h hok (frameOutcome sha256 cfg s f)

/-- A settled file is no transfer's temp file. -/
structure Sheltered (s : History) : Prop where
  own : OwnTemps s.rx
  settled : ∀ p k, Settled s p → ¬ TempOf s.rx k p

theorem sheltered_start (fs : FileSys PathBuf) : Sheltered (History.start fs) where
  own := ownTemps_start fs
  settled p k _ h := by
    obtain ⟨inc, dir, file, hl, -⟩ := h
    cases hl

/-- Only a `BlobEnd` renames. -/
private theorem finishes_of_rename {out : Rx × List Effect} (ho : FrameOutcome sha256 cfg s f out) {src dst : PathBuf}
    (hren : Effect.rename src dst ∈ out.2) : ∃ dir name, Finishes sha256 s f src dir name := by
  cases ho with
  | idle hsame hdata heffs => cases heffs _ hren
  | @placed k inc p dir file fs after hkey hl hs hfin hren' hafter =>
    rcases List.mem_cons.1 hren with heq | he
    · cases heq
      exact ⟨dir, inc.name, hfin⟩
    · cases hafter _ he
  | dropped hkey hl hs hnode hdata hbefore hafter =>
    rcases dropped_effects hbefore _ hren with he | he | he
    · cases he
    · cases he
    · cases hafter _ he
  | forgotten hkey hl hs heffs => cases heffs _ hren
  | _ => simp at hren

/-- A completed file is no transfer's temp file. -/
private theorem not_tempOf_renamed (h : OwnTemps s.rx) (hok : SparesFiles sha256 cfg s f) {out : Rx × List Effect}
    (ho : FrameOutcome sha256 cfg s f out) {src p : PathBuf} (hren : Effect.rename src p ∈ out.2) (k : XferKey) :
    ¬ TempOf out.1 k p := by
  intro hp
  rcases tempOf_outcome ho hp with hp | ⟨-, hopen⟩
  · exact ((harmless_outcome h hok ho).rename src p hren).2 (h.hasFile hp)
  · obtain ⟨id, name, size, safe, hm, -⟩ := hopen
    obtain ⟨dir, name', id', sha, inc, file, hm', -⟩ := finishes_of_rename ho hren
    rw [hm] at hm'
    cases hm'

theorem sheltered_receive (h : Sheltered s) (hok : SparesFiles sha256 cfg s f) :
    Sheltered (receive sha256 cfg s f) where
  own := ownTemps_outcome h.own (sparesTemps_of_sparesFiles h.own hok) (frameOutcome sha256 cfg s f)
  settled p k hp := by
    rcases hp with hnil | ⟨log, f', effs, src, hlog, hren⟩
    · simp [receive] at hnil
    · obtain ⟨-, hlast⟩ := List.append_inj' hlog rfl
      simp only [List.cons.injEq, Prod.mk.injEq, and_true] at hlast
      obtain ⟨rfl, rfl⟩ := hlast
      exact not_tempOf_renamed h.own hok (frameOutcome sha256 cfg s f) hren k

/-- A file that is no transfer's temp file stays, and does not become one. -/
private theorem kept_receive (h : OwnTemps s.rx) (hok : SparesFiles sha256 cfg s f) {p : PathBuf} {c : Bytes}
    (hp : ∀ k, ¬ TempOf s.rx k p) (hc : s.rx.fs.read p = some c) :
    (∀ k, ¬ TempOf (receive sha256 cfg s f).rx k p) ∧ (receive sha256 cfg s f).rx.fs.read p = some c := by
  have hfile : HasFile s.rx.fs p := FileSys.read_eq_some hc
  have hnot : ¬ Own s f p := by
    rintro ⟨k, -, hk⟩
    exact hp k hk
  constructor
  · intro k hk
    rcases tempOf_outcome (frameOutcome sha256 cfg s f) hk with hk | ⟨-, hopen⟩
    · exact hp k hk
    · exact hnot (hok.1 p hopen hfile)
  · rw [← hc]
    exact ((harmless_outcome h hok (frameOutcome sha256 cfg s f)).others p hfile hnot).read

/-- For every initial disk and every sequence of frames: no file but a transfer's own temp file is ever touched, and
files there before or completed earlier stay as they are, exactly when every `BlobStart` opens its temp file where
there is none and every `BlobEnd` still finds a free name. -/
theorem files_kept_iff (sha256 : Bytes → Digest) (cfg : XferConfig) (fs : FileSys PathBuf) (frames : List Frame)
    (s : History) (hr : Run (fun s f => some (receive sha256 cfg s f)) Always (History.start fs) frames s) :
    FilesKept sha256 cfg fs frames ↔
      Run (fun s f => some (receive sha256 cfg s f)) (SparesFiles sha256 cfg) (History.start fs) frames s := by
  have hkeep : ∀ s f t, Sheltered s → SparesFiles sha256 cfg s f → some (receive sha256 cfg s f) = some t →
      Sheltered t := by
    intro s f t hs hok ht
    cases ht
    exact sheltered_receive hs hok
  have hsteps : EveryStep (fun s f => some (receive sha256 cfg s f))
      (fun s f _ => Harmless s f (handled sha256 cfg s f)) (History.start fs) frames ↔
      Run (fun s f => some (receive sha256 cfg s f)) (SparesFiles sha256 cfg) (History.start fs) frames s :=
    hr.everyStep_iff_of_kept (sheltered_start fs) hkeep fun s f t hs _ => harmless_iff hs.own
  constructor
  · intro h
    exact hsteps.1 h.1
  · intro hok
    refine ⟨hsteps.2 hok, ?_⟩
    rintro pre mid post u v p c rfl hu hv hsettled hc
    -- the run passes through `u` and `v`
    obtain ⟨v', hv', -⟩ := hok.split
    obtain ⟨u', hu', hmid⟩ := hv'.split
    obtain rfl := hu.unique hu'
    have hsh : Sheltered u := hu'.invariant (sheltered_start fs) hkeep
    obtain rfl := hv.unique hmid
    have hend := hmid.invariant
      (I := fun s => OwnTemps s.rx ∧ (∀ k, ¬ TempOf s.rx k p) ∧ s.rx.fs.read p = some c)
      ⟨hsh.own, fun k => hsh.settled p k hsettled, hc⟩ ?_
    · exact hend.2.2
    · rintro s f t ⟨hown, hp, hc⟩ hok ht
      cases ht
      exact ⟨ownTemps_outcome hown (sparesTemps_of_sparesFiles hown hok) (frameOutcome sha256 cfg s f),
        kept_receive hown hok hp hc⟩

end Kept

private def zeroSha (_ : Bytes) : Digest := Vector.replicate 32 0

private def keepConfig : XferConfig := ⟨"d", .never, false⟩

private def frameFrom (peer : DeviceId) (msg : Message) : Frame := ⟨peer, msg, .absent, Io.ok⟩

/-- `a` delivers a file under a hidden name, and `b` starts a transfer whose temp file has this name. -/
private def deliveredFrames : List Frame :=
  [frameFrom "a" (.blobStart 2 ".x.1.part" 1 .file), frameFrom "a" (.blobChunk 2 [9]),
    frameFrom "a" (.blobEnd 2 (Vector.replicate 32 0))]

theorem files_kept_iff_delivered :
    FilesKept zeroSha keepConfig FileSys.empty deliveredFrames ↔
      Run (fun s f => some (receive zeroSha keepConfig s f)) (SparesFiles zeroSha keepConfig)
        (History.start FileSys.empty) deliveredFrames
        (deliveredFrames.foldl (receive zeroSha keepConfig) (History.start FileSys.empty)) :=
  files_kept_iff _ _ _ _ _ (run_of_total (receive _ _) (fun _ => True) _ deliveredFrames fun _ _ => trivial)

/-- The file `a` delivered is truncated by `b`'s `BlobStart`. -/
theorem delivered_file_truncated :
    ¬ FilesKept zeroSha keepConfig FileSys.empty
      (deliveredFrames ++ [frameFrom "b" (.blobStart 1 "x" 1 .file)]) := by
  rintro ⟨-, h⟩
  have hu := run_of_total (receive zeroSha keepConfig) (fun _ => True) (History.start FileSys.empty) deliveredFrames
    (fun _ _ => trivial)
  have hv := run_of_total (receive zeroSha keepConfig) (fun _ => True)
    (deliveredFrames.foldl (receive zeroSha keepConfig) (History.start FileSys.empty))
    [frameFrom "b" (.blobStart 1 "x" 1 .file)] (fun _ _ => trivial)
  have hkept := h deliveredFrames [frameFrom "b" (.blobStart 1 "x" 1 .file)] [] _ _ "d/.x.1.part" [9] (by simp) hu hv
    (Or.inr ⟨_, _, _, "d/..x.1.part.2.part", rfl, by decide⟩) rfl
  exact absurd hkept (by decide)

/-! ### Stray temp files -/

/-- The temp files created in the run, and neither renamed nor removed since. -/
def partsLeft (log : Log) : List PathBuf := leftParts (log.flatMap Prod.snd)

/-- The temp files on the disk are exactly those of the file transfers in progress, one for each. -/
structure NoStray (s : History) : Prop where
  parts : ∀ p, (p ∈ partsLeft s.log ∧ HasFile s.rx.fs p) ↔ ∃ k, TempOf s.rx k p
  own : OwnTemps s.rx

/-- The frame spares the other transfers' temp files, and a `BlobStart` of a transfer that has one open opens the
same. -/
def LeavesNoTemp (sha256 : Bytes → Digest) (cfg : XferConfig) (s : History) (f : Frame) : Prop :=
  SparesTemps sha256 cfg s f ∧ (∀ p, OpensTemp cfg s f p → ∀ q, Own s f q → q = p) ∧
    (OpensImage cfg s f → ∀ q, ¬ Own s f q)

section Stray

variable {sha256 : Bytes → Digest} {cfg : XferConfig} {s : History} {f : Frame}

theorem partsLeft_snoc (log : Log) (f : Frame) (effs : List Effect) :
    partsLeft (log ++ [(f, effs)]) = effs.foldl partsAfter (partsLeft log) := by
  simp [partsLeft, leftParts, List.foldl_append]

/-- Effects on no file leave the temp files as they are. -/
private theorem partsAfter_quiet {effs : List Effect} (h : ∀ eff ∈ effs, eff.files = []) (parts : List PathBuf) :
    effs.foldl partsAfter parts = parts := by
  induction effs generalizing parts with
  | nil => rfl
  | cons eff effs ih =>
    have heff : partsAfter parts eff = parts := by
      have hnil := h eff (List.mem_cons_self ..)
      cases eff with
      | create p => simp [Effect.files] at hnil
      | rename src dst => simp [Effect.files] at hnil
      | remove p => simp [Effect.files] at hnil
      | _ => rfl
    rw [List.foldl_cons, heff]
    exact ih (fun e he => h e (List.mem_cons_of_mem _ he)) parts

private theorem mem_partsAfter_create {parts : List PathBuf} {p q : PathBuf} :
    q ∈ partsAfter parts (.create p) ↔ q = p ∨ q ∈ parts := by
  simp only [partsAfter]
  split
  · rename_i hp
    constructor
    · exact Or.inr
    · rintro (rfl | hq)
      · exact hp
      · exact hq
  · exact List.mem_cons

/-- The temp files left after a transfer is dropped. -/
private theorem partsAfter_dropped {io : Io} {fs : FileSys PathBuf} {p : PathBuf} {before after : List Effect}
    (hbefore : before = [] ∨ before = [.write p]) (hafter : ∀ eff ∈ after, eff.files = []) (parts : List PathBuf) :
    (before ++ (tryRemove io fs p).2 ++ after).foldl partsAfter parts =
      (tryRemove io fs p).2.foldl partsAfter parts := by
  have hb : before.foldl partsAfter parts = parts := by
    rcases hbefore with rfl | rfl <;> rfl
  rw [List.foldl_append, List.foldl_append, hb, partsAfter_quiet hafter]

/-- Every temp file left is on the disk. -/
def PartsOnDisk (s : History) : Prop := ∀ p ∈ partsLeft s.log, HasFile s.rx.fs p

theorem partsOnDisk_start (fs : FileSys PathBuf) : PartsOnDisk (History.start fs) := by
  intro p hp
  cases hp

private theorem partsOnDisk_outcome (h : PartsOnDisk s) {out : Rx × List Effect}
    (ho : FrameOutcome sha256 cfg s f out) : PartsOnDisk ⟨out.1, s.log ++ [(f, out.2)]⟩ := by
  intro q hq
  rw [partsLeft_snoc] at hq
  cases ho with
  | idle hsame hdata heffs =>
    rw [partsAfter_quiet heffs] at hq
    obtain ⟨i, hi⟩ := h q hq
    exact ⟨i, (hsame q i).2 hi⟩
  | image => exact h q hq
  | @opened k inc p dir fs handle hkey hopen hs hnode hother hino hdata =>
    rcases mem_partsAfter_create.1 hq with rfl | hq
    · exact ⟨_, hnode⟩
    · by_cases hqp : q = p
      · exact ⟨_, by rw [hqp]; exact hnode⟩
      · obtain ⟨i, hi⟩ := h q hq
        exact ⟨i, (hother q i hqp).2 hi⟩
  | written hkey hl hs hs' hino hnode hdata =>
    obtain ⟨i, hi⟩ := h q hq
    exact ⟨i, by rw [hnode]; exact hi⟩
  | buffered => exact h q hq
  | @dropped k inc p dir file fs before after hkey hl hs hnode hdata hbefore hafter =>
    rw [partsAfter_dropped hbefore hafter] at hq
    rcases tryRemove_cases f.io fs p with ⟨fs', hrm, heq⟩ | ⟨-, heq⟩
    · rw [heq] at hq ⊢
      obtain ⟨hq, hne⟩ := List.mem_filter.1 hq
      obtain ⟨i, hi⟩ := h q hq
      obtain ⟨-, hother, -⟩ := FileSys.removeFile_spec hrm
      refine ⟨i, ?_⟩
      show fs'.node q = some (.file i)
      rw [hother q (by simpa using hne), hnode, hi]
    · rw [heq] at hq ⊢
      obtain ⟨i, hi⟩ := h q hq
      refine ⟨i, ?_⟩
      show fs.node q = some (.file i)
      rw [hnode, hi]
  | forgotten hkey hl hs heffs =>
    rw [partsAfter_quiet heffs] at hq
    exact h q hq
  | @placed k inc p dir file fs after hkey hl hs hfin hren hafter =>
    rw [List.foldl_cons, partsAfter_quiet hafter] at hq
    obtain ⟨hq, hne⟩ := List.mem_filter.1 hq
    obtain ⟨i, hi⟩ := h q hq
    obtain ⟨⟨j, -, hdest⟩, -, hother, -⟩ := FileSys.rename_spec hren
    by_cases hqd : q = uniqueDest s.rx.fs dir inc.name
    · exact ⟨j, by rw [hqd]; exact hdest⟩
    · refine ⟨i, ?_⟩
      show fs.node q = some (.file i)
      rw [hother q (by simpa using hne) hqd, hi]

/-- With every temp file left on the disk, those left are those of the transfers. -/
private theorem NoStray.mem_left (h : NoStray s) (hdisk : PartsOnDisk s) (q : PathBuf) :
    q ∈ partsLeft s.log ↔ ∃ k, TempOf s.rx k q := by
  rw [← h.parts q]
  exact ⟨fun hq => ⟨hq, hdisk q hq⟩, And.left⟩

/-- The entry of `k` goes, and `p` was its temp file. -/
private theorem NoStray.mem_erase (h : NoStray s) (hdisk : PartsOnDisk s) {k : XferKey} {inc : Incoming}
    {p dir : PathBuf} {file : OpenFile} (hl : s.rx.incoming.lookup k = some inc) (hs : inc.sink = .file p dir file)
    (fs : FileSys PathBuf) (q : PathBuf) :
    q ∈ (partsLeft s.log).filter (· ≠ p) ↔ ∃ k', TempOf ⟨s.rx.incoming.erase k, fs⟩ k' q := by
  rw [List.mem_filter, h.mem_left hdisk q]
  constructor
  · rintro ⟨⟨k', hk'⟩, hne⟩
    refine ⟨k', (tempOf_erase_ne ?_).2 hk'⟩
    rintro rfl
    exact absurd (hk'.eq_of_lookup hl hs) (by simpa using hne)
  · rintro ⟨k', hk'⟩
    obtain ⟨hne, hold⟩ : k' ≠ k ∧ TempOf ⟨s.rx.incoming, s.rx.fs⟩ k' q := tempOf_of_erase hk'
    refine ⟨⟨k', hold⟩, ?_⟩
    have hqp : q ≠ p := by
      rintro rfl
      exact hne (h.own.apart k' k q hold ⟨inc, dir, file, hl, hs⟩)
    simpa using hqp

/-- The entry of `k` goes, which had no temp file. -/
private theorem exists_tempOf_erase_memory {k : XferKey} {inc : Incoming} {buf : Bytes}
    (hl : s.rx.incoming.lookup k = some inc) (hs : inc.sink = .memory buf) (fs : FileSys PathBuf) (q : PathBuf) :
    (∃ k', TempOf s.rx k' q) ↔ ∃ k', TempOf ⟨s.rx.incoming.erase k, fs⟩ k' q := by
  constructor
  · rintro ⟨k', hk'⟩
    refine ⟨k', (tempOf_erase_ne ?_).2 hk'⟩
    rintro rfl
    exact hk'.not_memory hl hs
  · rintro ⟨k', hk'⟩
    exact ⟨k', (tempOf_of_erase hk').2⟩

/-- `p` becomes the temp file of `k`, which had no other. -/
private theorem exists_tempOf_open {k : XferKey} {inc : Incoming} {p dir : PathBuf} {file : OpenFile}
    (hs : inc.sink = .file p dir file) (fs : FileSys PathBuf) (q : PathBuf) (hold : TempOf s.rx k q → q = p) :
    (q = p ∨ ∃ k', TempOf s.rx k' q) ↔ ∃ k', TempOf ⟨s.rx.incoming.insert k inc, fs⟩ k' q := by
  constructor
  · rintro (rfl | ⟨k', hk'⟩)
    · exact ⟨k, tempOf_insert_self.2 ⟨_, _, hs⟩⟩
    · by_cases hkk : k' = k
      · subst hkk
        rw [hold hk']
        exact ⟨k', tempOf_insert_self.2 ⟨_, _, hs⟩⟩
      · exact ⟨k', (tempOf_insert_ne hkk).2 hk'⟩
  · rintro ⟨k', hk'⟩
    by_cases hkk : k' = k
    · subst hkk
      obtain ⟨dir', file', hf⟩ := tempOf_insert_self.1 hk'
      rw [hs] at hf
      cases hf
      exact Or.inl rfl
    · exact Or.inr ⟨k', (tempOf_insert_ne hkk).1 hk'⟩

/-- Where the temp files left are those of the transfers, a frame that leaves none behind keeps it so. -/
private theorem noStray_outcome (hdisk : PartsOnDisk s) (hremove : f.io.failRemove = false) (h : NoStray s)
    (hok : LeavesNoTemp sha256 cfg s f) {out : Rx × List Effect} (ho : FrameOutcome sha256 cfg s f out) :
    NoStray ⟨out.1, s.log ++ [(f, out.2)]⟩ := by
  have hown := ownTemps_outcome h.own hok.1 ho
  have hdisk' := partsOnDisk_outcome hdisk ho
  have hold := h.mem_left hdisk
  -- on both sides only the membership is left to follow
  suffices hnew : ∀ q, q ∈ partsLeft (s.log ++ [(f, out.2)]) ↔ ∃ k, TempOf out.1 k q by
    refine ⟨fun q => ?_, hown⟩
    rw [← hnew q]
    exact ⟨And.left, fun hq => ⟨hq, hdisk' q hq⟩⟩
  intro q
  rw [partsLeft_snoc]
  cases ho with
  | idle hsame hdata heffs =>
    rw [partsAfter_quiet heffs, hold q]
    exact Iff.rfl
  | @image k inc hkey hopen hs =>
    rw [List.foldl_nil, hold q]
    refine exists_tempOf_insert ⟨?_, fun hk => (hok.2.2 hopen q ⟨k, hkey, hk⟩).elim⟩
    rintro ⟨dir, file, hf⟩
    rw [hs] at hf
    cases hf
  | @opened k inc p dir fs handle hkey hopen hs hnode hother hino hdata =>
    have hcreate : [Effect.mkdir dir, Effect.create p].foldl partsAfter (partsLeft s.log) =
        partsAfter (partsLeft s.log) (.create p) := rfl
    rw [hcreate, mem_partsAfter_create, hold q]
    exact exists_tempOf_open hs fs q fun hk => hok.2.1 p hopen q ⟨k, hkey, hk⟩
  | @written k inc inc' p dir file file' fs hkey hl hs hs' hino hnode hdata =>
    have hwrite : [Effect.write p].foldl partsAfter (partsLeft s.log) = partsLeft s.log := rfl
    rw [hwrite, hold q]
    refine exists_tempOf_insert ⟨?_, fun hk => ?_⟩
    · rintro ⟨dir', file'', hf⟩
      rw [hs'] at hf
      cases hf
      exact ⟨inc, dir, file, hl, hs⟩
    · rw [hk.eq_of_lookup hl hs]
      exact ⟨_, _, hs'⟩
  | @buffered k inc inc' buf buf' hkey hl hs hs' =>
    rw [List.foldl_nil, hold q]
    refine exists_tempOf_insert ⟨?_, fun hk => (hk.not_memory hl hs).elim⟩
    rintro ⟨dir, file, hf⟩
    rw [hs'] at hf
    cases hf
  | @dropped k inc p dir file fs before after hkey hl hs hnode hdata hbefore hafter =>
    -- the temp file is there, so removing it succeeds
    have hp : fs.node p = some (.file file.handle.ino) := by
      rw [hnode]
      exact h.own.own k inc p dir file hl hs
    obtain ⟨fs', -, hremoved⟩ := tryRemove_of_file f.io hremove hp
    rw [partsAfter_dropped hbefore hafter, hremoved]
    exact h.mem_erase hdisk hl hs _ q
  | @forgotten k inc buf effs hkey hl hs heffs =>
    rw [partsAfter_quiet heffs, hold q]
    exact exists_tempOf_erase_memory hl hs _ q
  | @placed k inc p dir file fs after hkey hl hs hfin hren hafter =>
    rw [List.foldl_cons, partsAfter_quiet hafter]
    exact h.mem_erase hdisk hl hs _ q

/-- A temp file that the transfer had before this frame has to be the transfer's after it. -/
private theorem own_after (h : NoStray s) {t : History} (ht : NoStray t) (hdisk : PartsOnDisk t) {k : XferKey}
    {inc : Incoming} {fs : FileSys PathBuf} (hrx : t.rx = ⟨s.rx.incoming.insert k inc, fs⟩)
    {q : PathBuf} (hq : TempOf s.rx k q) (hleft : q ∈ partsLeft t.log) : ∃ dir file, inc.sink = .file q dir file := by
  obtain ⟨k', hk'⟩ := (ht.parts q).1 ⟨hleft, hdisk q hleft⟩
  rw [hrx] at hk'
  by_cases hkk : k' = k
  · subst hkk
    exact tempOf_insert_self.1 hk'
  · exact absurd (h.own.apart k' k q ((tempOf_insert_ne hkk).1 hk') hq) hkk

/-- A frame that opened the temp file of another transfer gives two transfers one temp file. -/
private theorem key_of_opened (ht : OwnTemps (receive sha256 cfg s f).rx) {p : PathBuf} (hopen : OpensTemp cfg s f p)
    {k : XferKey} (hk : TempOf s.rx k p) : f.key? = some k := by
  obtain ⟨k₀, inc, dir, file, fs, hkey, hs, hout⟩ := opensTemp_handled sha256 hopen
  have hrx : (receive sha256 cfg s f).rx = ⟨s.rx.incoming.insert k₀ inc, fs⟩ := by simp only [receive, hout]
  by_cases hkk : k = k₀
  · rw [hkk, hkey]
  · have hself : TempOf (receive sha256 cfg s f).rx k₀ p := by
      rw [hrx]
      exact tempOf_insert_self.2 ⟨_, _, hs⟩
    have hother : TempOf (receive sha256 cfg s f).rx k p := by
      rw [hrx]
      exact (tempOf_insert_ne hkk).2 hk
    exact absurd (ht.apart k k₀ p hother hself) hkk

/-- A frame that renamed onto the temp file of another transfer leaves another inode there. -/
private theorem key_of_finished (h : OwnTemps s.rx) (ht : OwnTemps (receive sha256 cfg s f).rx) {p dir : PathBuf}
    {name : String} (hfin : Finishes sha256 s f p dir name)
    (htaken : ∀ n ∈ destNames name, s.rx.fs.present (join dir n) = true) {k : XferKey}
    (hk : TempOf s.rx k (join dir name)) : f.key? = some k := by
  obtain ⟨inc', dir', file', hl', hs'⟩ := hk
  have hdest : s.rx.fs.node (join dir name) = some (.file file'.handle.ino) := h.own k inc' _ dir' file' hl' hs'
  obtain ⟨k₀, inc, file, fs, after, hkey, hl, hs, hren, hout⟩ := finishes_onto_file cfg h hfin htaken ⟨_, hdest⟩
  by_cases hkk : k = k₀
  · rw [hkk, hkey]
  · have hrx : (receive sha256 cfg s f).rx = ⟨s.rx.incoming.erase k₀, fs⟩ := by simp only [receive, hout]
    have hafter := ht.own k inc' (join dir name) dir' file'
      (by rw [hrx]; exact (AList.lookup_erase_ne hkk).trans hl') hs'
    obtain ⟨⟨i, hi, hdest'⟩, -⟩ := FileSys.rename_spec hren
    rw [hrx] at hafter
    rw [hafter] at hdest'
    cases hdest'
    have hpath : p = join dir name := s.rx.fs.sole p (join dir name) _ hi hdest
    rw [hkey, h.apart k k₀ p ⟨inc', dir', file', hl', hpath ▸ hs'⟩ ⟨inc, dir, file, hl, hs⟩]

/-- A frame after which the temp files are those of the transfers leaves none behind. -/
private theorem leavesNoTemp_of_noStray (hdisk : PartsOnDisk s) (h : NoStray s)
    (ht : NoStray (receive sha256 cfg s f)) : LeavesNoTemp sha256 cfg s f := by
  have hdisk' : PartsOnDisk (receive sha256 cfg s f) := partsOnDisk_outcome hdisk (frameOutcome sha256 cfg s f)
  have hleft := h.mem_left hdisk
  refine ⟨⟨fun p hopen k hk => key_of_opened ht.own hopen hk,
    fun p dir name hfin htaken k hk => key_of_finished h.own ht.own hfin htaken hk⟩, fun p hopen q hq => ?_,
    fun hopen q hq => ?_⟩
  · obtain ⟨k₀, inc, dir, file, fs, hkey, hs, hout⟩ := opensTemp_handled sha256 hopen
    obtain ⟨k, hkey', hk⟩ := hq
    rw [hkey] at hkey'
    cases hkey'
    have hlog : q ∈ partsLeft (receive sha256 cfg s f).log := by
      have hcreate : [Effect.mkdir dir, Effect.create p].foldl partsAfter (partsLeft s.log) =
          partsAfter (partsLeft s.log) (.create p) := rfl
      rw [receive, partsLeft_snoc, hout, hcreate, mem_partsAfter_create]
      exact Or.inr ((hleft q).2 ⟨k₀, hk⟩)
    have hrx : (receive sha256 cfg s f).rx = ⟨s.rx.incoming.insert k₀ inc, fs⟩ := by simp only [receive, hout]
    obtain ⟨dir', file', hf⟩ := own_after h ht hdisk' hrx hk hlog
    rw [hs] at hf
    cases hf
    rfl
  · obtain ⟨k₀, inc, buf, hkey, hs, hout⟩ := opensImage_handled sha256 hopen
    obtain ⟨k, hkey', hk⟩ := hq
    rw [hkey] at hkey'
    cases hkey'
    have hlog : q ∈ partsLeft (receive sha256 cfg s f).log := by
      rw [receive, partsLeft_snoc, hout]
      exact (hleft q).2 ⟨k₀, hk⟩
    have hrx : (receive sha256 cfg s f).rx = ⟨s.rx.incoming.insert k₀ inc, s.rx.fs⟩ := by
      simp only [receive, hout]
    obtain ⟨dir', file', hf⟩ := own_after h ht hdisk' hrx hk hlog
    rw [hs] at hf
    cases hf

/-- The step lemma: a frame keeps the temp files exactly those of the transfers when it leaves none behind. -/
theorem noStray_iff (hdisk : PartsOnDisk s) (hremove : f.io.failRemove = false) (h : NoStray s) :
    NoStray (receive sha256 cfg s f) ↔ LeavesNoTemp sha256 cfg s f :=
  ⟨leavesNoTemp_of_noStray hdisk h, fun hok =>
    noStray_outcome hdisk hremove h hok (frameOutcome sha256 cfg s f)⟩

end Stray

theorem noStray_start (fs : FileSys PathBuf) : NoStray (History.start fs) where
  parts p := by
    constructor
    · rintro ⟨hp, -⟩
      cases hp
    · rintro ⟨k, inc, dir, file, hl, -⟩
      cases hl
  own := ownTemps_start fs

/-- A frame during which removing a file does not fail. -/
def receiveRemoving (sha256 : Bytes → Digest) (cfg : XferConfig) (s : History) (f : Frame) : Option History :=
  if f.io.failRemove = false then some (receive sha256 cfg s f) else none

/-- For every sequence of frames of any peers, with file removal succeeding: after every frame the temp files on the
disk are exactly those of the transfers in progress, one for each, if and only if no `BlobStart` opens the temp file
of another transfer or replaces one of its own by another, and no `BlobEnd` with every candidate name taken renames
onto another transfer's temp file. -/
theorem no_stray_temps_iff (sha256 : Bytes → Digest) (cfg : XferConfig) (fs : FileSys PathBuf) (frames : List Frame)
    (s : History) (hr : Run (receiveRemoving sha256 cfg) Always (History.start fs) frames s) :
    Throughout (receiveRemoving sha256 cfg) NoStray (History.start fs) frames ↔
      Run (receiveRemoving sha256 cfg) (LeavesNoTemp sha256 cfg) (History.start fs) frames s := by
  have hstep : ∀ s f t, receiveRemoving sha256 cfg s f = some t →
      f.io.failRemove = false ∧ receive sha256 cfg s f = t := by
    intro s f t ht
    unfold receiveRemoving at ht
    split at ht
    · rename_i hio
      exact ⟨hio, Option.some.inj ht⟩
    · cases ht
  refine hr.throughout_iff (partsOnDisk_start fs) (noStray_start fs) ?_ ?_
  · intro s f t hs ht
    obtain ⟨-, rfl⟩ := hstep s f t ht
    exact partsOnDisk_outcome hs (frameOutcome sha256 cfg s f)
  · intro s f t hs hn ht
    obtain ⟨hio, rfl⟩ := hstep s f t ht
    exact noStray_iff hs hio hn

/-- No transfer is open under the key of a `BlobStart` or with its temp path, and the name of a transfer that ends is
free: a check that is enough for `LeavesNoTemp`. -/
private def startsAlone (cfg : XferConfig) (s : History) (f : Frame) : Bool :=
  match f.msg with
  | .blobStart id name _ _ =>
    (s.rx.incoming.lookup (f.peer, id)).isNone && (safeBlobName name).all fun safe => s.rx.incoming.entries.all fun e =>
      match e.2.sink with
      | .file p _ _ => p != tmpPathFor (finalDirFor cfg f.registry f.peer) safe id
      | .memory _ => true
  | .blobEnd id _ =>
    (s.rx.incoming.lookup (f.peer, id)).all fun inc =>
      match inc.sink with
      | .file _ dir _ => !s.rx.fs.present (join dir inc.name)
      | .memory _ => true
  | _ => true

private theorem leavesNoTemp_of_startsAlone {sha256 : Bytes → Digest} {cfg : XferConfig} {s : History} {f : Frame}
    (h : startsAlone cfg s f = true) : LeavesNoTemp sha256 cfg s f := by
  -- a `BlobStart` has no temp file of its own yet
  have hnone : ∀ id name size purpose, f.msg = .blobStart id name size purpose → ∀ q, ¬ Own s f q := by
    rintro id name size purpose hm q ⟨k, hk, inc, dir, file, hl, -⟩
    obtain rfl : (f.peer, id) = k := by simpa [Frame.key?, hm] using hk
    simp [startsAlone, hm, hl] at h
  refine ⟨⟨fun p hopen k htemp => ?_, fun p dir name hfin htaken => ?_⟩, fun p hopen q hq => ?_, fun hopen q hq => ?_⟩
  · obtain ⟨id, name, size, safe, hm, -, hsafe, -, -, -, -, rfl⟩ := hopen
    obtain ⟨inc, dir, file, hl, hs⟩ := htemp
    simp only [startsAlone, hm, hsafe, Option.all_some, Bool.and_eq_true, List.all_eq_true] at h
    have hne := h.2 ⟨k, inc⟩ (AList.mem_lookup_iff.1 hl)
    simp [hs] at hne
  · obtain ⟨id, sha, inc, file, hm, hl, hs, -, -, -, rfl⟩ := hfin
    have hpresent := htaken inc.name (List.mem_cons_self ..)
    simp [startsAlone, hm, hl, hs, hpresent] at h
  · obtain ⟨id, name, size, safe, hm, -⟩ := hopen
    exact absurd hq (hnone id name size _ hm q)
  · obtain ⟨id, name, size, hm, -⟩ := hopen
    exact hnone id name size _ hm q hq

/-- Two peers use one id for different files: one arrives, the other has the wrong digest.  Then the id is used
again. -/
private def turnsFrames : List Frame :=
  [frameFrom "a" (.blobStart 1 "x" 2 .file), frameFrom "b" (.blobStart 1 "y" 1 .file),
    frameFrom "a" (.blobChunk 1 [1]), frameFrom "b" (.blobChunk 1 [9]), frameFrom "a" (.blobChunk 1 [2]),
    frameFrom "a" (.blobEnd 1 (Vector.replicate 32 0)), frameFrom "b" (.blobEnd 1 (Vector.replicate 32 1)),
    frameFrom "a" (.blobStart 1 "z" 1 .file)]

theorem no_stray_temps_iff_turns : ∃ s, Run (receiveRemoving zeroSha keepConfig) Always (History.start FileSys.empty)
      turnsFrames s ∧ partsLeft s.log = ["d/.z.1.part"] ∧ s.rx.fs.read "d/x" = some [1, 2] ∧
    Throughout (receiveRemoving zeroSha keepConfig) NoStray (History.start FileSys.empty) turnsFrames := by
  obtain ⟨s, hr, hv⟩ := run_of_exec_checked (receiveRemoving zeroSha keepConfig)
    (fun s f => startsAlone keepConfig s f = true) (History.start FileSys.empty) turnsFrames
    (fun s => (partsLeft s.log, s.rx.fs.read "d/x")) (["d/.z.1.part"], some [1, 2]) (by decide +kernel)
  obtain ⟨hleft, hread⟩ := Prod.mk.inj hv
  exact ⟨s, hr.always, hleft, hread, (no_stray_temps_iff zeroSha keepConfig FileSys.empty turnsFrames s hr.always).2
    (hr.mono fun _ _ h => leavesNoTemp_of_startsAlone h)⟩

/-- One transfer that is started twice under different names. -/
private def restartedFrames : List Frame :=
  [frameFrom "a" (.blobStart 1 "x" 1 .file), frameFrom "a" (.blobStart 1 "y" 1 .file)]

/-- The temp file of the first start stays behind. -/
theorem restarted_transfer_leaves_temp :
    ¬ Throughout (receiveRemoving zeroSha keepConfig) NoStray (History.start FileSys.empty) restartedFrames := by
  intro h
  have hrun := run_of_exec_view (receiveRemoving zeroSha keepConfig) (fun _ => True) (History.start FileSys.empty)
    restartedFrames
    (fun s => (partsLeft s.log, s.rx.fs.read "d/.x.1.part", s.rx.incoming.entries.map fun e => e.2.sink))
    (["d/.y.1.part", "d/.x.1.part"], some [], [.file "d/.y.1.part" "d" ⟨⟨1, 0⟩, false⟩]) (fun _ _ => trivial)
    (by decide)
  obtain ⟨s, hr, hview⟩ := hrun
  simp only [Prod.mk.injEq] at hview
  obtain ⟨hleft, hread, hsinks⟩ := hview
  have hfile : HasFile s.rx.fs "d/.x.1.part" := FileSys.read_eq_some hread
  obtain ⟨k, inc, dir, file, hl, hs⟩ := ((h restartedFrames [] s (by simp) hr).parts "d/.x.1.part").1
    ⟨by rw [hleft]; simp, hfile⟩
  -- the only entry has the other temp file
  have hmem : inc.sink ∈ s.rx.incoming.entries.map fun e => e.2.sink :=
    List.mem_map.2 ⟨⟨k, inc⟩, AList.mem_lookup_iff.1 hl, rfl⟩
  rw [hsinks, List.mem_singleton, hs] at hmem
  simp at hmem

end Qdrop
