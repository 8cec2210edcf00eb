import Mathlib.Data.List.Induction
import Qdrop.FileXfer.Verdict

/-!
# Write faults

A failed write on a tokio `fs::File` may be reported by a later call only.  `on_chunk` checks `write_all`, but `on_end`
ignores what `flush` and `sync_all` return, and the digest and the byte count are those of the received data.  A fault
in the last buffer of the last bytes is therefore never seen (`lost_write_reported_iff`).
-/

namespace Qdrop

open Lib

/-- A chunk of `k`, and after how many bytes its write fails. -/
def chunkFrame (k : XferKey) (registry : PeersFile) (c : Bytes × Option Nat) : Frame :=
  ⟨k.1, .blobChunk k.2 c.1, registry, ⟨false, false, c.2, false, false, ""⟩⟩

/-- The received bytes. -/
def receivedBytes (chunks : List (Bytes × Option Nat)) : Bytes := chunks.flatMap Prod.fst

/-- No write fails. -/
def Faultless (chunks : List (Bytes × Option Nat)) : Prop := ∀ c ∈ chunks, c.1 = [] ∨ c.2 = none

/-- The write of `data` fails after `j` bytes, in the last of its buffers. -/
def InLastBuf (data : Bytes) (j : Nat) : Prop :=
  data ≠ [] ∧ min j (data.length - 1) / maxBuf = (data.length - 1) / maxBuf

/-- The first write that fails does so in its last buffer, and no bytes follow. -/
def LostAtEnd (chunks : List (Bytes × Option Nat)) : Prop :=
  ∃ before data j after, chunks = before ++ (data, some j) :: after ∧ Faultless before ∧ InLastBuf data j ∧
    ∀ c ∈ after, c.1 = []

/-- If not every received byte has reached the inode `ino` of the temp file before the `BlobEnd`, then the receiver
renames nothing, removes the temp file and answers `ok = false` only. -/
def LossReported (k : XferKey) (tmp : PathBuf) (ino : Nat) (bytes : Bytes) (s t : History) : Prop :=
  s.rx.fs.data ino ≠ bytes → (∀ h ∈ t.log, ∀ src dst, Effect.rename src dst ∉ h.2) ∧ ¬ HasFile t.rx.fs tmp ∧
    Answered k false t.log ∧ ¬ Answered k true t.log

/-! ### Sequences of writes -/

section Sequences

variable {chunks : List (Bytes × Option Nat)} {c : Bytes × Option Nat}

theorem receivedBytes_snoc : receivedBytes (chunks ++ [c]) = receivedBytes chunks ++ c.1 := by
  simp [receivedBytes, List.flatMap_append]

theorem faultless_snoc : Faultless (chunks ++ [c]) ↔ Faultless chunks ∧ (c.1 = [] ∨ c.2 = none) := by
  simp only [Faultless, List.mem_append, List.mem_singleton, or_imp, forall_and, forall_eq]

/-- A loss at the end stays one through empty chunks, and begins with a fault in a last buffer. -/
theorem lostAtEnd_snoc : LostAtEnd (chunks ++ [c]) ↔
    (LostAtEnd chunks ∧ c.1 = []) ∨ (Faultless chunks ∧ ∃ j, c.2 = some j ∧ InLastBuf c.1 j) := by
  constructor
  · rintro ⟨before, data, j, after, heq, hbefore, hbuf, hafter⟩
    rcases List.eq_nil_or_concat after with rfl | ⟨after', d, rfl⟩
    · obtain ⟨rfl, hc⟩ := List.append_inj' heq rfl
      obtain rfl : c = (data, some j) := by simpa using hc
      exact Or.inr ⟨hbefore, j, rfl, hbuf⟩
    · have heq' : chunks ++ [c] = (before ++ (data, some j) :: after') ++ [d] := by
        rw [heq]
        simp
      obtain ⟨rfl, hc⟩ := List.append_inj' heq' rfl
      obtain rfl : c = d := by simpa using hc
      refine Or.inl ⟨⟨before, data, j, after', rfl, hbefore, hbuf, fun e he => hafter e ?_⟩, hafter c (by simp)⟩
      simp [he]
  · rintro (⟨⟨before, data, j, after, rfl, hbefore, hbuf, hafter⟩, hc⟩ | ⟨hfl, j, hj, hbuf⟩)
    · refine ⟨before, data, j, after ++ [c], by simp, hbefore, hbuf, ?_⟩
      intro e he
      rcases List.mem_append.1 he with he | he
      · exact hafter e he
      · rw [List.mem_singleton.1 he]
        exact hc
    · obtain ⟨data, fail⟩ := c
      obtain rfl : fail = some j := hj
      exact ⟨chunks, data, j, [], rfl, hfl, hbuf, fun e he => by cases he⟩

theorem not_faultless_of_lostAtEnd (h : LostAtEnd chunks) : ¬ Faultless chunks := by
  obtain ⟨before, data, j, after, rfl, -, hbuf, -⟩ := h
  intro hf
  rcases hf (data, some j) (by simp) with h | h
  · exact hbuf.1 h
  · cases h

end Sequences

/-! ### What `write_all` does -/

section Writes

variable {fs : FileSys PathBuf} {file : OpenFile} {data : Bytes}

theorem writeAll_empty (fail : Option Nat) : writeAll fs file [] fail = (fs, file, true) := by
  simp only [writeAll, if_true]

/-- An error left by an earlier write is reported by the next one. -/
theorem writeAll_deferred (fs : FileSys PathBuf) (hdata : data ≠ []) (hdef : file.deferred = true) (fail : Option Nat) :
    ∃ file', writeAll fs file data fail = (fs, file', false) := by
  refine ⟨⟨file.handle, false⟩, ?_⟩
  simp only [writeAll, hdata, hdef, if_false, if_true]

/-- A fault loses bytes, and is reported unless it hits the last buffer. -/
theorem writeAll_fault (hdata : data ≠ []) (hdef : file.deferred = false)
    (hpos : file.handle.pos = (fs.data file.handle.ino).length) (j : Nat) :
    ∃ fs' h ok, writeAll fs file data (some j) = (fs', ⟨h, ok⟩, ok) ∧ (ok = true ↔ InLastBuf data j) ∧
      fs'.node = fs.node ∧ h.ino = file.handle.ino ∧
      (fs'.data file.handle.ino).length < (fs.data file.handle.ino).length + data.length := by
  have hpos' : 0 < data.length := List.length_pos_of_ne_nil hdata
  obtain ⟨hnode, hwrite, -⟩ := FileSys.write_spec fs file.handle (data.take (min j (data.length - 1)))
  refine ⟨(fs.write file.handle (data.take (min j (data.length - 1)))).1,
    (fs.write file.handle (data.take (min j (data.length - 1)))).2,
    decide (min j (data.length - 1) / maxBuf = (data.length - 1) / maxBuf), ?_, ?_, hnode, rfl, ?_⟩
  · simp only [writeAll, hdata, hdef, if_false, Bool.false_eq_true]
  · rw [decide_eq_true_iff]
    exact ⟨fun h => ⟨hdata, h⟩, And.right⟩
  · rw [hwrite, hpos, overwrite_end, List.length_append, List.length_take]
    omega

end Writes

/-! ### The stages of a transfer -/

/-- What stays the same during the transfer: its key, its paths and inode, its name and declared size. -/
structure Reception where
  key : XferKey
  tmp : PathBuf
  dir : PathBuf
  ino : Nat
  safe : String
  size : Nat

/-- The entry is open with the file `file`, and has hashed `bytes`. -/
structure ReceptionOpen (b : Reception) (s : History) (bytes : Bytes) (file : OpenFile) : Prop where
  entry : ∃ inc, s.rx.incoming.lookup b.key = some inc ∧ inc.sink = .file b.tmp b.dir file ∧ inc.name = b.safe ∧
    inc.declared = b.size ∧ inc.hasher = bytes ∧ inc.written = bytes.length
  ino : file.handle.ino = b.ino
  node : s.rx.fs.node b.tmp = some (.file b.ino)

/-- The entry is gone with its temp file, and the peer has been told. -/
structure ReceptionDropped (b : Reception) (s : History) : Prop where
  entry : s.rx.incoming.lookup b.key = none
  gone : ¬ HasFile s.rx.fs b.tmp
  told : Answered b.key false s.log

/-- Nothing has been renamed, and nothing acknowledged. -/
def NothingDone (k : XferKey) (log : Log) : Prop :=
  ∀ h ∈ log, (∀ src dst, Effect.rename src dst ∉ h.2) ∧ ∀ detail, Effect.send k.1 (.blobAck k.2 true detail) ∉ h.2

/-- The transfer after these chunks: all is written, or bytes are lost and not reported yet, or it was dropped. -/
inductive WriteStage (b : Reception) (chunks : List (Bytes × Option Nat)) (s : History) : Prop
  | whole (hf : Faultless chunks) (file : OpenFile) (hopen : ReceptionOpen b s (receivedBytes chunks) file)
      (hdef : file.deferred = false) (hpos : file.handle.pos = (s.rx.fs.data b.ino).length)
      (hdata : s.rx.fs.data b.ino = receivedBytes chunks)
  | lost (hl : LostAtEnd chunks) (file : OpenFile) (hopen : ReceptionOpen b s (receivedBytes chunks) file)
      (hdef : file.deferred = true) (hshort : (s.rx.fs.data b.ino).length < (receivedBytes chunks).length)
  | dropped (hf : ¬ Faultless chunks) (hl : ¬ LostAtEnd chunks) (hdrop : ReceptionDropped b s)

section Stages

variable {sha256 : Bytes → Digest} {cfg : XferConfig} {s : History} {b : Reception} {registry : PeersFile}
  {bytes : Bytes} {deferred : Bool} {c : Bytes × Option Nat} {chunks : List (Bytes × Option Nat)}

theorem nothingDone_snoc {k : XferKey} {log : Log} {f : Frame} {effs : List Effect} (h : NothingDone k log)
    (hren : ∀ src dst, Effect.rename src dst ∉ effs)
    (hack : ∀ detail, Effect.send k.1 (.blobAck k.2 true detail) ∉ effs) : NothingDone k (log ++ [(f, effs)]) := by
  intro h' hmem
  rcases List.mem_append.1 hmem with hmem | hmem
  · exact h h' hmem
  · rw [List.mem_singleton.1 hmem]
    exact ⟨hren, hack⟩

/-- A chunk that is written, or taken for written, extends the entry. -/
private theorem reception_written (sha256 : Bytes → Digest) (cfg : XferConfig) (registry : PeersFile)
    {file file' : OpenFile} {fs : FileSys PathBuf} (h : ReceptionOpen b s bytes file)
    (hw : writeAll s.rx.fs file c.1 c.2 = (fs, file', true)) (hn : NothingDone b.key s.log) :
    ReceptionOpen b (receive sha256 cfg s (chunkFrame b.key registry c)) (bytes ++ c.1) file' ∧
      (receive sha256 cfg s (chunkFrame b.key registry c)).rx.fs = fs ∧
      NothingDone b.key (receive sha256 cfg s (chunkFrame b.key registry c)).log := by
  obtain ⟨inc, hl, hs, hname, hdecl, hhash, hwritten⟩ := h.entry
  obtain ⟨hnode, hino, -⟩ := writeAll_frame hw
  have hout : handled sha256 cfg s (chunkFrame b.key registry c) = (⟨s.rx.incoming.insert b.key
      (inc.push (.file b.tmp b.dir file') c.1), fs⟩, [.write b.tmp]) := by
    simp only [handled, chunkFrame, handleBlob, onChunk, hl, hs, hw]
  refine ⟨⟨⟨inc.push (.file b.tmp b.dir file') c.1, ?_, rfl, hname, hdecl, ?_, ?_⟩, hino.trans h.ino, ?_⟩, ?_, ?_⟩
  · simp only [receive, hout, AList.lookup_insert]
  · simp only [Incoming.push, hhash]
  · simp only [Incoming.push, hwritten, List.length_append]
  · simp only [receive, hout, hnode]
    exact h.node
  · simp only [receive, hout]
  · simp only [receive, hout]
    exact nothingDone_snoc hn (by simp) (by simp)

/-- A chunk whose write reports an error drops the transfer. -/
private theorem reception_failed (sha256 : Bytes → Digest) (cfg : XferConfig) (registry : PeersFile)
    {file file' : OpenFile} {fs : FileSys PathBuf} (h : ReceptionOpen b s bytes file)
    (hw : writeAll s.rx.fs file c.1 c.2 = (fs, file', false)) (hn : NothingDone b.key s.log) :
    ReceptionDropped b (receive sha256 cfg s (chunkFrame b.key registry c)) ∧
      NothingDone b.key (receive sha256 cfg s (chunkFrame b.key registry c)).log := by
  obtain ⟨inc, hl, hs, -⟩ := h.entry
  -- the temp file is there, so it can be removed
  have hnode : fs.node b.tmp = some (.file b.ino) := by rw [(writeAll_frame hw).1]; exact h.node
  obtain ⟨fs', hrm, hremoved⟩ := tryRemove_of_file ⟨false, false, c.2, false, false, ""⟩ rfl hnode
  have hout : handled sha256 cfg s (chunkFrame b.key registry c) = (⟨s.rx.incoming.erase b.key, fs'⟩,
      [.write b.tmp, .remove b.tmp, reject b.key.1 b.key.2 "write failed"]) := by
    simp only [handled, chunkFrame, handleBlob, onChunk, hl, hs, hw, hremoved, List.cons_append, List.nil_append]
  refine ⟨⟨?_, ?_, ?_⟩, ?_⟩
  · simp only [receive, hout, AList.lookup_erase]
  · rintro ⟨i, hi⟩
    simp only [receive, hout, (FileSys.removeFile_spec hrm).1] at hi
    cases hi
  · refine ⟨_, List.mem_append_right _ (List.mem_singleton.2 rfl), "write failed", ?_⟩
    rw [hout]
    simp [reject]
  · simp only [receive, hout]
    exact nothingDone_snoc hn (by simp [reject]) (by simp [reject])

/-- The step lemma: every chunk leads from a stage to a stage. -/
private theorem writeStage_chunk (h : WriteStage b chunks s) (hn : NothingDone b.key s.log) :
    WriteStage b (chunks ++ [c]) (receive sha256 cfg s (chunkFrame b.key registry c)) ∧
      NothingDone b.key (receive sha256 cfg s (chunkFrame b.key registry c)).log := by
  cases h with
  | whole hf file hopen hdef hpos hdata =>
    have hpos' : file.handle.pos = (s.rx.fs.data file.handle.ino).length := by rw [hopen.ino]; exact hpos
    by_cases hgood : c.1 = [] ∨ c.2 = none
    · -- nothing fails: the bytes are appended
      obtain ⟨fs', file', hw, -, hino, hend, hdef', happend, -⟩ := writeAll_append c.1 hpos' hdef
      have hw' : writeAll s.rx.fs file c.1 c.2 = (fs', file', true) := by
        rcases hgood with h0 | h0
        · rw [h0, writeAll_empty] at hw ⊢
          exact hw
        · rw [h0]
          exact hw
      obtain ⟨hopen', hfs, hn'⟩ := reception_written sha256 cfg registry hopen hw' hn
      rw [hopen.ino] at happend
      refine ⟨.whole (faultless_snoc.2 ⟨hf, hgood⟩) file' ?_ hdef' ?_ ?_, hn'⟩
      · rw [receivedBytes_snoc]
        exact hopen'
      · rw [hfs, hend, hpos, happend, List.length_append]
      · rw [hfs, happend, hdata, receivedBytes_snoc]
    · obtain ⟨hne, j, hj⟩ : c.1 ≠ [] ∧ ∃ j, c.2 = some j := by
        rw [not_or] at hgood
        exact ⟨hgood.1, Option.ne_none_iff_exists'.1 hgood.2⟩
      obtain ⟨fs', h', ok, hw, hok, -, -, hshort⟩ := writeAll_fault hne hdef hpos' j
      rw [← hj] at hw
      rw [hopen.ino, hdata, ← List.length_append] at hshort
      cases ok with
      | true =>
        obtain ⟨hopen', hfs, hn'⟩ := reception_written sha256 cfg registry hopen hw hn
        refine ⟨.lost (lostAtEnd_snoc.2 (Or.inr ⟨hf, j, hj, hok.1 rfl⟩)) ⟨h', true⟩ ?_ rfl ?_, hn'⟩
        · rw [receivedBytes_snoc]
          exact hopen'
        · rw [hfs, receivedBytes_snoc]
          exact hshort
      | false =>
        obtain ⟨hdrop, hn'⟩ := reception_failed sha256 cfg registry hopen hw hn
        refine ⟨.dropped (fun h => hgood (faultless_snoc.1 h).2) (fun h => ?_) hdrop, hn'⟩
        rcases lostAtEnd_snoc.1 h with ⟨-, h0⟩ | ⟨-, j', hj', hbuf⟩
        · exact hne h0
        · rw [hj, Option.some.injEq] at hj'
          subst hj'
          exact absurd (hok.2 hbuf) (by simp)
  | lost hl file hopen hdef hshort =>
    by_cases hnil : c.1 = []
    · obtain ⟨hopen', hfs, hn'⟩ := reception_written sha256 cfg registry hopen
        (by rw [hnil]; exact writeAll_empty c.2) hn
      refine ⟨.lost (lostAtEnd_snoc.2 (Or.inl ⟨hl, hnil⟩)) file ?_ hdef ?_, hn'⟩
      · rw [receivedBytes_snoc]
        exact hopen'
      · rw [hfs, receivedBytes_snoc, hnil, List.append_nil]
        exact hshort
    · -- the next bytes find the error
      obtain ⟨file', hw⟩ := writeAll_deferred s.rx.fs hnil hdef c.2
      obtain ⟨hdrop, hn'⟩ := reception_failed sha256 cfg registry hopen hw hn
      have hf := not_faultless_of_lostAtEnd hl
      refine ⟨.dropped (fun h => hf (faultless_snoc.1 h).1) (fun h => ?_) hdrop, hn'⟩
      rcases lostAtEnd_snoc.1 h with ⟨-, h0⟩ | ⟨h0, -⟩
      · exact hnil h0
      · exact hf h0
  | dropped hf hl hdrop =>
    have hout : handled sha256 cfg s (chunkFrame b.key registry c) = (s.rx, []) := by
      simp only [handled, chunkFrame, handleBlob, onChunk, hdrop.entry]
    refine ⟨.dropped (fun h => hf (faultless_snoc.1 h).1) (fun h => ?_) ⟨?_, ?_, ?_⟩, ?_⟩
    · rcases lostAtEnd_snoc.1 h with ⟨h0, -⟩ | ⟨h0, -⟩
      · exact hl h0
      · exact hf h0
    · simp only [receive, hout]
      exact hdrop.entry
    · simp only [receive, hout]
      exact hdrop.gone
    · obtain ⟨h, hmem, hsent⟩ := hdrop.told
      exact ⟨h, List.mem_append_left _ hmem, hsent⟩
    · simp only [receive, hout]
      exact nothingDone_snoc hn (by simp) (by simp)

/-- The run lemma: every sequence of chunks leads to a stage. -/
private theorem writeStage_chunks (sha256 : Bytes → Digest) (cfg : XferConfig) (registry : PeersFile)
    (chunks : List (Bytes × Option Nat)) (h : WriteStage b [] s) (hn : NothingDone b.key s.log) :
    WriteStage b chunks ((chunks.map (chunkFrame b.key registry)).foldl (receive sha256 cfg) s) ∧
      NothingDone b.key ((chunks.map (chunkFrame b.key registry)).foldl (receive sha256 cfg) s).log := by
  induction chunks using List.reverseRecOn with
  | nil => exact ⟨h, hn⟩
  | append_singleton chunks c ih =>
    rw [List.map_append, List.foldl_append]
    exact writeStage_chunk ih.1 ih.2

/-- The end of a transfer that lost bytes without being told: accepted exactly when the checks pass and the file can
be renamed. -/
private theorem lost_end (sha256 : Bytes → Digest) (cfg : XferConfig) {file : OpenFile} {f : Frame}
    {sha : Digest} (hopen : ReceptionOpen b s bytes file)
    (hn : NothingDone b.key s.log) (hshort : s.rx.fs.data b.ino ≠ bytes) (hpeer : f.peer = b.key.1)
    (hm : f.msg = .blobEnd b.key.2 sha) (hio : f.io.failRemove = false) :
    LossReported b.key b.tmp b.ino bytes s (receive sha256 cfg s f) ↔
      ¬ (sha256 bytes = sha ∧ (b.size = 0 ∨ bytes.length = b.size) ∧ f.io.failRename = false ∧
        s.rx.fs.node (uniqueDest s.rx.fs b.dir b.safe) ≠ some .dir) := by
  obtain ⟨⟨peer, id⟩, tmp, dir, ino, safe, size⟩ := b
  obtain rfl : f.peer = peer := hpeer
  obtain ⟨inc, hl, hs, rfl, rfl, rfl, hwritten⟩ := hopen.entry
  have hnode : s.rx.fs.node tmp = some (.file ino) := hopen.node
  have hend : handled sha256 cfg s f = onEnd sha256 cfg f.registry f.io s.rx f.peer id sha := by
    simp only [handled, hm, handleBlob]
  have hlast : (f, (handled sha256 cfg s f).2) ∈ (receive sha256 cfg s f).log :=
    List.mem_append_right _ (List.mem_singleton.2 rfl)
  constructor
  · rintro hrep ⟨hsha, hsize, hren, hdest⟩
    obtain ⟨fs, hfs⟩ := FileSys.rename_of_not_dir hnode hdest
    obtain ⟨shown, hout⟩ := onEnd_place sha256 cfg f.registry f.io hl hsha
      (hsize.imp_right fun h => hwritten.trans h) hs hren hfs
    rw [← hend] at hout
    exact (hrep hshort).1 _ hlast tmp (uniqueDest s.rx.fs dir inc.name) (by rw [hout]; simp)
  · intro hno _
    obtain ⟨fs, detail, hrm, hout⟩ := onEnd_refuse sha256 cfg f.registry f.io hl hs hnode hio
      (fun h => hno ⟨h.1, h.2.1.imp_right fun h => hwritten.symm.trans h, h.2.2⟩)
    rw [← hend] at hout
    have hdone : NothingDone (f.peer, id) (receive sha256 cfg s f).log := by
      simp only [receive, hout]
      exact nothingDone_snoc hn (by simp [reject]) (by simp [reject])
    refine ⟨fun h hmem => (hdone h hmem).1, ?_, ⟨_, hlast, detail, by rw [hout]; simp [reject]⟩, ?_⟩
    · rintro ⟨i, hi⟩
      simp only [receive, hout, (FileSys.removeFile_spec hrm).1] at hi
      cases hi
    · rintro ⟨h, hmem, detail', hsend⟩
      exact (hdone h hmem).2 detail' hsend

/-- The end of a transfer that was dropped changes nothing. -/
private theorem dropped_end {f : Frame} {sha : Digest} (hdrop : ReceptionDropped b s) (hn : NothingDone b.key s.log)
    (hpeer : f.peer = b.key.1) (hm : f.msg = .blobEnd b.key.2 sha) :
    LossReported b.key b.tmp b.ino bytes s (receive sha256 cfg s f) := by
  obtain ⟨⟨peer, id⟩, tmp, dir, ino, safe, size⟩ := b
  obtain rfl : f.peer = peer := hpeer
  have hout : handled sha256 cfg s f = (s.rx, []) := by simp only [handled, hm, handleBlob, onEnd, hdrop.entry]
  have hdone : NothingDone (f.peer, id) (receive sha256 cfg s f).log := by
    simp only [receive, hout]
    exact nothingDone_snoc hn (by simp) (by simp)
  obtain ⟨h, hmem, htold⟩ := hdrop.told
  refine fun _ => ⟨fun h hmem => (hdone h hmem).1, ?_, ⟨h, List.mem_append_left _ hmem, htold⟩, ?_⟩
  · simp only [receive, hout]
    exact hdrop.gone
  · rintro ⟨h, hmem, detail, hsend⟩
    exact (hdone h hmem).2 detail hsend

end Stages

/-- For every sequence of chunks and every placement of write faults: lost bytes are reported, the temp file removed
and nothing acknowledged, unless the first fault hits the last buffer of the last bytes and the received data pass
both checks. -/
theorem lost_write_reported_iff (sha256 : Bytes → Digest) (cfg : XferConfig) (rx : Rx) (k : XferKey)
    (name safe : String) (size : Nat) (sha : Digest) (registry registry' : PeersFile) (io : Io)
    (chunks : List (Bytes × Option Nat)) (ino : Nat) (s₀ s : History)
    (hs₀ : s₀ = receive sha256 cfg ⟨rx, []⟩ ⟨k.1, .blobStart k.2 name size .file, registry, Io.ok⟩)
    (hs : s = (chunks.map (chunkFrame k registry)).foldl (receive sha256 cfg) s₀)
    (hslot : rx.incoming.keys.length < maxConcurrentIncoming) (hsafe : safeBlobName name = some safe)
    (hdir : ¬ HasFile rx.fs (finalDirFor cfg registry k.1))
    (htmp : rx.fs.node (tmpPathFor (finalDirFor cfg registry k.1) safe k.2) ≠ some .dir)
    (hino : s₀.rx.fs.node (tmpPathFor (finalDirFor cfg registry k.1) safe k.2) = some (.file ino))
    (hio : io.failRemove = false) :
    LossReported k (tmpPathFor (finalDirFor cfg registry k.1) safe k.2) ino (receivedBytes chunks) s
        (receive sha256 cfg s ⟨k.1, .blobEnd k.2 sha, registry', io⟩) ↔
      ¬ (LostAtEnd chunks ∧ sha256 (receivedBytes chunks) = sha ∧
        (size = 0 ∨ (receivedBytes chunks).length = size) ∧ io.failRename = false ∧
        s.rx.fs.node (uniqueDest s.rx.fs (finalDirFor cfg registry k.1) safe) ≠ some .dir) := by
  obtain ⟨handle, fs, hfile, hpos, hdata, hout⟩ := handled_opens (s := ⟨rx, []⟩)
    (f := ⟨k.1, .blobStart k.2 name size .file, registry, Io.ok⟩) sha256 cfg rfl hslot hsafe rfl rfl hdir htmp
  have hino' : handle.ino = ino := by
    simp only [hs₀, receive, hout, hfile, Option.some.injEq, Node.file.injEq] at hino
    exact hino
  subst hino'
  -- the transfer begins with an empty temp file
  have hstart : WriteStage ⟨k, tmpPathFor (finalDirFor cfg registry k.1) safe k.2, finalDirFor cfg registry k.1,
      handle.ino, safe, size⟩ [] s₀ := by
    refine .whole (fun c hc => by cases hc) ⟨handle, false⟩ ⟨⟨⟨safe, .file (tmpPathFor (finalDirFor cfg registry k.1)
      safe k.2) (finalDirFor cfg registry k.1) ⟨handle, false⟩, [], 0, size⟩, ?_, rfl, rfl, rfl, rfl, rfl⟩, rfl, hino⟩
      rfl ?_ ?_
    · simp only [hs₀, receive, hout, AList.lookup_insert]
    · simp only [hs₀, receive, hout, hdata, hpos]
      rfl
    · simp only [hs₀, receive, hout, hdata]
      rfl
  have hnone : NothingDone k s₀.log := by
    simp only [hs₀, receive, hout]
    exact nothingDone_snoc (fun h hmem => by cases hmem) (by simp) (by simp)
  obtain ⟨hstage, hdone⟩ := writeStage_chunks sha256 cfg registry chunks hstart hnone
  rw [← hs] at hstage hdone
  cases hstage with
  | whole hf file hopen hdef hend hwhole =>
    refine iff_of_true (fun hlost => absurd hwhole hlost) ?_
    rintro ⟨hl, -⟩
    exact not_faultless_of_lostAtEnd hl hf
  | lost hl file hopen hdef hshort =>
    have hne : s.rx.fs.data handle.ino ≠ receivedBytes chunks := by
      intro heq
      exact absurd (congrArg List.length heq) (Nat.ne_of_lt hshort)
    have hend := lost_end (f := ⟨k.1, .blobEnd k.2 sha, registry', io⟩) sha256 cfg hopen hdone hne rfl rfl hio
    rw [hend]
    exact not_congr ⟨fun h => ⟨hl, h⟩, And.right⟩
  | dropped hf hl hdrop =>
    exact iff_of_true (dropped_end (f := ⟨k.1, .blobEnd k.2 sha, registry', io⟩) hdrop hdone rfl rfl) fun h => hl h.1

private def plainSha (_ : Bytes) : Digest := Vector.replicate 32 0

private def faultConfig : XferConfig := ⟨"d", .never, false⟩

/-- The receiver after a file was started and these chunks arrived. -/
private def afterChunks (chunks : List (Bytes × Option Nat)) : History :=
  (chunks.map (chunkFrame ("a", 1) .absent)).foldl (receive plainSha faultConfig)
    (receive plainSha faultConfig ⟨⟨∅, FileSys.empty⟩, []⟩ ⟨"a", .blobStart 1 "x" 2 .file, .absent, Io.ok⟩)

theorem lost_write_reported_iff_two_chunks :
    LossReported ("a", 1) "d/.x.1.part" 0 [1, 2] (afterChunks [([1], some 0), ([2], none)])
        (receive plainSha faultConfig (afterChunks [([1], some 0), ([2], none)])
          ⟨"a", .blobEnd 1 (Vector.replicate 32 0), .absent, Io.ok⟩) ↔
      ¬ (LostAtEnd [([1], some 0), ([2], none)] ∧ plainSha [1, 2] = Vector.replicate 32 0 ∧ (2 = 0 ∨ 2 = 2) ∧
        Io.ok.failRename = false ∧
        (afterChunks [([1], some 0), ([2], none)]).rx.fs.node
          (uniqueDest (afterChunks [([1], some 0), ([2], none)]).rx.fs "d" "x") ≠ some .dir) :=
  lost_write_reported_iff plainSha faultConfig ⟨∅, FileSys.empty⟩ ("a", 1) "x" "x" 2 (Vector.replicate 32 0) .absent
    .absent Io.ok [([1], some 0), ([2], none)] 0 _ _ rfl rfl (by decide) (by decide) (by rintro ⟨i, hi⟩; cases hi)
    (fun h => by cases h) (by decide) rfl

/-- The write of the last chunk fails, and the file is put in place and acknowledged without its last byte. -/
theorem lost_last_chunk_acknowledged :
    ¬ LossReported ("a", 1) "d/.x.1.part" 0 [1, 2] (afterChunks [([1], none), ([2], some 0)])
      (receive plainSha faultConfig (afterChunks [([1], none), ([2], some 0)])
        ⟨"a", .blobEnd 1 (Vector.replicate 32 0), .absent, Io.ok⟩) := by
  intro h
  obtain ⟨-, -, -, hno⟩ := h (by decide)
  exact hno ⟨_, List.mem_append_right _ (List.mem_singleton.2 rfl), "x", by decide⟩

end Qdrop
