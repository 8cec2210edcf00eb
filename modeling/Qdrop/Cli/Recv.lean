import Qdrop.FileXfer.Temps
import Qdrop.Lib.Spool

/-!
# Waiting for a file (`cmd_recv` of `qdrop/src/main.rs`)

`qdrop recv` does not ask the daemon: it lists the download directory, lists it again until a name is there that was
not there before, waits until the size has settled, and prints the path or the bytes.  A listing is no atomic
snapshot (each entry is looked at by a call of its own), other `recv` processes remove files, and the file is read in
pieces while the daemon goes on.

`recv_prints_received` says that what is found and printed is nevertheless a file that was received and verified
after the process began to list, as long as no listing fails: `cmd_recv` takes a directory that it cannot read for an
empty one, and then a file that was there before for a new one.
-/

namespace Qdrop

open Lib

/-! ### One process -/

structure RecvArgs where
  /-- Write the file's contents to stdout. -/
  stdout : Bool
  /-- With `stdout`, keep the file. -/
  keep : Bool
deriving DecidableEq, Repr

/-- Where a process is. -/
inductive RecvPhase where
  | start
  /-- The directory has been made. -/
  | ready
  /-- Inside a `snapshot`: the entries to be looked at and the paths kept so far; the first one has no `before`. -/
  | scan (before : Option (List PathBuf)) (todo : List String) (kept : List PathBuf)
  | asleep (before : List PathBuf)
  | sized (before : List PathBuf) (file : PathBuf) (s1 : Nat)
  /-- The loop has been left with `new_file`. -/
  | found (file : PathBuf)
  /-- `println!`, without `--stdout`. -/
  | shown (file : PathBuf)
  | reading (file : PathBuf) (ino : Nat) (bytes : Bytes)
  | holding (file : PathBuf) (bytes : Bytes)
  | printed (file : PathBuf) (bytes : Bytes)
  | removed (file : PathBuf) (bytes : Bytes)
  | failed
deriving DecidableEq, Repr

/-- The system calls of a process, with their results where the disk's state does not decide them. -/
inductive RecvCall where
  /-- `create_dir_all`, its result ignored. -/
  | createDir (fail : Bool)
  /-- `read_dir`. -/
  | readDir (entries : List String)
  | isFile
  /-- The first `snapshot` is complete. -/
  | collect
  /-- Some element of the difference of the sets, if there is one, and its `metadata`. -/
  | pick (file : Option PathBuf) (len : Option Nat)
  /-- The deadline has passed. -/
  | timedOut
  | settle (len : Option Nat)
  | print
  | openFile
  | read (n : Nat)
  | write (ok : Bool)
  | remove (fail : Bool)
deriving DecidableEq, Repr

def isFile (fs : FileSys PathBuf) (p : PathBuf) : Bool := (fs.read p).isSome

/-- Not a name that `starts_with('.')`. -/
def undotted (name : String) : Bool := name.toList.head? != some '.'

def recvCall (args : RecvArgs) (dir : PathBuf) (fs : FileSys PathBuf) :
    RecvPhase → RecvCall → Option (FileSys PathBuf × RecvPhase)
  | .start, .createDir fail => some (if fail then fs else (fs.createDirAll dir).getD fs, .ready)
  | .ready, .readDir entries => some (fs, .scan none entries [])
  | .scan before (n :: todo) kept, .isFile =>
    some (fs, .scan before todo (if isFile fs (join dir n) && undotted n then join dir n :: kept else kept))
  | .scan none [] kept, .collect => some (fs, .asleep kept)
  | .asleep _, .timedOut => some (fs, .failed)
  | .asleep before, .readDir entries => some (fs, .scan (some before) entries [])
  | .scan (some before) [] now, .pick none _ => if now.all (· ∈ before) then some (fs, .asleep before) else none
  | .scan (some before) [] now, .pick (some file) len =>
    if file ∈ now ∧ file ∉ before then some (fs, .sized before file (len.getD 0)) else none
  | .sized before file s1, .settle len => some (fs, if s1 = len.getD 1 then .found file else .asleep before)
  | .found file, .print => if args.stdout then none else some (fs, .shown file)
  | .found file, .openFile =>
    if args.stdout then
      match fs.node file with
      | some (.file i) => some (fs, .reading file i [])
      | _ => some (fs, .failed)
    else none
  | .reading file i bytes, .read n =>
    if n = 0 then none
    else
      let piece := ((fs.data i).drop bytes.length).take n
      some (fs, if piece = [] then .holding file bytes else .reading file i (bytes ++ piece))
  | .holding file bytes, .write ok => some (fs, if ok then .printed file bytes else .failed)
  | .printed file bytes, .remove fail =>
    if args.keep then none
    else some (if fail then fs else (fs.removeFile file).getD fs, .removed file bytes)
  | _, _ => none

/-- The path a process has settled on. -/
def RecvPhase.newFile? : RecvPhase → Option PathBuf
  | .found file | .shown file | .reading file _ _ | .holding file _ | .printed file _ | .removed file _ => some file
  | .start | .ready | .scan .. | .asleep _ | .sized .. | .failed => none

/-- What a process has written to stdout, with the path it read. -/
def RecvPhase.output? : RecvPhase → Option (PathBuf × Bytes)
  | .printed file bytes | .removed file bytes => some (file, bytes)
  | _ => none

/-! ### The daemon and any number of processes -/

structure RecvSystem where
  daemon : History
  procs : Nat → RecvPhase

inductive RecvEvent where
  | frame (f : Frame)
  | call (w : Nat) (c : RecvCall)

def RecvSystem.start (fs : FileSys PathBuf) : RecvSystem := ⟨History.start fs, fun _ => .start⟩

/-- The receiver with another disk. -/
def History.onDisk (s : History) (fs : FileSys PathBuf) : History := ⟨⟨s.rx.incoming, fs⟩, s.log⟩

def recvStep (sha256 : Bytes → Digest) (cfg : XferConfig) (args : Nat → RecvArgs) (s : RecvSystem) :
    RecvEvent → Option RecvSystem
  | .frame f => some { s with daemon := receive sha256 cfg s.daemon f }
  | .call w c =>
    (recvCall (args w) cfg.downloadDir s.daemon.rx.fs (s.procs w) c).map fun r =>
      ⟨s.daemon.onDisk r.1, Function.update s.procs w r.2⟩

/-- `read_dir` yields the names of what is in the directory. -/
def ListsDir (fs : FileSys PathBuf) (dir : PathBuf) (entries : List String) : Prop :=
  ∀ n, n ∈ entries ↔ Bare n ∧ fs.present (join dir n) = true

/-- The frame's writes succeed and it does not make two transfers share a file; `read_dir` does not fail, so a listing
is one of the directory. -/
def RecvOk (cfg : XferConfig) (s : RecvSystem) : RecvEvent → Prop
  | .frame f => f.io.failWrite = none ∧ KeepsApart cfg s.daemon f
  | .call _ (.readDir entries) => ListsDir s.daemon.rx.fs cfg.downloadDir entries
  | .call _ _ => True

/-- After `n` frames or later, a `BlobEnd` renamed the `bytes` received for its transfer to `p`; the digest that it
carried is theirs, and the transfer was not held for confirmation. -/
def Delivered (sha256 : Bytes → Digest) (cfg : XferConfig) (n : Nat) (log : Log) (p : PathBuf) (bytes : Bytes) :
    Prop :=
  ∃ before f effs after id tmp registry, log = before ++ (f, effs) :: after ∧ n ≤ before.length ∧
    f.msg = .blobEnd id (sha256 bytes) ∧ Effect.rename tmp p ∈ effs ∧ received (f.peer, id) before = bytes ∧
    admitted (f.peer, id) before = some registry ∧ needsConfirm cfg.confirm registry f.peer = false

/-- A path that `snapshot` keeps when there is a file. -/
def Visible (cfg : XferConfig) (p : PathBuf) : Prop :=
  ∃ n, Bare n ∧ undotted n = true ∧ p = join cfg.downloadDir n

/-! ### What a frame does to the visible files -/

section Frames

variable {sha256 : Bytes → Digest} {cfg : XferConfig} {s : History} {f : Frame} {n : Nat} {p : PathBuf} {i : Nat}

theorem Delivered.append {log : Log} {bytes : Bytes} (h : Delivered sha256 cfg n log p bytes) (more : Log) :
    Delivered sha256 cfg n (log ++ more) p bytes := by
  obtain ⟨before, f, effs, after, id, tmp, registry, rfl, hrest⟩ := h
  exact ⟨before, f, effs, after ++ more, id, tmp, registry, by simp, hrest⟩

/-- What is under `pending` is not listed. -/
private theorem not_visible_pending {name : String} (hname : '/' ∉ name.toList) :
    ¬ Visible cfg (join (join cfg.downloadDir "pending") name) := by
  rintro ⟨m, hm, -, heq⟩
  exact join_ne_join_join (by decide) (by decide) hm.2.2.2 hname heq.symm

private theorem not_visible_tmp {dir : PathBuf} {safe : String} {id : Nat}
    (hdir : dir = cfg.downloadDir ∨ dir = join cfg.downloadDir "pending") (hsafe : Bare safe) :
    ¬ Visible cfg (tmpPathFor dir safe id) := by
  rcases hdir with rfl | rfl
  · rintro ⟨m, hm, hdot, heq⟩
    exact tmpPathFor_ne_join hsafe.2.2.2 hm.2.2.2 (by simpa [undotted] using hdot) heq
  · obtain ⟨m, hm, heq⟩ := tmpPathFor_child (join cfg.downloadDir "pending") hsafe.2.2.2 id
    rw [heq]
    exact not_visible_pending hm.2.2.2

/-- The temp file of a transfer is not visible. -/
private theorem FileOk.hidden {fs : FileSys PathBuf} {k : XferKey} {inc : Incoming} {tmp dir : PathBuf}
    {file : OpenFile} (h : FileOk cfg fs k inc tmp dir file) : ¬ Visible cfg tmp := by
  rw [h.path]
  exact not_visible_tmp h.dir h.bare

private theorem calm_writeAll {fs fs' : FileSys PathBuf} {file file' : OpenFile} {data : Bytes} {fail : Option Nat}
    {ok : Bool} (hi : fs.Sealed (Visible cfg) i) (hne : i ≠ file.handle.ino)
    (h : writeAll fs file data fail = (fs', file', ok)) : FileSys.Calm (Visible cfg) fs fs' i := by
  unfold writeAll at h
  split at h
  · cases h
    exact hi.calm_refl
  · split at h
    · cases h
      exact hi.calm_refl
    · split at h
      · cases h
        exact hi.calm_write hne data
      · cases h
        exact hi.calm_write hne _

private theorem calm_tryRemove {fs : FileSys PathBuf} (hi : fs.Sealed (Visible cfg) i) (io : Io) (q : PathBuf) :
    FileSys.Calm (Visible cfg) fs (tryRemove io fs q).1 i := by
  rcases tryRemove_cases io fs q with ⟨fs', hrm, heq⟩ | ⟨-, heq⟩
  · rw [heq]
    exact hi.calm_removeFile hrm
  · rw [heq]
    exact hi.calm_refl

/-- No frame writes to an inode that only visible names have. -/
private theorem calm_handled (hw : Whole cfg s) (hi : s.rx.fs.Sealed (Visible cfg) i) :
    FileSys.Calm (Visible cfg) s.rx.fs (handled sha256 cfg s f).1.fs i := by
  have hino : ∀ {k inc tmp dir file}, s.rx.incoming.lookup k = some inc → inc.sink = .file tmp dir file →
      i ≠ file.handle.ino := by
    rintro k inc tmp dir file hl hs rfl
    have hok := hw.files k inc tmp dir file hl hs
    exact hok.hidden (hi.2 tmp hok.node)
  unfold handled
  cases hm : f.msg with
  | blobStart id name size purpose =>
    show FileSys.Calm _ _ (onStart cfg f.registry f.io s.rx f.peer id name size purpose).1.fs i
    rcases onStart_cases cfg f.registry f.io s.rx f.peer id name size purpose with
      ⟨detail, h⟩ | ⟨fs, detail, hmk, h⟩ | ⟨-, -, -, h⟩ | ⟨safe, fs, fs', handle, -, hsafe, -, hmk, hcr, h⟩
    · rw [h]
      exact hi.calm_refl
    · rw [h]
      exact hi.calm_createDirAll hmk
    · rw [h]
      exact hi.calm_refl
    · rw [h]
      have hmade := hi.calm_createDirAll hmk
      have hhidden : ¬ Visible cfg (tmpPathFor (finalDirFor cfg f.registry f.peer) safe id) :=
        not_visible_tmp (finalDirFor_cases cfg f.registry f.peer) (safeBlobName_bare hsafe)
      exact hmade.trans (hmade.sealed.calm_create hhidden hcr)
  | blobChunk id data =>
    show FileSys.Calm _ _ (onChunk f.io s.rx f.peer id data).1.fs i
    rcases onChunk_cases f.io s.rx f.peer id data with
      ⟨-, h⟩ | ⟨inc, tmp, dir, file, fs, file', hl, hs, hwr, h⟩ | ⟨inc, tmp, dir, file, fs, file', hl, hs, hwr, h⟩ |
      ⟨inc, buf, -, -, -, h⟩ | ⟨inc, buf, -, -, h⟩
    · rw [h]
      exact hi.calm_refl
    · rw [h]
      exact calm_writeAll hi (hino hl hs) hwr
    · rw [h]
      have hwritten := calm_writeAll hi (hino hl hs) hwr
      exact hwritten.trans (calm_tryRemove hwritten.sealed f.io tmp)
    · rw [h]
      exact hi.calm_refl
    · rw [h]
      exact hi.calm_refl
  | blobEnd id sha =>
    show FileSys.Calm _ _ (onEnd sha256 cfg f.registry f.io s.rx f.peer id sha).1.fs i
    rcases onEnd_cases sha256 cfg f.registry f.io s.rx f.peer id sha with
      ⟨-, h⟩ | ⟨inc, detail, -, h⟩ | ⟨inc, bytes, -, -, -, h⟩ | ⟨inc, tmp, dir, file, fs, shown, hl, -, hs, hren, h⟩ |
      ⟨inc, tmp, dir, file, detail, -, -, h⟩
    · rw [h]
      exact hi.calm_refl
    · rw [h]
      cases inc.sink with
      | file tmp dir file => exact calm_tryRemove hi f.io tmp
      | memory buf => exact hi.calm_refl
    · rw [h]
      exact hi.calm_refl
    · rw [h]
      exact hi.calm_rename (hw.files _ inc tmp dir file hl hs).hidden hren
    · rw [h]
      exact calm_tryRemove hi f.io tmp
  | _ => exact hi.calm_refl

/-- The final directory of a file that was not held, and only of such a file, is the download directory. -/
private theorem Placed.not_held {k : XferKey} {inc : Incoming} {tmp dir : PathBuf} {log : Log}
    (h : Placed cfg log k inc tmp dir) {name : String} (hname : '/' ∉ name.toList) (hv : Visible cfg (join dir name)) :
    ∃ registry, admitted k log = some registry ∧ needsConfirm cfg.confirm registry k.1 = false := by
  obtain ⟨registry, hadm, hdir⟩ := h.home
  refine ⟨registry, hadm, ?_⟩
  by_contra hheld
  rw [finalDirFor, if_pos (by simpa using hheld)] at hdir
  rw [hdir] at hv
  exact not_visible_pending hname hv

/-- A file that a frame makes visible is delivered by it. -/
private theorem delivered_of_new (hw : Whole cfg s) (hpl : AllPlaced cfg s) (hn : n ≤ s.log.length)
    {out : Rx × List Effect} (ho : FrameOutcome sha256 cfg s f out) (hp : Visible cfg p)
    (hi : out.1.fs.node p = some (.file i)) :
    s.rx.fs.node p = some (.file i) ∨ Delivered sha256 cfg n (s.log ++ [(f, out.2)]) p (out.1.fs.data i) := by
  cases ho with
  | idle hsame hdata heffs => exact Or.inl ((hsame p i).1 hi)
  | image hkey hopen hs => exact Or.inl hi
  | @opened k inc q dir fs handle hkey hopen hs hnode hother hino hdata =>
    left
    refine (hother p i ?_).1 hi
    rintro rfl
    obtain ⟨id, name, size, safe, -, -, hsafe, -, -, -, -, rfl⟩ := hopen
    exact not_visible_tmp (finalDirFor_cases cfg f.registry f.peer) (safeBlobName_bare hsafe) hp
  | written hkey hl hs hs' hino hnode hdata =>
    left
    rw [← hnode]
    exact hi
  | buffered hkey hl hs hs' => exact Or.inl hi
  | @dropped k inc q dir file fs before after hkey hl hs hnode hdata hbefore hafter =>
    left
    have hq : p ≠ q := by
      rintro rfl
      exact (hw.files k inc p dir file hl hs).hidden hp
    have hi : (tryRemove f.io fs q).1.node p = some (.file i) := hi
    rw [(tryRemove_frame f.io fs q).1 p hq, hnode] at hi
    exact hi
  | forgotten hkey hl hs heffs => exact Or.inl hi
  | @placed k inc q dir file fs after hkey hl hs hfin hren hafter =>
    have hok := hw.files k inc q dir file hl hs
    obtain ⟨⟨j, hj, hdest⟩, -, hother, hdata⟩ := FileSys.rename_spec hren
    by_cases hpd : p = uniqueDest s.rx.fs dir inc.name
    · right
      -- the renamed inode is that of the temp file, which holds what was hashed
      have hi : fs.node p = some (.file i) := hi
      rw [hpd, hdest] at hi
      cases hi
      have hino : i = file.handle.ino := by
        have := hj.symm.trans hok.node
        cases this
        rfl
      obtain ⟨id, sha, inc', file', hm, hl', hs', hsha, -, -, hname⟩ := hfin
      have hk : k = (f.peer, id) := by
        have : f.key? = some (f.peer, id) := by simp only [Frame.key?, hm]
        exact Option.some.inj (hkey.symm.trans this)
      subst hk
      cases Option.some.inj (hl.symm.trans hl')
      have hbytes : fs.data i = received (f.peer, id) s.log := by
        rw [hdata, hino, hok.data, hw.hashed _ inc hl]
      obtain ⟨m, hm', hchild⟩ := uniqueDest_child s.rx.fs dir hok.bare
      obtain ⟨registry, hadm, hheld⟩ := (hpl _ inc q dir file hl hs).not_held hm'.2.2.2 (hchild ▸ hpd ▸ hp)
      refine ⟨s.log, f, _, [], id, q, registry, rfl, hn, ?_, ?_, hbytes.symm, hadm, hheld⟩
      · rw [hm, ← hsha, hw.hashed _ inc hl, hbytes]
      · rw [hpd]
        exact List.mem_cons_self ..
    · left
      have hq : p ≠ q := by
        rintro rfl
        exact hok.hidden hp
      have hi : fs.node p = some (.file i) := hi
      rw [hother p hq hpd] at hi
      exact hi

/-- A frame publishes what it delivers, and leaves the other visible files alone. -/
theorem spooled_receive (hw : Whole cfg s) (hpl : AllPlaced cfg s) (hn : n ≤ s.log.length) :
    Spooled (Visible cfg) (Delivered sha256 cfg n s.log) (Delivered sha256 cfg n (receive sha256 cfg s f).log)
      s.rx.fs (receive sha256 cfg s f).rx.fs where
  calm _ hi := calm_handled hw hi
  new _ _ hp hi := delivered_of_new hw hpl hn (frameOutcome sha256 cfg s f) hp hi
  kept _ _ h := h.append _

end Frames

/-! ### What a process knows -/

section Processes

variable {cfg : XferConfig} {args : RecvArgs} {fs fs' : FileSys PathBuf} {phase phase' : RecvPhase} {call : RecvCall}
  {Published Published' : PathBuf → Bytes → Prop}

/-- The paths a process holds are paths that `snapshot` keeps. -/
def RecvPhase.Sees (cfg : XferConfig) : RecvPhase → Prop
  | .scan _ todo kept => (∀ n ∈ todo, Bare n) ∧ ∀ p ∈ kept, Visible cfg p
  | .sized _ file _ | .found file | .shown file | .reading file _ _ | .holding file _ | .printed file _
  | .removed file _ => Visible cfg file
  | .start | .ready | .asleep _ | .failed => True

/-- A visible file that is not in the set is as published. -/
def AllNews (cfg : XferConfig) (Published : PathBuf → Bytes → Prop) (fs : FileSys PathBuf) (before : List PathBuf) :
    Prop :=
  ∀ p, Visible cfg p → p ∈ before ∨ News Published fs p

/-- What a process has found out, when `Published` is what has been published since it began to list. -/
def RecvPhase.Knows (cfg : XferConfig) (Published : PathBuf → Bytes → Prop) (fs : FileSys PathBuf) : RecvPhase → Prop
  | .start | .ready | .failed => True
  | .scan none todo kept => ∀ n, Bare n → undotted n = true →
    n ∈ todo ∨ join cfg.downloadDir n ∈ kept ∨ News Published fs (join cfg.downloadDir n)
  | .scan (some before) _ now => AllNews cfg Published fs before ∧ ∀ p ∈ now, p ∈ before ∨ ∃ bytes, Published p bytes
  | .asleep before => AllNews cfg Published fs before
  | .sized before file _ => AllNews cfg Published fs before ∧ News Published fs file ∧ ∃ bytes, Published file bytes
  | .found file => News Published fs file ∧ ∃ bytes, Published file bytes
  | .shown file => ∃ bytes, Published file bytes
  | .reading file i bytes => Opened (Visible cfg) Published fs file i ∧ bytes <+: fs.data i
  | .holding file bytes | .printed file bytes | .removed file bytes => Published file bytes

private theorem AllNews.step {before : List PathBuf} (h : AllNews cfg Published fs before)
    (hs : Spooled (Visible cfg) Published Published' fs fs') : AllNews cfg Published' fs' before :=
  fun p hp => (h p hp).imp_right fun hnews => hnews.step hs hp

/-- Whatever happens on the disk, a process keeps what it has found out. -/
private theorem knows_step (h : phase.Knows cfg Published fs) (hsees : phase.Sees cfg)
    (hs : Spooled (Visible cfg) Published Published' fs fs') : phase.Knows cfg Published' fs' := by
  have hsome : ∀ {p}, (∃ bytes, Published p bytes) → ∃ bytes, Published' p bytes :=
    fun ⟨bytes, hb⟩ => ⟨bytes, hs.kept _ bytes hb⟩
  cases phase with
  | start => trivial
  | ready => trivial
  | failed => trivial
  | scan before todo kept =>
    cases before with
    | none =>
      intro n hn hdot
      exact (h n hn hdot).imp_right (Or.imp_right fun hnews => hnews.step hs ⟨n, hn, hdot, rfl⟩)
    | some before => exact ⟨h.1.step hs, fun p hp => (h.2 p hp).imp_right hsome⟩
  | asleep before => exact AllNews.step h hs
  | sized before file s1 => exact ⟨h.1.step hs, h.2.1.step hs hsees, hsome h.2.2⟩
  | found file => exact ⟨h.1.step hs hsees, hsome h.2⟩
  | shown file => exact hsome h
  | reading file i bytes =>
    obtain ⟨hopened, hdata⟩ := h.1.step hs
    refine ⟨hopened, ?_⟩
    rw [hdata]
    exact h.2
  | holding file bytes => exact hs.kept file bytes h
  | printed file bytes => exact hs.kept file bytes h
  | removed file bytes => exact hs.kept file bytes h

/-- What has been found out gives the path and the output. -/
private theorem RecvPhase.Knows.newFile (h : phase.Knows cfg Published fs) {file : PathBuf}
    (hf : phase.newFile? = some file) : ∃ bytes, Published file bytes := by
  cases phase with
  | found file => cases hf; exact h.2
  | shown file => cases hf; exact h
  | reading file i bytes => cases hf; exact ⟨_, h.1.published⟩
  | holding file bytes => cases hf; exact ⟨bytes, h⟩
  | printed file bytes => cases hf; exact ⟨bytes, h⟩
  | removed file bytes => cases hf; exact ⟨bytes, h⟩
  | _ => cases hf

private theorem RecvPhase.Knows.output (h : phase.Knows cfg Published fs) {file : PathBuf} {bytes : Bytes}
    (hf : phase.output? = some (file, bytes)) : Published file bytes := by
  cases phase with
  | printed file bytes => cases hf; exact h
  | removed file bytes => cases hf; exact h
  | _ => cases hf

/-! ### One call -/

/-- What a call that succeeds does to the disk and to the phase. -/
inductive RecvMove (args : RecvArgs) (dir : PathBuf) (fs : FileSys PathBuf) :
    RecvPhase → RecvCall → FileSys PathBuf → RecvPhase → Prop
  | createDir (fail : Bool) {fs' : FileSys PathBuf} (hfs : fs' = fs ∨ fs.createDirAll dir = some fs') :
    RecvMove args dir fs .start (.createDir fail) fs' .ready
  | first (entries : List String) : RecvMove args dir fs .ready (.readDir entries) fs (.scan none entries [])
  | again (before : List PathBuf) (entries : List String) :
    RecvMove args dir fs (.asleep before) (.readDir entries) fs (.scan (some before) entries [])
  | keep {before : Option (List PathBuf)} {n : String} {todo : List String} {kept : List PathBuf}
      (hfile : isFile fs (join dir n) = true) (hdot : undotted n = true) :
    RecvMove args dir fs (.scan before (n :: todo) kept) .isFile fs (.scan before todo (join dir n :: kept))
  | skip {before : Option (List PathBuf)} {n : String} {todo : List String} {kept : List PathBuf}
      (hno : isFile fs (join dir n) = false ∨ undotted n = false) :
    RecvMove args dir fs (.scan before (n :: todo) kept) .isFile fs (.scan before todo kept)
  | collect (kept : List PathBuf) : RecvMove args dir fs (.scan none [] kept) .collect fs (.asleep kept)
  | nothing (before now : List PathBuf) (len : Option Nat) :
    RecvMove args dir fs (.scan (some before) [] now) (.pick none len) fs (.asleep before)
  | pick {before now : List PathBuf} {file : PathBuf} (hnow : file ∈ now) (hnew : file ∉ before) (len : Option Nat) :
    RecvMove args dir fs (.scan (some before) [] now) (.pick (some file) len) fs (.sized before file (len.getD 0))
  | settled (before : List PathBuf) (file : PathBuf) (s1 : Nat) (len : Option Nat) :
    RecvMove args dir fs (.sized before file s1) (.settle len) fs (.found file)
  | growing (before : List PathBuf) (file : PathBuf) (s1 : Nat) (len : Option Nat) :
    RecvMove args dir fs (.sized before file s1) (.settle len) fs (.asleep before)
  | print (file : PathBuf) : RecvMove args dir fs (.found file) .print fs (.shown file)
  | opened {file : PathBuf} {i : Nat} (hi : fs.node file = some (.file i)) :
    RecvMove args dir fs (.found file) .openFile fs (.reading file i [])
  | piece (file : PathBuf) (i : Nat) (bytes : Bytes) (n : Nat) :
    RecvMove args dir fs (.reading file i bytes) (.read n) fs
      (.reading file i (bytes ++ ((fs.data i).drop bytes.length).take n))
  | whole {file : PathBuf} {i : Nat} {bytes : Bytes} (n : Nat) (hend : (fs.data i).drop bytes.length = []) :
    RecvMove args dir fs (.reading file i bytes) (.read n) fs (.holding file bytes)
  | write (file : PathBuf) (bytes : Bytes) (ok : Bool) :
    RecvMove args dir fs (.holding file bytes) (.write ok) fs (.printed file bytes)
  | remove (file : PathBuf) (bytes : Bytes) (fail : Bool) {fs' : FileSys PathBuf}
      (hfs : fs' = fs ∨ fs.removeFile file = some fs') :
    RecvMove args dir fs (.printed file bytes) (.remove fail) fs' (.removed file bytes)
  | fail (phase : RecvPhase) (call : RecvCall) (hcall : ∀ entries, call ≠ .readDir entries) :
    RecvMove args dir fs phase call fs .failed

/-- A call whose error is ignored has its effect or none. -/
private theorem eq_or_some {fail : Bool} {o : Option (FileSys PathBuf)} :
    (if fail then fs else o.getD fs) = fs ∨ o = some (if fail then fs else o.getD fs) := by
  cases fail with
  | true => exact Or.inl rfl
  | false =>
    cases o with
    | none => exact Or.inl rfl
    | some fs₁ => exact Or.inr rfl

theorem recvMove {dir : PathBuf} (h : recvCall args dir fs phase call = some (fs', phase')) :
    RecvMove args dir fs phase call fs' phase' := by
  cases phase with
  | start =>
    cases call with
    | createDir fail => cases h; exact .createDir fail eq_or_some
    | _ => cases h
  | ready =>
    cases call with
    | readDir entries => cases h; exact .first entries
    | _ => cases h
  | scan before todo kept =>
    cases todo with
    | cons n todo =>
      cases call with
      | isFile =>
        cases h
        cases hf : isFile fs (join dir n) with
        | false => exact .skip (Or.inl hf)
        | true =>
          cases hd : undotted n with
          | false => exact .skip (Or.inr hd)
          | true => exact .keep hf hd
      | _ => cases before <;> cases h
    | nil =>
      cases before with
      | none =>
        cases call with
        | collect => cases h; exact .collect kept
        | _ => cases h
      | some before =>
        cases call with
        | pick file len =>
          cases file with
          | none =>
            simp only [recvCall] at h
            split at h
            · cases h; exact .nothing before kept len
            · cases h
          | some file =>
            simp only [recvCall] at h
            split at h
            · rename_i hnew
              cases h
              exact .pick hnew.1 hnew.2 len
            · cases h
        | _ => cases h
  | asleep before =>
    cases call with
    | readDir entries => cases h; exact .again before entries
    | timedOut => cases h; exact .fail _ _ (by simp)
    | _ => cases h
  | sized before file s1 =>
    cases call with
    | settle len =>
      cases h
      split
      · exact .settled before file s1 len
      · exact .growing before file s1 len
    | _ => cases h
  | found file =>
    cases call with
    | print =>
      simp only [recvCall] at h
      split at h
      · cases h
      · cases h; exact .print file
    | openFile =>
      simp only [recvCall] at h
      split at h
      · split at h
        · rename_i i hi
          cases h
          exact .opened hi
        · cases h; exact .fail _ _ (by simp)
      · cases h
    | _ => cases h
  | reading file i bytes =>
    cases call with
    | read n =>
      simp only [recvCall] at h
      split at h
      · cases h
      · rename_i hn
        split at h
        · rename_i hend
          cases h
          refine .whole n ?_
          cases hrest : (fs.data i).drop bytes.length with
          | nil => rfl
          | cons b rest =>
            rw [hrest] at hend
            cases n with
            | zero => exact absurd rfl hn
            | succ n => cases hend
        · cases h; exact .piece file i bytes n
    | _ => cases h
  | holding file bytes =>
    cases call with
    | write ok =>
      cases h
      cases ok with
      | true => exact .write file bytes true
      | false => exact .fail _ _ (by simp)
    | _ => cases h
  | printed file bytes =>
    cases call with
    | remove fail =>
      simp only [recvCall] at h
      split at h
      · cases h
      · cases h; exact .remove file bytes fail eq_or_some
    | _ => cases h
  | shown file => cases call <;> cases h
  | removed file bytes => cases call <;> cases h
  | failed => cases call <;> cases h

theorem isFile_iff {p : PathBuf} : isFile fs p = true ↔ ∃ i, fs.node p = some (.file i) := by
  unfold isFile FileSys.read
  cases fs.node p with
  | none => simp
  | some node => cases node <;> simp

/-- A process makes the directory, removes a visible file, or leaves the disk alone. -/
theorem RecvMove.disk (h : RecvMove args cfg.downloadDir fs phase call fs' phase') (hsees : phase.Sees cfg) :
    fs' = fs ∨ fs.createDirAll cfg.downloadDir = some fs' ∨ ∃ p, Visible cfg p ∧ fs.removeFile p = some fs' := by
  cases h with
  | createDir fail hfs => exact hfs.imp_right Or.inl
  | remove file bytes fail hfs => exact hfs.imp_right fun hrm => Or.inr ⟨file, hsees, hrm⟩
  | _ => exact Or.inl rfl

theorem RecvMove.sees (h : RecvMove args cfg.downloadDir fs phase call fs' phase') (hsees : phase.Sees cfg)
    (hlist : ∀ entries, call = .readDir entries → ListsDir fs cfg.downloadDir entries) : phase'.Sees cfg := by
  cases h with
  | createDir fail hfs => trivial
  | first entries => exact ⟨fun n hn => ((hlist entries rfl n).1 hn).1, fun p hp => by cases hp⟩
  | again before entries => exact ⟨fun n hn => ((hlist entries rfl n).1 hn).1, fun p hp => by cases hp⟩
  | @keep before n todo kept hfile hdot =>
    refine ⟨fun m hm => hsees.1 m (List.mem_cons_of_mem n hm), fun p hp => ?_⟩
    rcases List.mem_cons.1 hp with rfl | hp
    · exact ⟨n, hsees.1 n (List.mem_cons_self ..), hdot, rfl⟩
    · exact hsees.2 p hp
  | skip hno => exact ⟨fun m hm => hsees.1 m (List.mem_cons_of_mem _ hm), hsees.2⟩
  | collect kept => trivial
  | nothing before now len => trivial
  | pick hnow hnew len => exact hsees.2 _ hnow
  | growing before file s1 len => trivial
  | fail phase call hcall => trivial
  | settled before file s1 len => exact hsees
  | print file => exact hsees
  | opened hi => exact hsees
  | piece file i bytes n => exact hsees
  | whole n hend => exact hsees
  | write file bytes ok => exact hsees
  | remove file bytes fail hfs => exact hsees

/-- What a call adds to what its process has found out. -/
theorem RecvMove.knows (h : RecvMove args cfg.downloadDir fs phase call fs' phase') (hsees : phase.Sees cfg)
    (hlist : ∀ entries, call = .readDir entries → ListsDir fs cfg.downloadDir entries)
    (hk : phase.Knows cfg Published fs) : phase'.Knows cfg Published fs' := by
  cases h with
  | createDir fail hfs => trivial
  | first entries =>
    intro n hn hdot
    by_cases hp : fs.present (join cfg.downloadDir n) = true
    · exact Or.inl ((hlist entries rfl n).2 ⟨hn, hp⟩)
    · refine Or.inr (Or.inr (News.of_absent fun i hi => ?_))
      rw [FileSys.present_eq_false.1 (by simpa using hp)] at hi
      cases hi
  | again before entries => exact ⟨hk, fun p hp => by cases hp⟩
  | @keep before n todo kept hfile hdot =>
    cases before with
    | none =>
      intro m hm hmdot
      rcases hk m hm hmdot with hmem | hrest
      · rcases List.mem_cons.1 hmem with rfl | hmem
        · exact Or.inr (Or.inl (List.mem_cons_self ..))
        · exact Or.inl hmem
      · exact Or.inr (hrest.imp_left fun hmem => List.mem_cons_of_mem _ hmem)
    | some before =>
      refine ⟨hk.1, fun p hp => ?_⟩
      rcases List.mem_cons.1 hp with rfl | hp
      · obtain ⟨i, hi⟩ := isFile_iff.1 hfile
        exact (hk.1 _ ⟨n, hsees.1 n (List.mem_cons_self ..), hdot, rfl⟩).imp_right fun hnews => ⟨_, hnews i hi⟩
      · exact hk.2 p hp
  | @skip before n todo kept hno =>
    cases before with
    | none =>
      intro m hm hmdot
      rcases hk m hm hmdot with hmem | hrest
      · rcases List.mem_cons.1 hmem with rfl | hmem
        · -- the entry is no file (any more)
          refine Or.inr (Or.inr (News.of_absent fun i hi => ?_))
          rcases hno with hfile | hdot
          · rw [isFile_iff.2 ⟨i, hi⟩] at hfile
            cases hfile
          · rw [hmdot] at hdot
            cases hdot
        · exact Or.inl hmem
      · exact Or.inr hrest
    | some before => exact hk
  | collect kept =>
    rintro p ⟨n, hn, hdot, rfl⟩
    rcases hk n hn hdot with hmem | hrest
    · cases hmem
    · exact hrest
  | nothing before now len => exact hk.1
  | @pick before now file hnow hnew len =>
    have hnews := (hk.1 file (hsees.2 file hnow)).resolve_left hnew
    exact ⟨hk.1, hnews, (hk.2 file hnow).resolve_left hnew⟩
  | settled before file s1 len => exact hk.2
  | growing before file s1 len => exact hk.1
  | print file => exact hk.2
  | opened hi => exact ⟨hk.1.opened hsees hi, List.nil_prefix⟩
  | piece file i bytes n =>
    obtain ⟨hopened, hprefix⟩ := hk
    refine ⟨hopened, ?_⟩
    -- what has been read and the next piece are the beginning of the file
    have htake : bytes = (fs.data i).take bytes.length := (List.prefix_iff_eq_take.1 hprefix)
    have happ : bytes ++ ((fs.data i).drop bytes.length).take n = (fs.data i).take (bytes.length + n) := by
      conv_lhs => rw [htake]
      rw [List.take_add, List.length_take_of_le hprefix.length_le]
    rw [happ]
    exact List.take_prefix ..
  | @whole file i bytes n hend =>
    obtain ⟨hopened, hprefix⟩ := hk
    have hall : bytes = fs.data i :=
      hprefix.eq_of_length_le (by simpa using List.drop_eq_nil_iff.1 hend)
    rw [hall]
    exact hopened.published
  | write file bytes ok => exact hk
  | remove file bytes fail hfs => exact hk
  | fail phase call hcall => trivial

/-- A call publishes nothing. -/
theorem RecvMove.spooled (h : RecvMove args cfg.downloadDir fs phase call fs' phase') (hsees : phase.Sees cfg) :
    Spooled (Visible cfg) Published Published fs fs' := by
  rcases h.disk hsees with rfl | hmk | ⟨q, -, hrm⟩
  · exact ⟨fun i hi => hi.calm_refl, fun p i _ hi => Or.inl hi, fun _ _ hb => hb⟩
  · refine ⟨fun i hi => hi.calm_createDirAll hmk, fun p i _ hi => Or.inl ?_, fun _ _ hb => hb⟩
    exact (sameFiles_createDirAll hmk p i).1 hi
  · refine ⟨fun i hi => hi.calm_removeFile hrm, fun p i _ hi => Or.inl ?_, fun _ _ hb => hb⟩
    obtain ⟨hgone, hother, -⟩ := FileSys.removeFile_spec hrm
    by_cases hpq : p = q
    · subst hpq
      rw [hgone] at hi
      cases hi
    · rwa [hother p hpq] at hi

/-- A call leaves the temp files alone. -/
theorem RecvMove.keeps (h : RecvMove args cfg.downloadDir fs phase call fs' phase') (hsees : phase.Sees cfg)
    {tmp : PathBuf} {i : Nat} (htmp : ¬ Visible cfg tmp) (hi : fs.node tmp = some (.file i)) :
    fs'.node tmp = some (.file i) ∧ fs'.data = fs.data := by
  rcases h.disk hsees with rfl | hmk | ⟨q, hq, hrm⟩
  · exact ⟨hi, rfl⟩
  · exact ⟨(sameFiles_createDirAll hmk tmp i).2 hi, (FileSys.createDirAll_spec hmk).2.2.1⟩
  · obtain ⟨-, hother, hdata⟩ := FileSys.removeFile_spec hrm
    refine ⟨?_, hdata⟩
    rw [hother tmp fun heq => htmp (heq ▸ hq)]
    exact hi

end Processes

/-! ### Runs -/

section Runs

variable {sha256 : Bytes → Digest} {cfg : XferConfig} {args : Nat → RecvArgs} {n w : Nat} {s t : RecvSystem}

/-- The receiver's transfers are whole, and the processes hold visible paths. -/
structure RecvSafe (cfg : XferConfig) (s : RecvSystem) : Prop where
  whole : Whole cfg s.daemon
  placed : AllPlaced cfg s.daemon
  sees : ∀ w, (s.procs w).Sees cfg

theorem recvSafe_start (cfg : XferConfig) (fs : FileSys PathBuf) : RecvSafe cfg (.start fs) where
  whole := whole_start cfg fs
  placed := placed_start cfg fs
  sees _ := trivial

private theorem lists_of_ok {c : RecvCall} (hok : RecvOk cfg s (.call w c)) :
    ∀ entries, c = .readDir entries → ListsDir s.daemon.rx.fs cfg.downloadDir entries := by
  rintro entries rfl
  exact hok

/-- What a step is. -/
private theorem recvStep_cases {e : RecvEvent} (h : recvStep sha256 cfg args s e = some t) :
    (∃ f, e = .frame f ∧ t = { s with daemon := receive sha256 cfg s.daemon f }) ∨
    (∃ w c fs phase, e = .call w c ∧ RecvMove (args w) cfg.downloadDir s.daemon.rx.fs (s.procs w) c fs phase ∧
      t = ⟨s.daemon.onDisk fs, Function.update s.procs w phase⟩) := by
  cases e with
  | frame f => exact Or.inl ⟨f, rfl, (Option.some.inj h).symm⟩
  | call w c =>
    obtain ⟨⟨fs, phase⟩, hc, rfl⟩ := Option.map_eq_some_iff.1 h
    exact Or.inr ⟨w, c, fs, phase, rfl, recvMove hc, rfl⟩

theorem recvSafe_step {e : RecvEvent} (h : RecvSafe cfg s) (hok : RecvOk cfg s e)
    (ht : recvStep sha256 cfg args s e = some t) : RecvSafe cfg t := by
  rcases recvStep_cases ht with ⟨f, rfl, rfl⟩ | ⟨w, c, fs, phase, rfl, hmove, rfl⟩
  · exact ⟨whole_receive h.whole hok.1 hok.2, (stepPlaced h.placed).kept, h.sees⟩
  · have hfile : ∀ k inc tmp dir file, s.daemon.rx.incoming.lookup k = some inc → inc.sink = .file tmp dir file →
        FileOk cfg fs k inc tmp dir file := by
      intro k inc tmp dir file hl hs
      have hf := h.whole.files k inc tmp dir file hl hs
      obtain ⟨hnode, hdata⟩ := hmove.keeps (h.sees w) hf.hidden hf.node
      exact { hf with node := hnode, data := (congrFun hdata _).trans hf.data }
    refine ⟨⟨h.whole.hashed, hfile, h.whole.apart⟩, h.placed, fun w' => ?_⟩
    by_cases hw : w' = w
    · subst hw
      simpa using hmove.sees (h.sees w') (lists_of_ok hok)
    · simpa [hw] using h.sees w'

/-- The process `w`, which began to list after `n` frames, knows of what has been delivered since. -/
structure RecvKnows (sha256 : Bytes → Digest) (cfg : XferConfig) (n w : Nat) (s : RecvSystem) : Prop where
  safe : RecvSafe cfg s
  since : n ≤ s.daemon.log.length
  knows : (s.procs w).Knows cfg (Delivered sha256 cfg n s.daemon.log) s.daemon.rx.fs

theorem recvKnows_step {e : RecvEvent} (h : RecvKnows sha256 cfg n w s) (hok : RecvOk cfg s e)
    (ht : recvStep sha256 cfg args s e = some t) : RecvKnows sha256 cfg n w t := by
  have hsafe := recvSafe_step h.safe hok ht
  rcases recvStep_cases ht with ⟨f, rfl, rfl⟩ | ⟨w', c, fs, phase, rfl, hmove, rfl⟩
  · refine ⟨hsafe, ?_, ?_⟩
    · have hlog : (receive sha256 cfg s.daemon f).log.length = s.daemon.log.length + 1 := by simp [receive]
      show n ≤ (receive sha256 cfg s.daemon f).log.length
      have := h.since
      omega
    · exact knows_step h.knows (h.safe.sees w) (spooled_receive h.safe.whole h.safe.placed h.since)
  · refine ⟨hsafe, h.since, ?_⟩
    show (Function.update s.procs w' phase w).Knows cfg (Delivered sha256 cfg n s.daemon.log) fs
    by_cases hw : w = w'
    · subst hw
      simpa using hmove.knows (h.safe.sees w) (lists_of_ok hok) h.knows
    · simpa [hw] using knows_step h.knows (h.safe.sees w) (hmove.spooled (h.safe.sees w'))

/-- For every interleaving of the frames of any number of peers with the system calls of any number of `qdrop recv`
processes, in which no frame makes two transfers share a file, no write fails and no listing (`read_dir`, `is_file`)
fails: from the moment on where a process is about to list the download directory for the first time, the path it
settles on is one that a file was delivered to since, and what it writes to stdout are the bytes received for a file
delivered to that path since. -/
theorem recv_prints_received (sha256 : Bytes → Digest) (cfg : XferConfig) (args : Nat → RecvArgs)
    (fs : FileSys PathBuf) (es es' : List RecvEvent) (s t : RecvSystem) (w : Nat)
    (hr : Run (recvStep sha256 cfg args) (RecvOk cfg) (.start fs) es s) (hw : s.procs w = .ready)
    (hr' : Run (recvStep sha256 cfg args) (RecvOk cfg) s es' t) :
    (∀ file, (t.procs w).newFile? = some file →
      ∃ bytes, Delivered sha256 cfg s.daemon.log.length t.daemon.log file bytes) ∧
    ∀ file bytes, (t.procs w).output? = some (file, bytes) →
      Delivered sha256 cfg s.daemon.log.length t.daemon.log file bytes := by
  have hsafe : RecvSafe cfg s :=
    hr.invariant (recvSafe_start cfg fs) fun _ _ _ h hok ht => recvSafe_step h hok ht
  have hstart : RecvKnows sha256 cfg s.daemon.log.length w s :=
    ⟨hsafe, Nat.le_refl _, by rw [hw]; trivial⟩
  have hknows : RecvKnows sha256 cfg s.daemon.log.length w t :=
    hr'.invariant hstart fun _ _ _ h hok ht => recvKnows_step h hok ht
  exact ⟨fun file hf => hknows.knows.newFile hf, fun file bytes hf => hknows.knows.output hf⟩

end Runs

private def recvCfg : XferConfig := ⟨"d", .never, false⟩

private def recvArgs (_ : Nat) : RecvArgs := ⟨true, false⟩

/-- Peer `a` sends a file `x` of two bytes. -/
private def recvFrame (msg : Message) : RecvEvent := .frame ⟨"a", msg, .absent, Io.ok⟩

private def recvSha (_ : Bytes) : Digest := Vector.replicate 32 0

private abbrev RecvRun := Run (recvStep recvSha recvCfg recvArgs) (RecvOk recvCfg)

private theorem keepsApart_single {s : History} {f : Frame} {id : Nat} {sha : Digest} (hm : f.msg = .blobEnd id sha)
    (h : ∀ k, k ≠ (f.peer, id) → s.rx.incoming.lookup k = none) : KeepsApart recvCfg s f := by
  simp only [KeepsApart, hm]
  intro inc tmp dir file _ _ _ k' inc' tmp' dir' file' hk' _ hne
  rw [h k' hne] at hk'
  cases hk'

/-- The listing of a download directory with at most one name. -/
private theorem lists_of_node {fs : FileSys PathBuf} {entries : List String}
    (h : ∀ p, fs.node p ≠ none ↔ p = "d" ∨ ∃ n ∈ entries, p = join "d" n) (hbare : ∀ n ∈ entries, Bare n) :
    ListsDir fs "d" entries := by
  intro n
  have hpresent : fs.present (join "d" n) = true ↔ fs.node (join "d" n) ≠ none := by
    rw [FileSys.present, Option.isSome_iff_ne_none]
  rw [hpresent, h]
  constructor
  · intro hn
    exact ⟨hbare n hn, Or.inr ⟨n, hn, rfl⟩⟩
  · rintro ⟨hn, hd | ⟨m, hm, heq⟩⟩
    · exact absurd hd (join_ne_self hn.2.2.2 hn.1)
    · rw [join_inj hn.2.2.2 (hbare m hm).2.2.2 heq]
      exact hm

/-- Process 0 has made the directory. -/
private def recvMade : RecvSystem where
  daemon := (History.start FileSys.empty).onDisk ((FileSys.empty.createDirAll "d").getD FileSys.empty)
  procs := Function.update (fun _ => .start) 0 .ready

private theorem recvMade_lists : ListsDir recvMade.daemon.rx.fs "d" [] := by
  refine lists_of_node (fun p => ?_) fun n hn => by cases hn
  show Function.update (fun _ => none) "d" (some Node.dir) p ≠ none ↔ _
  by_cases hp : p = "d" <;> simp [hp]

/-- What the daemon has left in the directory when the file is in place. -/
private theorem recvDelivered_names (p : PathBuf) :
    Function.update (Function.update (Function.update (Function.update (Function.update (fun _ => none) "d"
      (some Node.dir)) "d" (some Node.dir)) "d/.x.1.part" (some (.file 0))) "d/.x.1.part" none) "d/x"
        (some (.file 0)) p ≠ none ↔ p = "d" ∨ ∃ n ∈ ["x"], p = join "d" n := by
  have hjoin : (∃ n ∈ ["x"], p = join "d" n) ↔ p = "d/x" := by
    rw [show "d/x" = join "d" "x" by decide]
    simp
  rw [hjoin]
  by_cases hx : p = "d/x"
  · simp [hx]
  · by_cases hpart : p = "d/.x.1.part"
    · simp [hpart]
    · by_cases hd : p = "d" <;> simp [hx, hpart, hd]

theorem recv_prints_received_piped : ∃ t : RecvSystem, (t.procs 0).output? = some ("d/x", [1, 2]) ∧
    Delivered recvSha recvCfg 0 t.daemon.log "d/x" [1, 2] := by
  have h0 : RecvRun (.start FileSys.empty) [RecvEvent.call 0 (.createDir false)] recvMade :=
    (Run.nil _).snoc (e := RecvEvent.call 0 (.createDir false)) trivial rfl
  have h1 : RecvRun recvMade [RecvEvent.call 0 (.readDir [])] _ :=
    (Run.nil _).snoc (e := RecvEvent.call 0 (.readDir [])) recvMade_lists rfl
  have h2 := h1.snoc (e := RecvEvent.call 0 .collect) trivial rfl
  have h3 := h2.snoc (e := recvFrame (.blobStart 1 "x" 2 .file))
    ⟨rfl, fun safe k inc tmp file _ hk => by cases hk⟩ rfl
  have h4 := h3.snoc (e := recvFrame (.blobChunk 1 [1, 2])) ⟨rfl, trivial⟩ rfl
  have h5 := h4.snoc (e := recvFrame (.blobEnd 1 (Vector.replicate 32 0)))
    ⟨rfl, keepsApart_single rfl fun k hk => (AList.lookup_insert_ne hk).trans (AList.lookup_insert_ne hk)⟩ rfl
  have h6 := h5.snoc (e := RecvEvent.call 0 (.readDir ["x"])) (lists_of_node recvDelivered_names (by decide)) rfl
  have h7 := h6.snoc (e := RecvEvent.call 0 .isFile) trivial rfl
  have h8 := h7.snoc (e := RecvEvent.call 0 (.pick (some "d/x") (some 2))) trivial rfl
  have h9 := h8.snoc (e := RecvEvent.call 0 (.settle (some 2))) trivial rfl
  have h10 := h9.snoc (e := RecvEvent.call 0 .openFile) trivial rfl
  have h11 := h10.snoc (e := RecvEvent.call 0 (.read 8)) trivial rfl
  have h12 := h11.snoc (e := RecvEvent.call 0 (.read 8)) trivial rfl
  have h13 := h12.snoc (e := RecvEvent.call 0 (.write true)) trivial rfl
  have h14 := h13.snoc (e := RecvEvent.call 0 (.remove false)) trivial rfl
  have hprints := recv_prints_received recvSha recvCfg recvArgs FileSys.empty _ _ _ _ 0 h0 rfl h14
  exact ⟨_, rfl, hprints.2 "d/x" [1, 2] rfl⟩

end Qdrop
