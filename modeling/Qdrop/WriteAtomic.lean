import Qdrop.FileXfer.Paths
import Qdrop.Lib.Durable
import Qdrop.Lib.LoadSave

/-!
# `write_atomic`, one system call at a time

`peers.toml`, `state.json`, `identity.pem` and the history index are read in pieces and replaced by `write_atomic`
(`qdrop-core/src/paths.rs`): create the temp file `.<name>.tmp-<pid>` next to the file, write it, sync it, rename it.
Any number of processes and tasks do this at the same time, and any of them may fail or be killed between two calls.

As long as no two calls that overlap share the file and the process id, the file behaves like a cell that is loaded
at the `open` and saved at the `rename` (`write_atomic_refines`), also for readers that are half way through the old
content, and a power failure leaves a whole content too (`write_atomic_whole`).  Two tasks of one process that save
the same file at the same time share the temp file, and one truncates what the other renames (`shared_temp`).
-/

namespace Qdrop

open Lib

/-! ### The files and their temp files -/

/-- A file that `write_atomic` replaces: its directory and its name, which is no hidden name. -/
structure Target where
  dir : PathBuf
  name : String
  bare : '/' ∉ name.toList
  visible : name.toList.head? ≠ some '.'
deriving DecidableEq

def Target.path (T : Target) : PathBuf := join T.dir T.name

/-- `format!(".{}.tmp-{}", name, std::process::id())` next to the file. -/
def Target.tmp (T : Target) (pid : Nat) : PathBuf := join T.dir ("." ++ T.name ++ ".tmp-" ++ toString pid)

/-- A temp file of some file and process. -/
def IsTmp (p : PathBuf) : Prop := ∃ (T : Target) (pid : Nat), p = T.tmp pid

/-! ### The calls in progress -/

/-- What a task does with a file: load it and perhaps save a new content, or save a content it has at hand. -/
inductive FileOp (β : Type) where
  | edit (op : β)
  | store (contents : Bytes)
deriving DecidableEq

/-- The content a task saves after it has loaded `old`. -/
def FileOp.update {β : Type} (update : Option Bytes → β → Option Bytes) (old : Option Bytes) :
    FileOp β → Option Bytes
  | .edit op => update old op
  | .store contents => some contents

/-- Where a task is: reading the file (through the handle it opened, if the file was there), holding the content to
save, writing the temp file, or past the sync. -/
inductive FilePhase where
  | reading (ino : Option Nat) (got : Bytes)
  | ready (contents : Bytes)
  | writing (h : Handle) (rest contents : Bytes)
  | synced (ino : Nat) (contents : Bytes)

structure FileTask (β : Type) where
  target : Target
  pid : Nat
  op : FileOp β
  phase : FilePhase

/-- The disk, the tasks between two calls, the contents that were loaded and the operations that were saved. -/
structure Store (β : Type) where
  disk : Mounted PathBuf
  tasks : AList (fun _ : Nat => FileTask β)
  next : Nat
  loaded : List (Target × Option Bytes)
  saved : List (Target × FileOp β)

def Store.start {β : Type} (fs : FileSys PathBuf) : Store β := ⟨Mounted.mount fs, ∅, 0, [], []⟩

/-- The system calls of a task after its first. -/
inductive FileCall where
  /-- `read` returns at most `n` more bytes. -/
  | read (n : Nat)
  /-- `read` returns nothing more, or there was no file. -/
  | eof
  | mkdir
  | create
  /-- `write` takes the next `n` bytes. -/
  | write (n : Nat)
  | sync
  | rename
  /-- A call returns an error, or the process is killed. -/
  | stop
deriving DecidableEq

inductive StoreEvent (β : Type) where
  /-- A task starts: it opens the file, or goes straight to `write_atomic`. -/
  | start (target : Target) (pid : Nat) (op : FileOp β)
  | call (w : Nat) (call : FileCall)
  | powerLoss (k : Nat) (junk : Nat → Bytes)

variable {β : Type}

/-- The task goes on in another phase. -/
def Store.goOn (s : Store β) (w : Nat) (task : FileTask β) (phase : FilePhase) : Store β :=
  { s with tasks := s.tasks.insert w { task with phase } }

/-- The task has loaded `old`. -/
def Store.finishLoad (update : Option Bytes → β → Option Bytes) (s : Store β) (w : Nat) (task : FileTask β)
    (old : Option Bytes) : Store β :=
  let s := { s with loaded := s.loaded ++ [(task.target, old)] }
  match task.op.update update old with
  | some contents => s.goOn w task (.ready contents)
  | none => { s with tasks := s.tasks.erase w }

/-- The first step of a task. -/
def Store.begin (s : Store β) (target : Target) (pid : Nat) (op : FileOp β) : Option (Store β) :=
  let enter (phase : FilePhase) : Store β :=
    { s with tasks := s.tasks.insert s.next ⟨target, pid, op, phase⟩, next := s.next + 1 }
  match op with
  | .store contents => some (enter (.ready contents))
  | .edit _ =>
    match s.disk.fs.node target.path with
    | some .dir => none
    | some (.file i) => some (enter (.reading (some i) []))
    | none => some (enter (.reading none []))

/-- A call of the task `w`; `none` when the task is not at this call, or when the call fails. -/
def Store.perform (update : Option Bytes → β → Option Bytes) (s : Store β) (w : Nat) (task : FileTask β)
    (call : FileCall) : Option (Store β) :=
  match call, task.phase with
  | .read n, .reading (some i) got =>
    some (s.goOn w task (.reading (some i) (got ++ ((s.disk.fs.data i).drop got.length).take n)))
  | .eof, .reading (some i) got =>
    if (s.disk.fs.data i).length ≤ got.length then some (s.finishLoad update w task (some got)) else none
  | .eof, .reading none _ => some (s.finishLoad update w task none)
  | .mkdir, .ready _ => (s.disk.createDirAll task.target.dir).map fun disk => { s with disk }
  | .create, .ready contents =>
    (s.disk.create (task.target.tmp task.pid)).map fun c =>
      ({ s with disk := c.1 }).goOn w task (.writing c.2 contents contents)
  | .write n, .writing h rest contents =>
    let r := s.disk.write h (rest.take n)
    some (({ s with disk := r.1 }).goOn w task (.writing r.2 (rest.drop n) contents))
  | .sync, .writing h [] contents => some (({ s with disk := s.disk.sync h }).goOn w task (.synced h.ino contents))
  | .rename, .synced _ _ =>
    (s.disk.rename (task.target.tmp task.pid) task.target.path).map fun disk =>
      { s with disk, tasks := s.tasks.erase w, saved := s.saved ++ [(task.target, task.op)] }
  | .stop, _ => some { s with tasks := s.tasks.erase w }
  | _, _ => none

/-- What the calls of a task do, one case for each place the task can be at. -/
inductive Performed (update : Option Bytes → β → Option Bytes) (s : Store β) (w : Nat) (task : FileTask β) :
    FileCall → Store β → Prop
  | read {n i : Nat} {got : Bytes} (hp : task.phase = .reading (some i) got) :
      Performed update s w task (.read n)
        (s.goOn w task (.reading (some i) (got ++ ((s.disk.fs.data i).drop got.length).take n)))
  | eof {i : Nat} {got : Bytes} (hp : task.phase = .reading (some i) got)
      (hlen : (s.disk.fs.data i).length ≤ got.length) :
      Performed update s w task .eof (s.finishLoad update w task (some got))
  | absent {got : Bytes} (hp : task.phase = .reading none got) :
      Performed update s w task .eof (s.finishLoad update w task none)
  | mkdir {contents : Bytes} {disk : Mounted PathBuf} (hp : task.phase = .ready contents)
      (hd : s.disk.createDirAll task.target.dir = some disk) : Performed update s w task .mkdir { s with disk }
  | create {contents : Bytes} {disk : Mounted PathBuf} {h : Handle} (hp : task.phase = .ready contents)
      (hd : s.disk.create (task.target.tmp task.pid) = some (disk, h)) :
      Performed update s w task .create (({ s with disk }).goOn w task (.writing h contents contents))
  | write {n : Nat} {h : Handle} {rest contents : Bytes} (hp : task.phase = .writing h rest contents) :
      Performed update s w task (.write n)
        (({ s with disk := (s.disk.write h (rest.take n)).1 }).goOn w task
          (.writing (s.disk.write h (rest.take n)).2 (rest.drop n) contents))
  | sync {h : Handle} {contents : Bytes} (hp : task.phase = .writing h [] contents) :
      Performed update s w task .sync (({ s with disk := s.disk.sync h }).goOn w task (.synced h.ino contents))
  | rename {i : Nat} {contents : Bytes} {disk : Mounted PathBuf} (hp : task.phase = .synced i contents)
      (hd : s.disk.rename (task.target.tmp task.pid) task.target.path = some disk) :
      Performed update s w task .rename
        { s with disk, tasks := s.tasks.erase w, saved := s.saved ++ [(task.target, task.op)] }
  | stop : Performed update s w task .stop { s with tasks := s.tasks.erase w }

theorem performed {update : Option Bytes → β → Option Bytes} {s s' : Store β} {w : Nat} {task : FileTask β}
    {call : FileCall} (hs : s.perform update w task call = some s') : Performed update s w task call s' := by
  unfold Store.perform at hs
  split at hs
  · rename_i hp
    cases hs
    exact .read hp
  · rename_i hp
    split at hs
    · rename_i hlen
      cases hs
      exact .eof hp hlen
    · cases hs
  · rename_i hp
    cases hs
    exact .absent hp
  · rename_i hp
    obtain ⟨disk, hdisk, rfl⟩ := Option.map_eq_some_iff.1 hs
    exact .mkdir hp hdisk
  · rename_i hp
    obtain ⟨⟨disk, h⟩, hdisk, rfl⟩ := Option.map_eq_some_iff.1 hs
    exact .create hp hdisk
  · rename_i hp
    cases hs
    exact .write hp
  · rename_i hp
    cases hs
    exact .sync hp
  · rename_i hp
    obtain ⟨disk, hdisk, rfl⟩ := Option.map_eq_some_iff.1 hs
    exact .rename hp hdisk
  · cases hs
    exact .stop
  · cases hs

def storeStep (update : Option Bytes → β → Option Bytes) (s : Store β) : StoreEvent β → Option (Store β)
  | .start target pid op => s.begin target pid op
  | .call w call => (s.tasks.lookup w).bind fun task => s.perform update w task call
  | .powerLoss k junk => (s.disk.powerLoss k junk).map fun disk => { s with disk, tasks := ∅ }

/-- The task has its temp file open, or has closed it and not renamed it yet. -/
def FileTask.holdsTmp (task : FileTask β) : Bool :=
  match task.phase with
  | .writing .. | .synced .. => true
  | _ => false

/-- A temp file is created while no other task with this file and process id holds it. -/
def Apart (s : Store β) : StoreEvent β → Prop
  | .call w .create =>
    ∀ task ∈ s.tasks.lookup w, ∀ e ∈ s.tasks.entries, e.1 ≠ w → e.2.holdsTmp = true →
      ¬ (e.2.target.path = task.target.path ∧ e.2.pid = task.pid)
  | _ => True

instance (s : Store β) : (e : StoreEvent β) → Decidable (Apart s e)
  | .call w .create => inferInstanceAs (Decidable (∀ task ∈ s.tasks.lookup w, ∀ e ∈ s.tasks.entries, e.1 ≠ w →
      e.2.holdsTmp = true → ¬ (e.2.target.path = task.target.path ∧ e.2.pid = task.pid)))
  | .call _ (.read _) | .call _ .eof | .call _ .mkdir | .call _ (.write _) | .call _ .sync | .call _ .rename
  | .call _ .stop | .start .. | .powerLoss .. => inferInstanceAs (Decidable True)

/-! ### Names -/

/-- What stands before the last component of a path. -/
private def stem (dir : PathBuf) : List Char :=
  dir.toList ++ if dir.toList = [] ∨ dir.toList.getLast? = some '/' then [] else ['/']

private theorem join_eq_stem {dir a : PathBuf} (ha : '/' ∉ a.toList) : (join dir a).toList = stem dir ++ a.toList := by
  have habs : a.toList.head? ≠ some '/' := fun hh => ha (List.mem_of_mem_head? (by rw [hh]; exact rfl))
  unfold join stem
  rw [if_neg habs]
  split <;> simp [String.toList_append]

private theorem stem_cases (dir : PathBuf) : stem dir = [] ∨ ∃ pre, stem dir = pre ++ ['/'] := by
  unfold stem
  split
  · rename_i h
    rcases h with h | h
    · exact Or.inl (by simp [h])
    · exact Or.inr ⟨dir.toList.dropLast, by rw [List.append_nil]; exact (List.dropLast_append_getLast? _ h).symm⟩
  · exact Or.inr ⟨_, rfl⟩

/-- The last component of a path is determined, and so is what stands before it. -/
private theorem last_component {dir dir' a b : PathBuf} (ha : '/' ∉ a.toList) (hb : '/' ∉ b.toList)
    (h : join dir a = join dir' b) : stem dir = stem dir' ∧ a = b := by
  have h' := congrArg String.toList h
  rw [join_eq_stem ha, join_eq_stem hb] at h'
  have key : stem dir = stem dir' ∧ a.toList = b.toList := by
    rcases stem_cases dir with hd | ⟨pre, hd⟩ <;> rcases stem_cases dir' with hd' | ⟨pre', hd'⟩
    · rw [hd, hd'] at h' ⊢
      exact ⟨rfl, h'⟩
    · rw [hd, hd'] at h'
      exact absurd (by rw [List.nil_append] at h'; simp [h']) ha
    · rw [hd, hd'] at h'
      exact absurd (by rw [List.nil_append] at h'; simp [← h']) hb
    · rw [hd, hd', List.append_assoc, List.append_assoc] at h'
      obtain ⟨rfl, hab⟩ := append_cons_inj ha hb h'
      exact ⟨hd.trans hd'.symm, hab⟩
  exact ⟨key.1, String.toList_inj.1 key.2⟩

private def tmpOf (name : String) (pid : Nat) : String := "." ++ name ++ ".tmp-" ++ toString pid

private theorem tmpOf_toList (name : String) (pid : Nat) :
    (tmpOf name pid).toList = '.' :: (name.toList ++ ".tmp".toList) ++ '-' :: (toString pid).toList := by
  simp [tmpOf, String.toList_append]

private theorem tmpOf_bare {name : String} (h : '/' ∉ name.toList) (pid : Nat) : '/' ∉ (tmpOf name pid).toList := by
  rw [tmpOf_toList]
  have hpid := not_mem_toString (c := '/') (by decide) pid
  simp only [List.cons_append, List.mem_cons, List.mem_append, not_or]
  exact ⟨by decide, ⟨h, by decide⟩, by decide, hpid⟩

/-- The temp file tells the file and the process. -/
theorem Target.tmp_inj {T T' : Target} {pid pid' : Nat} (h : T.tmp pid = T'.tmp pid') :
    T.path = T'.path ∧ pid = pid' := by
  obtain ⟨hstem, hname⟩ := last_component (tmpOf_bare T.bare pid) (tmpOf_bare T'.bare pid') h
  have hl := congrArg String.toList hname
  rw [tmpOf_toList, tmpOf_toList] at hl
  obtain ⟨hpre, hpid⟩ := append_cons_inj (not_mem_toString (by decide) pid) (not_mem_toString (by decide) pid') hl
  have hn : T.name.toList = T'.name.toList := by
    simp only [List.cons.injEq, true_and] at hpre
    exact List.append_cancel_right hpre
  refine ⟨String.toList_inj.1 ?_, toString_inj hpid⟩
  rw [Target.path, Target.path, join_eq_stem T.bare, join_eq_stem T'.bare, hstem, hn]

/-- No file that `write_atomic` replaces is a temp file. -/
theorem Target.path_not_tmp (T : Target) : ¬ IsTmp T.path := by
  rintro ⟨T', pid, h⟩
  obtain ⟨-, hname⟩ := last_component T.bare (tmpOf_bare T'.bare pid) h
  have hvis := T.visible
  rw [hname, tmpOf_toList] at hvis
  exact hvis rfl

theorem Target.tmp_isTmp (T : Target) (pid : Nat) : IsTmp (T.tmp pid) := ⟨T, pid, rfl⟩

theorem Target.path_ne_tmp (T T' : Target) (pid : Nat) : T.path ≠ T'.tmp pid :=
  fun h => T.path_not_tmp (h ▸ T'.tmp_isTmp pid)

/-! ### Whole contents -/

/-- What a file can hold when every save writes a whole content: the initial content, or what an operation on the
file saved after it had loaded such a content. -/
inductive Derived (update : Option Bytes → β → Option Bytes) (initial : PathBuf → Option Bytes)
    (started : PathBuf → FileOp β → Prop) (p : PathBuf) : Option Bytes → Prop
  | initial : Derived update initial started p (initial p)
  | saved {old : Option Bytes} {op : FileOp β} {contents : Bytes} : Derived update initial started p old →
      started p op → op.update update old = some contents → Derived update initial started p (some contents)

/-- The contents of a kind that every operation keeps. -/
theorem Derived.kind {update : Option Bytes → β → Option Bytes} {initial : PathBuf → Option Bytes}
    {started : PathBuf → FileOp β → Prop} {p : PathBuf} {K : Option Bytes → Prop} (h₀ : K (initial p))
    (hop : ∀ old op contents, K old → started p op → op.update update old = some contents → K (some contents))
    {v : Option Bytes} (h : Derived update initial started p v) : K v := by
  induction h with
  | initial => exact h₀
  | saved _ hs hc ih => exact hop _ _ _ ih hs hc

/-! ### The invariant -/

/-- What holds of a task; `D p v` says that `v` is a whole content of `p`. -/
def FileTaskOk (D : PathBuf → Option Bytes → Prop) (m : Mounted PathBuf) (task : FileTask β) : Prop :=
  match task.phase with
  | .reading none _ => D task.target.path none
  | .reading (some i) got =>
    m.Sealed IsTmp i ∧ got <+: m.fs.data i ∧ D task.target.path (some (m.fs.data i))
  | .ready contents => D task.target.path (some contents)
  | .writing h rest contents =>
    m.fs.node (task.target.tmp task.pid) = some (.file h.ino) ∧ m.fs.data h.ino ++ rest = contents ∧
      h.pos = (m.fs.data h.ino).length ∧ D task.target.path (some contents)
  | .synced i contents =>
    m.fs.node (task.target.tmp task.pid) = some (.file i) ∧ m.fs.data i = contents ∧ m.dirty i = false ∧
      D task.target.path (some contents)

/-- A directory that is shown, or that a power failure may bring back, has a whole content at every file. -/
def DirOk (D : PathBuf → Option Bytes → Prop) (m : Mounted PathBuf) (f : FileSys PathBuf) : Prop :=
  ∀ T : Target, match f.node T.path with
    | some (.file i) => m.Sealed IsTmp i ∧ m.dirty i = false ∧ D T.path (some (m.fs.data i))
    | _ => D T.path none

structure StoreInv (D : PathBuf → Option Bytes → Prop) (started : PathBuf → FileOp β → Prop) (s : Store β) : Prop where
  task : ∀ w task, s.tasks.lookup w = some task → FileTaskOk D s.disk task ∧ started task.target.path task.op
  apart : ∀ w w' task task', s.tasks.lookup w = some task → s.tasks.lookup w' = some task' →
    task.holdsTmp = true → task'.holdsTmp = true →
    task.target.tmp task.pid = task'.target.tmp task'.pid → w = w'
  dir : ∀ f, f = s.disk.fs ∨ f ∈ s.disk.past → DirOk D s.disk f
  loaded : ∀ e ∈ s.loaded, D e.1.path e.2
  saved : ∀ e ∈ s.saved, started e.1.path e.2

/-! ### What a call leaves alone -/

/-- `m'` has the sealed inodes of `m` and the open temp file of `task`. -/
structure Leaves (m m' : Mounted PathBuf) (task : FileTask β) : Prop where
  calm : ∀ i, m.Sealed IsTmp i → m.Calm IsTmp m' i
  tmp : task.holdsTmp = true → ∀ i, m.fs.node (task.target.tmp task.pid) = some (.file i) →
    m'.fs.node (task.target.tmp task.pid) = some (.file i) ∧ m'.fs.data i = m.fs.data i ∧ m'.dirty i = m.dirty i

variable {D : PathBuf → Option Bytes → Prop} {started : PathBuf → FileOp β → Prop} {m m' : Mounted PathBuf}

theorem FileTaskOk.leaves {task : FileTask β} (h : FileTaskOk D m task) (hl : Leaves m m' task) :
    FileTaskOk D m' task := by
  obtain ⟨target, pid, op, phase⟩ := task
  cases phase with
  | reading ino got =>
    cases ino with
    | none => exact h
    | some i =>
      obtain ⟨hsealed, hgot, hD⟩ := h
      obtain ⟨hs, hdata, -⟩ := hl.calm i hsealed
      exact ⟨hs, hdata ▸ hgot, hdata ▸ hD⟩
  | ready contents => exact h
  | writing handle rest contents =>
    obtain ⟨hnode, hrest, hpos, hD⟩ := h
    obtain ⟨hnode', hdata, -⟩ := hl.tmp rfl handle.ino hnode
    exact ⟨hnode', hdata ▸ hrest, hdata ▸ hpos, hD⟩
  | synced i contents =>
    obtain ⟨hnode, hdata, hdirty, hD⟩ := h
    obtain ⟨hnode', hdata', hdirty'⟩ := hl.tmp rfl i hnode
    exact ⟨hnode', hdata'.trans hdata, hdirty'.trans hdirty, hD⟩

theorem DirOk.calm {f : FileSys PathBuf} (h : DirOk D m f) (hc : ∀ i, m.Sealed IsTmp i → m.Calm IsTmp m' i) :
    DirOk D m' f := by
  intro T
  have hT := h T
  revert hT
  split
  · rintro ⟨hsealed, hdirty, hD⟩
    obtain ⟨hs, hdata, hdirty'⟩ := hc _ hsealed
    exact ⟨hs, hdirty'.trans hdirty, hdata ▸ hD⟩
  · exact id

/-- Directories that name the same regular files. -/
theorem DirOk.congr {f g : FileSys PathBuf} (h : DirOk D m f)
    (hfg : ∀ (T : Target) i, g.node T.path = some (.file i) ↔ f.node T.path = some (.file i)) : DirOk D m g := by
  intro T
  have hT := h T
  revert hT
  split
  · rename_i i hi
    rw [(hfg T i).2 hi]
    exact id
  · rename_i hf
    intro hD
    split
    · rename_i i hi
      exact absurd ((hfg T i).1 hi) (hf i)
    · exact hD

/-- A call on a name that names no sealed inode, and no temp file that `task` holds. -/
theorem leaves_of_onlyAt {p : PathBuf} {task : FileTask β} (h : m.OnlyAt p m')
    (hsealed : ∀ i, m.Sealed IsTmp i → m.fs.node p ≠ some (.file i))
    (htmp : task.holdsTmp = true → task.target.tmp task.pid ≠ p) : Leaves m m' task :=
  ⟨fun i hi => h.calm (hsealed i hi) hi, fun ht _ hi => h.file (htmp ht) hi⟩

/-- What a call on the temp file of the task `w` leaves alone. -/
private theorem tmp_call {s : Store β} (hI : StoreInv D started s) {w : Nat} {task : FileTask β} {m' : Mounted PathBuf}
    (h : s.disk.OnlyAt (task.target.tmp task.pid) m')
    (hfree : ∀ v t, v ≠ w → s.tasks.lookup v = some t → t.holdsTmp = true →
      t.target.tmp t.pid ≠ task.target.tmp task.pid) :
    (∀ i, s.disk.Sealed IsTmp i → s.disk.Calm IsTmp m' i) ∧
      (∀ v t, v ≠ w → s.tasks.lookup v = some t → FileTaskOk D m' t) ∧
      ∀ (T : Target) i, m'.fs.node T.path = some (.file i) ↔ s.disk.fs.node T.path = some (.file i) := by
  have hsealed : ∀ i, s.disk.Sealed IsTmp i → s.disk.fs.node (task.target.tmp task.pid) ≠ some (.file i) :=
    fun i hi => hi.2 _ (task.target.tmp_isTmp task.pid)
  refine ⟨fun i hi => h.calm (hsealed i hi) hi, fun v t hv ht => ?_, fun T i => ?_⟩
  · exact (hI.task v t ht).1.leaves (leaves_of_onlyAt h hsealed (hfree v t hv ht))
  · rw [h.node _ (T.path_ne_tmp task.target task.pid)]

/-- The invariant after a step that concerns the task `w`: the other tasks are as before or gone. -/
private theorem StoreInv.of_step {s s' : Store β} (hI : StoreInv D started s) (w : Nat)
    (htask : ∀ v t, s'.tasks.lookup v = some t →
      v ≠ w ∧ s.tasks.lookup v = some t ∧ FileTaskOk D s'.disk t ∨
      v = w ∧ FileTaskOk D s'.disk t ∧ started t.target.path t.op ∧ (t.holdsTmp = true → ∀ u t', u ≠ w →
        s.tasks.lookup u = some t' → t'.holdsTmp = true → t'.target.tmp t'.pid ≠ t.target.tmp t.pid))
    (hdir : ∀ f, f = s'.disk.fs ∨ f ∈ s'.disk.past → DirOk D s'.disk f)
    (hloaded : ∀ e ∈ s'.loaded, D e.1.path e.2) (hsaved : ∀ e ∈ s'.saved, started e.1.path e.2) :
    StoreInv D started s' := by
  refine ⟨fun v t ht => ?_, fun v v' t t' ht ht' hh hh' htmp => ?_, hdir, hloaded, hsaved⟩
  · rcases htask v t ht with ⟨-, hold, hok⟩ | ⟨-, hok, hst, -⟩
    · exact ⟨hok, (hI.task v t hold).2⟩
    · exact ⟨hok, hst⟩
  · rcases htask v t ht with ⟨hv, hold, -⟩ | ⟨rfl, -, -, hfree⟩ <;>
      rcases htask v' t' ht' with ⟨hv', hold', -⟩ | ⟨rfl, -, -, hfree'⟩
    · exact hI.apart v v' t t' hold hold' hh hh' htmp
    · exact absurd htmp (hfree' hh' v t hv hold hh)
    · exact absurd htmp.symm (hfree hh v' t' hv' hold' hh')
    · rfl

/-- What is found among the tasks after one of them went on. -/
private theorem lookup_goOn {s : Store β} {w v : Nat} {task t : FileTask β} {phase : FilePhase}
    (h : (s.goOn w task phase).tasks.lookup v = some t) :
    v ≠ w ∧ s.tasks.lookup v = some t ∨ v = w ∧ t = { task with phase } := by
  rcases lookup_insert_eq_some.1 h with ⟨hv, ht⟩ | h
  · exact Or.inr ⟨hv, ht⟩
  · exact Or.inl h

/-- A task that holds its temp file is the only one. -/
private theorem StoreInv.free {s : Store β} (hI : StoreInv D started s) {w : Nat} {task : FileTask β}
    (hw : s.tasks.lookup w = some task) (hh : task.holdsTmp = true) :
    ∀ v t, v ≠ w → s.tasks.lookup v = some t → t.holdsTmp = true →
      t.target.tmp t.pid ≠ task.target.tmp task.pid :=
  fun v t hv ht hh' htmp => hv (hI.apart v w t task ht hw hh' hh htmp)

/-- What a file holds is whole. -/
theorem DirOk.read {f : FileSys PathBuf} (h : DirOk D m f) (hdata : f.data = m.fs.data) (T : Target) :
    D T.path (f.read T.path) := by
  have hT := h T
  unfold FileSys.read
  cases hnode : f.node T.path with
  | none =>
    rw [hnode] at hT
    exact hT
  | some n =>
    rw [hnode] at hT
    cases n with
    | dir => exact hT
    | file i =>
      rw [hdata]
      exact hT.2.2

section Steps

variable {update : Option Bytes → β → Option Bytes} {s s' : Store β} {w : Nat} {task : FileTask β}

private theorem inv_start (hI : StoreInv D started s) {target : Target} {pid : Nat} {op : FileOp β}
    (hstarted : started target.path op)
    (hD : ∀ p old op contents, D p old → started p op → op.update update old = some contents → D p (some contents))
    (hs : s.begin target pid op = some s') : StoreInv D started s' := by
  have enter : ∀ phase : FilePhase, FileTaskOk D s.disk (⟨target, pid, op, phase⟩ : FileTask β) →
      (⟨target, pid, op, phase⟩ : FileTask β).holdsTmp = false → StoreInv D started
        { s with tasks := s.tasks.insert s.next ⟨target, pid, op, phase⟩, next := s.next + 1 } := by
    intro phase hok hh
    refine hI.of_step s.next (fun v t ht => ?_) hI.dir hI.loaded hI.saved
    rcases lookup_insert_eq_some.1 ht with ⟨hv, rfl⟩ | ⟨hv, ht⟩
    · exact Or.inr ⟨hv, hok, hstarted, fun h => absurd (hh.symm.trans h) (by decide)⟩
    · exact Or.inl ⟨hv, ht, (hI.task v t ht).1⟩
  have hdir := hI.dir s.disk.fs (Or.inl rfl)
  cases op with
  | store contents =>
    cases hs
    exact enter _ (hD _ _ _ _ (hdir.read rfl target) hstarted rfl) rfl
  | edit op =>
    have hT := hdir target
    simp only [Store.begin] at hs
    split at hs
    · cases hs
    · rename_i i hi
      rw [hi] at hT
      cases hs
      exact enter _ ⟨hT.1, List.nil_prefix, hT.2.2⟩ rfl
    · rename_i hnone
      rw [hnone] at hT
      cases hs
      exact enter _ hT rfl

private theorem inv_read (hI : StoreInv D started s) (hw : s.tasks.lookup w = some task) {i n : Nat} {got : Bytes}
    (hp : task.phase = .reading (some i) got) :
    StoreInv D started (s.goOn w task (.reading (some i) (got ++ ((s.disk.fs.data i).drop got.length).take n))) := by
  obtain ⟨target, pid, op, phase⟩ := task
  subst hp
  obtain ⟨⟨hsealed, hgot, hD⟩, hst⟩ := hI.task w _ hw
  refine hI.of_step w (fun v t ht => ?_) hI.dir hI.loaded hI.saved
  rcases lookup_goOn ht with ⟨hv, ht⟩ | ⟨hv, rfl⟩
  · exact Or.inl ⟨hv, ht, (hI.task v t ht).1⟩
  · refine Or.inr ⟨hv, ⟨hsealed, ?_, hD⟩, hst, fun h => by cases h⟩
    obtain ⟨rest, hrest⟩ := hgot
    change got ++ ((s.disk.fs.data i).drop got.length).take n <+: s.disk.fs.data i
    rw [← hrest, List.drop_left]
    exact (List.prefix_append_right_inj got).2 (List.take_prefix ..)

private theorem inv_finishLoad (hI : StoreInv D started s) (hw : s.tasks.lookup w = some task) {old : Option Bytes}
    (hold : D task.target.path old)
    (hD : ∀ p old op contents, D p old → started p op → op.update update old = some contents → D p (some contents)) :
    StoreInv D started (s.finishLoad update w task old) := by
  have hst := (hI.task w task hw).2
  have hloaded : ∀ e ∈ s.loaded ++ [(task.target, old)], D e.1.path e.2 := by
    intro e he
    rcases List.mem_append.1 he with he | he
    · exact hI.loaded e he
    · rw [List.mem_singleton.1 he]
      exact hold
  unfold Store.finishLoad
  dsimp only
  split
  · rename_i contents hc
    refine hI.of_step w (fun v t ht => ?_) hI.dir hloaded hI.saved
    rcases lookup_goOn ht with ⟨hv, ht⟩ | ⟨hv, rfl⟩
    · exact Or.inl ⟨hv, ht, (hI.task v t ht).1⟩
    · exact Or.inr ⟨hv, hD _ _ _ _ hold hst hc, hst, fun h => by cases h⟩
  · refine hI.of_step w (fun v t ht => ?_) hI.dir hloaded hI.saved
    obtain ⟨hv, ht⟩ := lookup_erase_eq_some.1 ht
    exact Or.inl ⟨hv, ht, (hI.task v t ht).1⟩

/-- The load is complete when `read` returns nothing more. -/
private theorem whole_load (hI : StoreInv D started s) (hw : s.tasks.lookup w = some task) {i : Nat} {got : Bytes}
    (hp : task.phase = .reading (some i) got) (hlen : (s.disk.fs.data i).length ≤ got.length) :
    got = s.disk.fs.data i ∧ D task.target.path (some got) := by
  obtain ⟨target, pid, op, phase⟩ := task
  subst hp
  obtain ⟨⟨-, hgot, hD⟩, -⟩ := hI.task w _ hw
  have heq : got = s.disk.fs.data i := hgot.eq_of_length_le hlen
  exact ⟨heq, heq ▸ hD⟩

private theorem inv_mkdir (hI : StoreInv D started s) {dir : PathBuf} {disk : Mounted PathBuf}
    (hs : s.disk.createDirAll dir = some disk) : StoreInv D started { s with disk } := by
  have honly := Mounted.createDirAll_onlyAt hs
  obtain ⟨fs', hfs, rfl⟩ := Option.map_eq_some_iff.1 hs
  obtain ⟨hdir, hnode, hdata, hfile⟩ := FileSys.createDirAll_spec hfs
  have hcalm : ∀ i, s.disk.Sealed IsTmp i → s.disk.Calm IsTmp (s.disk.change fs') i :=
    fun i hi => honly.calm (hfile i) hi
  refine ⟨fun v t ht => ⟨(hI.task v t ht).1.leaves ⟨hcalm, fun _ i hi => ?_⟩, (hI.task v t ht).2⟩, hI.apart, ?_,
    hI.loaded, hI.saved⟩
  · refine honly.file ?_ hi
    rintro rfl
    exact hfile i hi
  · have hnew : DirOk D (s.disk.change fs') fs' := by
      refine ((hI.dir _ (Or.inl rfl)).calm hcalm).congr fun T i => ?_
      by_cases hT : T.path = dir
      · rw [hT, hdir]
        exact iff_of_false (by simp) (hfile i)
      · rw [hnode _ hT]
    rintro f (rfl | hf)
    · exact hnew
    · rcases List.mem_cons.1 hf with rfl | hf
      · exact hnew
      · exact (hI.dir f (Or.inr hf)).calm hcalm

/-- After a call on the temp file of `w` that makes at most one more directory. -/
private theorem inv_tmp_call (hI : StoreInv D started s) {disk : Mounted PathBuf} {phase : FilePhase}
    (hst : started task.target.path task.op)
    (honly : s.disk.OnlyAt (task.target.tmp task.pid) disk)
    (hpast : ∀ f ∈ disk.past, f = disk.fs ∨ f ∈ s.disk.past)
    (hfree : ∀ v t, v ≠ w → s.tasks.lookup v = some t → t.holdsTmp = true →
      t.target.tmp t.pid ≠ task.target.tmp task.pid)
    (hok : FileTaskOk D disk { task with phase }) :
    StoreInv D started (({ s with disk }).goOn w task phase) := by
  obtain ⟨hcalm, hothers, hfiles⟩ := tmp_call hI honly hfree
  have hnew : DirOk D disk disk.fs := ((hI.dir _ (Or.inl rfl)).calm hcalm).congr hfiles
  refine hI.of_step w (fun v t ht => ?_) ?_ hI.loaded hI.saved
  · rcases lookup_goOn ht with ⟨hv, ht⟩ | ⟨hv, rfl⟩
    · exact Or.inl ⟨hv, ht, hothers v t hv ht⟩
    · exact Or.inr ⟨hv, hok, hst, fun _ => hfree⟩
  · rintro f (rfl | hf)
    · exact hnew
    · rcases hpast f hf with rfl | hf
      · exact hnew
      · exact (hI.dir f (Or.inr hf)).calm hcalm

private theorem inv_create (hI : StoreInv D started s) (hw : s.tasks.lookup w = some task)
    (hapart : Apart s (.call w .create)) {contents : Bytes} (hp : task.phase = .ready contents)
    {disk : Mounted PathBuf} {h : Handle} (hs : s.disk.create (task.target.tmp task.pid) = some (disk, h)) :
    StoreInv D started (({ s with disk }).goOn w task (.writing h contents contents)) := by
  obtain ⟨honly, hnode, hpos, hempty, hpast⟩ := Mounted.create_spec hs
  obtain ⟨hok, hst⟩ := hI.task w task hw
  refine inv_tmp_call hI hst honly ?_ ?_ ?_
  · rw [hpast]
    exact fun f hf => List.mem_cons.1 hf
  · intro v t hv ht hh htmp
    exact hapart task hw ⟨v, t⟩ (AList.mem_lookup_iff.1 ht) hv hh (Target.tmp_inj htmp)
  · rw [FileTaskOk, hp] at hok
    exact ⟨hnode, by rw [hempty]; rfl, by rw [hpos, hempty]; rfl, hok⟩

private theorem inv_write (hI : StoreInv D started s) (hw : s.tasks.lookup w = some task) {h : Handle} {n : Nat}
    {rest contents : Bytes} (hp : task.phase = .writing h rest contents) :
    StoreInv D started (({ s with disk := (s.disk.write h (rest.take n)).1 }).goOn w task
      (.writing (s.disk.write h (rest.take n)).2 (rest.drop n) contents)) := by
  obtain ⟨hok, hst⟩ := hI.task w task hw
  have hh : task.holdsTmp = true := by rw [FileTask.holdsTmp, hp]
  rw [FileTaskOk, hp] at hok
  obtain ⟨hnode, hrest, hpos, hD⟩ := hok
  refine inv_tmp_call hI hst (Mounted.write_onlyAt _ hnode) (fun f hf => Or.inr hf) (hI.free hw hh) ?_
  have hdata : (s.disk.write h (rest.take n)).1.fs.data h.ino = s.disk.fs.data h.ino ++ rest.take n := by
    refine (FileSys.write_spec s.disk.fs h (rest.take n)).2.1.trans ?_
    rw [hpos, overwrite_end]
  refine ⟨hnode, ?_, ?_, hD⟩
  · change (s.disk.write h (rest.take n)).1.fs.data h.ino ++ rest.drop n = contents
    rw [hdata, List.append_assoc, List.take_append_drop, hrest]
  · change h.pos + (rest.take n).length = ((s.disk.write h (rest.take n)).1.fs.data h.ino).length
    rw [hdata, List.length_append, hpos]

private theorem inv_sync (hI : StoreInv D started s) (hw : s.tasks.lookup w = some task) {h : Handle}
    {contents : Bytes} (hp : task.phase = .writing h [] contents) :
    StoreInv D started (({ s with disk := s.disk.sync h }).goOn w task (.synced h.ino contents)) := by
  obtain ⟨hok, hst⟩ := hI.task w task hw
  have hh : task.holdsTmp = true := by rw [FileTask.holdsTmp, hp]
  rw [FileTaskOk, hp] at hok
  obtain ⟨hnode, hrest, -, hD⟩ := hok
  refine inv_tmp_call hI hst (Mounted.sync_onlyAt hnode) (fun f hf => Or.inr hf) (hI.free hw hh) ?_
  exact ⟨hnode, (List.append_nil _).symm.trans hrest, Function.update_self .., hD⟩

private theorem inv_stop (hI : StoreInv D started s) (w : Nat) :
    StoreInv D started { s with tasks := s.tasks.erase w } := by
  refine hI.of_step w (fun v t ht => ?_) hI.dir hI.loaded hI.saved
  obtain ⟨hv, ht⟩ := lookup_erase_eq_some.1 ht
  exact Or.inl ⟨hv, ht, (hI.task v t ht).1⟩

private theorem inv_rename (hI : StoreInv D started s) (hw : s.tasks.lookup w = some task) {i : Nat}
    {contents : Bytes} (hp : task.phase = .synced i contents) {disk : Mounted PathBuf}
    (hs : s.disk.rename (task.target.tmp task.pid) task.target.path = some disk) :
    disk.fs.read task.target.path = some contents ∧
    (∀ T : Target, T.path ≠ task.target.path → disk.fs.read T.path = s.disk.fs.read T.path) ∧
    StoreInv D started
      { s with disk, tasks := s.tasks.erase w, saved := s.saved ++ [(task.target, task.op)] } := by
  obtain ⟨hok, hst⟩ := hI.task w task hw
  have hh : task.holdsTmp = true := by rw [FileTask.holdsTmp, hp]
  rw [FileTaskOk, hp] at hok
  obtain ⟨hnode, hdata, hdirty, hD⟩ := hok
  have hne := (task.target.path_ne_tmp task.target task.pid).symm
  obtain ⟨⟨j, hj, hj'⟩, hgone, hother, hsame, -, hpast, hdirty'⟩ := Mounted.rename_spec hs hne
  obtain rfl : i = j := by
    cases hnode.symm.trans hj
    rfl
  have hcalm : ∀ k, s.disk.Sealed IsTmp k ∨ s.disk.fs.node (task.target.tmp task.pid) = some (.file k) →
      s.disk.Calm IsTmp disk k :=
    fun k hk => Mounted.rename_calm hs (task.target.tmp_isTmp _) task.target.path_not_tmp hk
  have hnodes : ∀ T : Target, T.path ≠ task.target.path → disk.fs.node T.path = s.disk.fs.node T.path :=
    fun T hT => hother _ (T.path_ne_tmp task.target task.pid) hT
  refine ⟨by simp only [FileSys.read, hj', hsame, hdata], fun T hT => by simp only [FileSys.read, hnodes T hT, hsame],
    hI.of_step w (fun v t ht => ?_) ?_ hI.loaded fun e he => ?_⟩
  · obtain ⟨hv, ht⟩ := lookup_erase_eq_some.1 ht
    refine Or.inl ⟨hv, ht, (hI.task v t ht).1.leaves ⟨fun k hk => hcalm k (Or.inl hk), fun hth k hk => ?_⟩⟩
    have htmp := hI.free hw hh v t hv ht hth
    rw [hother _ htmp (task.target.path_ne_tmp t.target t.pid).symm]
    exact ⟨hk, congrFun hsame k, congrFun hdirty' k⟩
  · have hnew : DirOk D disk disk.fs := by
      intro T
      by_cases hT : T.path = task.target.path
      · rw [hT, hj']
        obtain ⟨hsealed, hd, hdt⟩ := hcalm i (Or.inr hnode)
        exact ⟨hsealed, hdt.trans hdirty, by rw [hd, hdata]; exact hD⟩
      · rw [hnodes T hT]
        exact (hI.dir _ (Or.inl rfl)).calm (fun k hk => hcalm k (Or.inl hk)) T
    rintro f (rfl | hf)
    · exact hnew
    · rw [hpast] at hf
      rcases List.mem_cons.1 hf with rfl | hf
      · exact hnew
      · exact (hI.dir f (Or.inr hf)).calm fun k hk => hcalm k (Or.inl hk)
  · rcases List.mem_append.1 he with he | he
    · exact hI.saved e he
    · rw [List.mem_singleton.1 he]
      exact hst

private theorem inv_powerLoss (hI : StoreInv D started s) {k : Nat} {junk : Nat → Bytes} {disk : Mounted PathBuf}
    (hs : s.disk.powerLoss k junk = some disk) : StoreInv D started { s with disk, tasks := ∅ } := by
  obtain ⟨old, hold, hmount, hnode, hnext, hdata⟩ := Mounted.powerLoss_spec hs
  refine ⟨fun v t ht => (by cases ht), fun v v' t t' ht => (by cases ht), ?_, hI.loaded, hI.saved⟩
  have hnew : DirOk D disk disk.fs := by
    intro T
    have hT := hI.dir old (Or.inr hold) T
    rw [hnode]
    revert hT
    split
    · rename_i i hi
      rintro ⟨hsealed, hdirty, hD⟩
      refine ⟨⟨Nat.lt_of_lt_of_le hsealed.1 hnext, fun q hq hqi => ?_⟩, by rw [hmount]; rfl, ?_⟩
      · rw [hnode] at hqi
        exact T.path_not_tmp (old.sole q T.path i hqi hi ▸ hq)
      · rw [hdata i hdirty]
        exact hD
    · exact id
  rintro f (rfl | hf)
  · exact hnew
  · rw [hmount] at hf
    rw [List.mem_singleton.1 hf]
    exact hnew

/-- A step keeps the invariant. -/
theorem storeInv_step {e : StoreEvent β} (hI : StoreInv D started s) (hapart : Apart s e)
    (hstarted : ∀ T pid op, e = .start T pid op → started T.path op)
    (hD : ∀ p old op contents, D p old → started p op → op.update update old = some contents → D p (some contents))
    (hs : storeStep update s e = some s') : StoreInv D started s' := by
  cases e with
  | start target pid op => exact inv_start hI (hstarted _ _ _ rfl) hD hs
  | powerLoss k junk =>
    obtain ⟨disk, hdisk, rfl⟩ := Option.map_eq_some_iff.1 hs
    exact inv_powerLoss hI hdisk
  | call w call =>
    obtain ⟨task, hw, hs⟩ := Option.bind_eq_some_iff.1 hs
    cases performed hs with
    | read hp => exact inv_read hI hw hp
    | eof hp hlen => exact inv_finishLoad hI hw (whole_load hI hw hp hlen).2 hD
    | absent hp =>
      have hok := (hI.task w task hw).1
      rw [FileTaskOk, hp] at hok
      exact inv_finishLoad hI hw hok hD
    | mkdir _ hd => exact inv_mkdir hI hd
    | create hp hd => exact inv_create hI hw hapart hp hd
    | write hp => exact inv_write hI hw hp
    | sync hp => exact inv_sync hI hw hp
    | rename hp hd => exact (inv_rename hI hw hp hd).2.2
    | stop => exact inv_stop hI w

/-- At the start every file holds its initial content. -/
theorem storeInv_start {fs : FileSys PathBuf} (hD : ∀ p, D p (fs.read p)) :
    StoreInv D started (Store.start fs : Store β) := by
  refine ⟨fun v t ht => (by cases ht), fun v v' t t' ht => (by cases ht), ?_, fun e he => (by cases he),
    fun e he => (by cases he)⟩
  have hfs : DirOk D (Mounted.mount fs) fs := by
    intro T
    have hT := hD T.path
    unfold FileSys.read at hT
    split
    · rename_i i hi
      rw [hi] at hT
      refine ⟨⟨fs.fresh _ i hi, fun q hq hqi => ?_⟩, rfl, hT⟩
      exact T.path_not_tmp (fs.sole q T.path i hqi hi ▸ hq)
    · rename_i hf
      split at hT
      · rename_i i hi
        exact absurd hi (hf i)
      · exact hT
  rintro f (rfl | hf)
  · exact hfs
  · rw [List.mem_singleton.1 hf]
    exact hfs

end Steps

/-- The tasks of the run work on `p` with `op`. -/
def Started (es : List (StoreEvent β)) (p : PathBuf) (op : FileOp β) : Prop :=
  ∃ T pid, StoreEvent.start T pid op ∈ es ∧ T.path = p

theorem storeInv_run {update : Option Bytes → β → Option Bytes} {fs : FileSys PathBuf} {es : List (StoreEvent β)}
    {s : Store β} (hr : Run (storeStep update) Apart (Store.start fs) es s) :
    StoreInv (Derived update fs.read (Started es)) (Started es) s := by
  refine hr.mem.invariant (storeInv_start fun p => Derived.initial) ?_
  rintro s e t hI ⟨hapart, he⟩ hs
  refine storeInv_step hI hapart ?_ (fun p old op contents h hst hc => h.saved hst hc) hs
  rintro T pid op rfl
  exact ⟨T, pid, he, rfl⟩

/-- In every run in which no two overlapping calls share file and process id, whatever fails, is killed or loses
power, each file holds a whole content, and so did every load. -/
theorem write_atomic_whole (update : Option Bytes → β → Option Bytes) (fs : FileSys PathBuf)
    (es : List (StoreEvent β)) (s : Store β) (hr : Run (storeStep update) Apart (Store.start fs) es s) :
    (∀ T : Target, Derived update fs.read (Started es) T.path (s.disk.fs.read T.path)) ∧
      ∀ e ∈ s.loaded, Derived update fs.read (Started es) e.1.path e.2 := by
  have hI := storeInv_run hr
  exact ⟨fun T => (hI.dir _ (Or.inl rfl)).read rfl T, hI.loaded⟩

/-! ### The file as a cell -/

/-- A task as an operation on the content of its file. -/
def fileUpdate (update : Option Bytes → β → Option Bytes) (old : Option Bytes) (op : FileOp β) :
    Option (Option Bytes) :=
  (op.update update old).map some

/-- The operations saved to `p`, in the order of their renames. -/
def Store.savedAt (s : Store β) (p : PathBuf) : List (FileOp β) :=
  (s.saved.filter fun e => e.1.path = p).map (·.2)

/-- A task that has opened the file is an operation between its load and its save, if it is going to save. -/
def FileTaskSim (update : Option Bytes → β → Option Bytes) (m : Mounted PathBuf)
    (sh : Shared (Option Bytes) (FileOp β)) (w : Nat) (task : FileTask β) : Prop :=
  match task.phase with
  | .reading ino _ => ∀ contents, task.op.update update (ino.map m.fs.data) = some contents →
      ∃ base, sh.inFlight.lookup w = some ⟨task.op, base, some contents⟩
  | .ready contents | .writing _ _ contents | .synced _ contents =>
    ∃ base, sh.inFlight.lookup w = some ⟨task.op, base, some contents⟩

structure FileSim (update : Option Bytes → β → Option Bytes) (T : Target) (s : Store β)
    (sh : Shared (Option Bytes) (FileOp β)) : Prop where
  cell : sh.cell = s.disk.fs.read T.path
  done : sh.done = s.savedAt T.path
  task : ∀ w task, s.tasks.lookup w = some task → task.target.path = T.path → FileTaskSim update s.disk sh w task
  fresh : ∀ w, s.next ≤ w → sh.inFlight.lookup w = none

section Refinement

variable {update : Option Bytes → β → Option Bytes} {T : Target} {s s' : Store β}
  {sh sh' : Shared (Option Bytes) (FileOp β)} {w : Nat} {task : FileTask β}

/-- The invariant without a kind of contents. -/
abbrev StoreOk (s : Store β) : Prop := StoreInv (fun _ _ => True) (fun _ _ => True) s

/-- Sealed inodes keep their bytes, so a task that reads one still reads the same content. -/
private theorem FileTaskSim.calm {disk : Mounted PathBuf} (h : FileTaskSim update s.disk sh w task)
    (hok : FileTaskOk (fun _ _ => True) s.disk task) (hc : ∀ i, s.disk.Sealed IsTmp i → s.disk.Calm IsTmp disk i) :
    FileTaskSim update disk sh w task := by
  obtain ⟨target, pid, op, phase⟩ := task
  cases phase with
  | reading ino got =>
    cases ino with
    | none => exact h
    | some i =>
      have hdata := (hc i hok.1).data
      intro contents hcontents
      exact h contents (by rw [Option.map_some, ← hdata]; exact hcontents)
  | ready contents => exact h
  | writing handle rest contents => exact h
  | synced i contents => exact h

private theorem FileTaskSim.inFlight (h : FileTaskSim update s.disk sh w task)
    (hf : sh'.inFlight.lookup w = sh.inFlight.lookup w) : FileTaskSim update s.disk sh' w task := by
  obtain ⟨target, pid, op, phase⟩ := task
  cases phase with
  | reading ino got =>
    intro contents hc
    rw [hf]
    exact h contents hc
  | ready contents => exact h.imp fun _ hb => hf.trans hb
  | writing handle rest contents => exact h.imp fun _ hb => hf.trans hb
  | synced i contents => exact h.imp fun _ hb => hf.trans hb

/-- A disk on which the file is the same. -/
private theorem FileSim.disk {disk : Mounted PathBuf} (h : FileSim update T s sh) (hI : StoreOk s)
    (hc : ∀ i, s.disk.Sealed IsTmp i → s.disk.Calm IsTmp disk i)
    (hread : disk.fs.read T.path = s.disk.fs.read T.path) : FileSim update T { s with disk } sh :=
  ⟨h.cell.trans hread.symm, h.done, fun v t ht hT => (h.task v t ht hT).calm (hI.task v t ht).1 hc, h.fresh⟩

private theorem FileSim.goOn {phase : FilePhase} (h : FileSim update T s sh)
    (hnew : task.target.path = T.path → FileTaskSim update s.disk sh w { task with phase }) :
    FileSim update T (s.goOn w task phase) sh := by
  refine ⟨h.cell, h.done, fun v t ht hT => ?_, h.fresh⟩
  rcases lookup_goOn ht with ⟨-, ht⟩ | ⟨rfl, rfl⟩
  · exact h.task v t ht hT
  · exact hnew hT

private theorem FileSim.erase (h : FileSim update T s sh) (w : Nat) :
    FileSim update T { s with tasks := s.tasks.erase w } sh :=
  ⟨h.cell, h.done, fun v t ht hT => h.task v t (lookup_erase_eq_some.1 ht).2 hT, h.fresh⟩

private theorem FileSim.finishLoad {old : Option Bytes} (h : FileSim update T s sh)
    (hold : task.target.path = T.path → ∀ contents, task.op.update update old = some contents →
      ∃ base, sh.inFlight.lookup w = some ⟨task.op, base, some contents⟩) :
    FileSim update T (s.finishLoad update w task old) sh := by
  have h' : FileSim update T { s with loaded := s.loaded ++ [(task.target, old)] } sh :=
    ⟨h.cell, h.done, h.task, h.fresh⟩
  unfold Store.finishLoad
  dsimp only
  split
  · rename_i contents hc
    exact h'.goOn fun hT => hold hT contents hc
  · exact h'.erase w

/-- A call on the temp file of `w` does not show in the file. -/
private theorem read_tmp_call (hI : StoreOk s) {disk : Mounted PathBuf} {p : PathBuf} (h : s.disk.OnlyAt p disk)
    (hp : ∀ i, s.disk.Sealed IsTmp i → s.disk.fs.node p ≠ some (.file i))
    (hfile : ∀ i, disk.fs.node T.path = some (.file i) ↔ s.disk.fs.node T.path = some (.file i)) :
    disk.fs.read T.path = s.disk.fs.read T.path := by
  have hT := hI.dir _ (Or.inl rfl) T
  unfold FileSys.read
  split
  · rename_i i hi
    rw [(hfile i).1 hi] at hT ⊢
    exact congrArg some (h.calm (hp i hT.1) hT.1).data
  · rename_i hno
    split
    · rename_i i hi
      exact absurd ((hfile i).2 hi) (hno i)
    · rfl

private theorem FileSim.tmp_call (h : FileSim update T s sh) (hI : StoreOk s)
    {disk : Mounted PathBuf} {phase : FilePhase}
    (honly : s.disk.OnlyAt (task.target.tmp task.pid) disk)
    (hnew : task.target.path = T.path → FileTaskSim update disk sh w { task with phase }) :
    FileSim update T (({ s with disk }).goOn w task phase) sh := by
  have hp : ∀ i, s.disk.Sealed IsTmp i → s.disk.fs.node (task.target.tmp task.pid) ≠ some (.file i) :=
    fun i hi => hi.2 _ (task.target.tmp_isTmp task.pid)
  have hread := read_tmp_call (T := T) hI honly hp fun i => by
    rw [honly.node _ (T.path_ne_tmp task.target task.pid)]
  exact (h.disk hI (fun i hi => honly.calm (hp i hi) hi) hread).goOn hnew

/-- What the task is going to save. -/
private theorem FileSim.contents (h : FileSim update T s sh) (hw : s.tasks.lookup w = some task)
    (hT : task.target.path = T.path) {phase : FilePhase} {contents : Bytes} (hp : task.phase = phase)
    (hc : ∀ t : FileTask β, FileTaskSim update s.disk sh w { t with phase } →
      ∃ base, sh.inFlight.lookup w = some ⟨t.op, base, some contents⟩) :
    ∃ base, sh.inFlight.lookup w = some ⟨task.op, base, some contents⟩ := by
  have hsim := h.task w task hw hT
  subst hp
  exact hc task hsim

private theorem FileSim.rename (h : FileSim update T s sh) (hI : StoreOk s)
    (hw : s.tasks.lookup w = some task) {i : Nat} {contents : Bytes}
    (hp : task.phase = .synced i contents) {disk : Mounted PathBuf}
    (hd : s.disk.rename (task.target.tmp task.pid) task.target.path = some disk) :
    ∃ sh', (sh' = sh ∨ access (fileUpdate update) sh (.save w) = some sh') ∧ FileSim update T
      { s with disk, tasks := s.tasks.erase w, saved := s.saved ++ [(task.target, task.op)] } sh' := by
  obtain ⟨hread, hother, -⟩ := inv_rename hI hw hp hd
  have hcalm : ∀ k, s.disk.Sealed IsTmp k → s.disk.Calm IsTmp disk k := fun k hk =>
    Mounted.rename_calm hd (task.target.tmp_isTmp _) task.target.path_not_tmp (Or.inl hk)
  by_cases hT : task.target.path = T.path
  · obtain ⟨base, hf⟩ := h.contents hw hT hp fun _ h => h
    refine ⟨⟨some contents, sh.inFlight.erase w, sh.done ++ [task.op]⟩, Or.inr (by simp only [access, hf]), ?_⟩
    refine ⟨(hT ▸ hread).symm, ?_, fun v t ht htT => ?_, fun v hv => ?_⟩
    · change sh.done ++ [task.op] = _
      rw [h.done, Store.savedAt, Store.savedAt, List.filter_append, List.map_append]
      simp [hT]
    · obtain ⟨hv, ht⟩ := lookup_erase_eq_some.1 ht
      refine ((h.task v t ht htT).calm (hI.task v t ht).1 hcalm).inFlight (s := { s with disk }) ?_
      exact AList.lookup_erase_ne hv
    · change (sh.inFlight.erase w).lookup v = none
      by_cases hvw : v = w
      · rw [hvw, AList.lookup_erase]
      · rw [AList.lookup_erase_ne hvw, h.fresh v hv]
  · refine ⟨sh, Or.inl rfl, ?_⟩
    have h' := (h.disk hI hcalm (hother T fun e => hT e.symm)).erase w
    refine ⟨h'.cell, ?_, h'.task, h'.fresh⟩
    rw [h'.done, Store.savedAt, Store.savedAt, List.filter_append]
    simp [hT]

/-- A task that starts on the file loads the cell, unless it is going to find nothing to save. -/
private theorem FileSim.start (h : FileSim update T s sh) {target : Target} {pid : Nat} {op : FileOp β}
    (hs : s.begin target pid op = some s') :
    ∃ sh', (sh' = sh ∨ access (fileUpdate update) sh (.load s.next op) = some sh') ∧ FileSim update T s' sh' := by
  -- the value loaded at the start determines what will be saved
  have enter : ∀ phase : FilePhase,
      (target.path = T.path → ∀ sh' : Shared (Option Bytes) (FileOp β),
        (∀ contents, op.update update sh.cell = some contents →
          ∃ base, sh'.inFlight.lookup s.next = some ⟨op, base, some contents⟩) →
        FileTaskSim update s.disk sh' s.next ⟨target, pid, op, phase⟩) →
      ∃ sh', (sh' = sh ∨ access (fileUpdate update) sh (.load s.next op) = some sh') ∧ FileSim update T
        { s with tasks := s.tasks.insert s.next ⟨target, pid, op, phase⟩, next := s.next + 1 } sh' := by
    intro phase hphase
    have hfree := h.fresh s.next (Nat.le_refl _)
    by_cases hT : target.path = T.path
    · cases hu : op.update update sh.cell with
      | none =>
        refine ⟨sh, Or.inl rfl, h.cell, h.done, fun v t ht htT => ?_, fun v hv => h.fresh v (by
          change s.next + 1 ≤ v at hv; omega)⟩
        rcases lookup_insert_eq_some.1 ht with ⟨rfl, rfl⟩ | ⟨-, ht⟩
        · exact hphase hT sh fun contents hc => by cases hu.symm.trans hc
        · exact h.task v t ht htT
      | some contents =>
        refine ⟨⟨sh.cell, sh.inFlight.insert s.next ⟨op, sh.cell, some contents⟩, sh.done⟩,
          Or.inr (by simp [access, hfree, fileUpdate, hu]), h.cell, h.done, fun v t ht htT => ?_, fun v hv => ?_⟩
        · rcases lookup_insert_eq_some.1 ht with ⟨rfl, rfl⟩ | ⟨hv, ht⟩
          · refine hphase hT _ fun c hc => ⟨sh.cell, ?_⟩
            obtain rfl : contents = c := Option.some.inj (hu.symm.trans hc)
            exact AList.lookup_insert _
          · exact (h.task v t ht htT).inFlight (AList.lookup_insert_ne hv)
        · change (sh.inFlight.insert s.next _).lookup v = none
          rw [AList.lookup_insert_ne (show v ≠ s.next by change s.next + 1 ≤ v at hv; omega)]
          exact h.fresh v (by change s.next + 1 ≤ v at hv; omega)
    · refine ⟨sh, Or.inl rfl, h.cell, h.done, fun v t ht htT => ?_, fun v hv => h.fresh v (by
        change s.next + 1 ≤ v at hv; omega)⟩
      rcases lookup_insert_eq_some.1 ht with ⟨rfl, rfl⟩ | ⟨-, ht⟩
      · exact absurd htT hT
      · exact h.task v t ht htT
  cases op with
  | store contents =>
    cases hs
    exact enter _ fun _ sh' hsh => hsh contents rfl
  | edit op =>
    simp only [Store.begin] at hs
    split at hs
    · cases hs
    · rename_i i hi
      cases hs
      refine enter _ fun hT sh' hsh contents hc => hsh contents ?_
      rw [h.cell, ← hT, FileSys.read, hi]
      exact hc
    · rename_i hnone
      cases hs
      refine enter _ fun hT sh' hsh contents hc => hsh contents ?_
      rw [h.cell, ← hT, FileSys.read, hnone]
      exact hc

/-- What was saved was started. -/
theorem saved_started {fs : FileSys PathBuf} {es : List (StoreEvent β)}
    (hr : Run (storeStep update) Apart (Store.start fs) es s) (T : Target) :
    ∀ op ∈ s.savedAt T.path, Started es T.path op := by
  intro op hop
  obtain ⟨e, he, rfl⟩ := List.mem_map.1 hop
  obtain ⟨he, hpath⟩ := List.mem_filter.1 he
  exact of_decide_eq_true hpath ▸ (storeInv_run hr).saved e he

/-- The event is no power failure. -/
def Powered : StoreEvent β → Prop
  | .powerLoss _ _ => False
  | _ => True

instance : (e : StoreEvent β) → Decidable (Powered e)
  | .powerLoss .. => inferInstanceAs (Decidable False)
  | .start .. | .call .. => inferInstanceAs (Decidable True)

/-- A system call is a load of the cell, a save to it, or does not show. -/
theorem sim_step {e : StoreEvent β} (h : FileSim update T s sh) (hI : StoreOk s) (hpow : Powered e)
    (hs : storeStep update s e = some s') :
    ∃ sh', (sh' = sh ∨ ∃ a, access (fileUpdate update) sh a = some sh') ∧ FileSim update T s' sh' := by
  cases e with
  | start target pid op =>
    obtain ⟨sh', ha, hsim⟩ := h.start hs
    exact ⟨sh', ha.imp_right fun ha => ⟨_, ha⟩, hsim⟩
  | powerLoss k junk => exact absurd hpow id
  | call w call =>
    obtain ⟨task, hw, hs⟩ := Option.bind_eq_some_iff.1 hs
    have hok := (hI.task w task hw).1
    cases performed hs with
    | read hp =>
      refine ⟨sh, Or.inl rfl, h.goOn fun hT => ?_⟩
      have hsim := h.task w task hw hT
      rwa [FileTaskSim, hp] at hsim
    | @eof i got hp hlen =>
      refine ⟨sh, Or.inl rfl, h.finishLoad fun hT contents hc => ?_⟩
      have hsim := h.task w task hw hT
      rw [FileTaskSim, hp] at hsim
      exact hsim contents (by rw [Option.map_some, ← (whole_load hI hw hp hlen).1]; exact hc)
    | absent hp =>
      refine ⟨sh, Or.inl rfl, h.finishLoad fun hT contents hc => ?_⟩
      have hsim := h.task w task hw hT
      rw [FileTaskSim, hp] at hsim
      exact hsim contents hc
    | mkdir hp hd =>
      have honly := Mounted.createDirAll_onlyAt hd
      obtain ⟨fs', hfs, rfl⟩ := Option.map_eq_some_iff.1 hd
      obtain ⟨hdir, hnode, -, hfile⟩ := FileSys.createDirAll_spec hfs
      refine ⟨sh, Or.inl rfl, h.disk hI (fun i hi => honly.calm (hfile i) hi) ?_⟩
      refine read_tmp_call hI honly (fun i _ => hfile i) fun i => ?_
      by_cases hT : T.path = task.target.dir
      · rw [hT]
        exact iff_of_false (fun hi => by cases hdir.symm.trans hi) (hfile i)
      · exact ⟨fun hi => (hnode _ hT).symm.trans hi, fun hi => (hnode _ hT).trans hi⟩
    | create hp hd =>
      exact ⟨sh, Or.inl rfl, h.tmp_call hI (Mounted.create_spec hd).1 fun hT => h.contents hw hT hp fun _ h => h⟩
    | write hp =>
      rw [FileTaskOk, hp] at hok
      exact ⟨sh, Or.inl rfl, h.tmp_call hI (Mounted.write_onlyAt _ hok.1) fun hT => h.contents hw hT hp fun _ h => h⟩
    | sync hp =>
      rw [FileTaskOk, hp] at hok
      exact ⟨sh, Or.inl rfl, h.tmp_call hI (Mounted.sync_onlyAt hok.1) fun hT => h.contents hw hT hp fun _ h => h⟩
    | rename hp hd =>
      obtain ⟨sh', ha, hsim⟩ := h.rename hI hw hp hd
      exact ⟨sh', ha.imp_right fun ha => ⟨_, ha⟩, hsim⟩
    | stop => exact ⟨sh, Or.inl rfl, h.erase w⟩

end Refinement

/-- In every run in which no two overlapping calls share file and process id and the power does not fail, each file
is a cell: it holds what loads at the `open` and saves at the `rename` make of it, in some run of the loads and saves
with the same saves in the same order; so it holds the result of some of the saved operations, one after another. -/
theorem write_atomic_refines (update : Option Bytes → β → Option Bytes) (fs : FileSys PathBuf)
    (es : List (StoreEvent β)) (s : Store β)
    (hr : Run (storeStep update) (fun s e => Apart s e ∧ Powered e) (Store.start fs) es s) (T : Target) :
    (∃ as sh, Run (access (fileUpdate update)) Always (Shared.start (fs.read T.path)) as sh ∧
      sh.cell = s.disk.fs.read T.path ∧ sh.done = s.savedAt T.path) ∧
    ∃ kept, kept.Sublist (s.savedAt T.path) ∧
      s.disk.fs.read T.path = serially (fileUpdate update) (fs.read T.path) kept := by
  have hsim : StoreOk s ∧ ∃ as sh, Run (access (fileUpdate update)) Always (Shared.start (fs.read T.path)) as sh ∧
      FileSim update T s sh := by
    refine hr.invariant (I := fun s => StoreOk s ∧ ∃ as sh,
      Run (access (fileUpdate update)) Always (Shared.start (fs.read T.path)) as sh ∧ FileSim update T s sh) ?_ ?_
    · refine ⟨storeInv_start fun _ => trivial, [], _, Run.nil _, rfl, rfl, fun v t ht => (by cases ht), fun _ _ => rfl⟩
    · rintro s e t ⟨hI, as, sh, hrun, hsim⟩ ⟨hapart, hpow⟩ hs
      refine ⟨storeInv_step hI hapart (fun _ _ _ _ => trivial) (fun _ _ _ _ _ _ _ => trivial) hs, ?_⟩
      obtain ⟨sh', rfl | ⟨a, ha⟩, hsim'⟩ := sim_step hsim hI hpow hs
      · exact ⟨as, _, hrun, hsim'⟩
      · exact ⟨as ++ [a], sh', hrun.snoc trivial ha, hsim'⟩
  obtain ⟨-, as, sh, hrun, hsim⟩ := hsim
  refine ⟨⟨as, sh, hrun, hsim.cell, hsim.done⟩, ?_⟩
  obtain ⟨kept, hsub, heq⟩ := exists_kept hrun
  exact ⟨kept, hsim.done ▸ hsub, hsim.cell.symm.trans heq⟩

/-! ### Two processes, and two tasks of one process -/

private def peersToml : Target := ⟨"/c", "peers.toml", by decide, by decide⟩

private def disk₀ : FileSys PathBuf := (FileSys.empty.writeFile peersToml.path [1, 2]).getD FileSys.empty

/-- Adds a byte to what was loaded. -/
private def append (old : Option Bytes) (op : UInt8) : Option Bytes := old.map (· ++ [op])

/-- The processes 7 and 8 load the file, then both save it. -/
private def twoProcesses : List (StoreEvent UInt8) :=
  [.start peersToml 7 (.edit 3), .call 0 (.read 1), .start peersToml 8 (.edit 4), .call 1 (.read 9), .call 1 .eof,
    .call 1 .create, .call 0 (.read 1), .call 1 (.write 9), .call 1 .sync, .call 1 .rename, .call 0 .eof,
    .call 0 .create, .call 0 (.write 2), .call 0 (.write 1), .call 0 .sync, .call 0 .rename]

/-- The load of 7 comes before the save of 8, and its save after: only the byte of 7 is kept. -/
theorem write_atomic_refines_overlap :
    ∃ s, Run (storeStep append) (fun s e => Apart s e ∧ Powered e) (Store.start disk₀) twoProcesses s ∧
      s.disk.fs.read peersToml.path = some [1, 2, 3] ∧ s.savedAt peersToml.path = [.edit 4, .edit 3] ∧
      ∃ kept, kept.Sublist [.edit 4, .edit 3] ∧
        some [1, 2, 3] = serially (fileUpdate append) (disk₀.read peersToml.path) kept := by
  obtain ⟨s, hrun, hview⟩ := run_of_exec_checked (storeStep append) (fun s e => Apart s e ∧ Powered e)
    (Store.start disk₀) twoProcesses (fun s => (s.disk.fs.read peersToml.path, s.savedAt peersToml.path))
    (some [1, 2, 3], [.edit 4, .edit 3]) (by decide)
  simp only [Prod.mk.injEq] at hview
  have h := (write_atomic_refines append disk₀ twoProcesses s hrun peersToml).2
  rw [hview.1, hview.2] at h
  exact ⟨s, hrun, hview.1, hview.2, h⟩

/-- The process 7 has renamed its file, and 8 has written half of its own, when the power fails: the directory of
before the rename comes back, with zeros in the half written file. -/
private def powerFails : List (StoreEvent UInt8) :=
  [.start peersToml 7 (.store [5, 6]), .call 0 .create, .call 0 (.write 2), .call 0 .sync,
    .start peersToml 8 (.edit 4), .call 1 (.read 2), .call 1 .eof, .call 1 .create, .call 1 (.write 1), .call 0 .rename,
    .powerLoss 1 (fun _ => [0])]

theorem write_atomic_whole_powerLoss :
    ∃ s, Run (storeStep append) Apart (Store.start disk₀) powerFails s ∧
      s.disk.fs.read peersToml.path = some [1, 2] ∧
      Derived append disk₀.read (Started powerFails) peersToml.path (s.disk.fs.read peersToml.path) := by
  obtain ⟨s, hrun, hview⟩ := run_of_exec_checked (storeStep append) Apart (Store.start disk₀) powerFails
    (fun s => s.disk.fs.read peersToml.path) (some [1, 2]) (by decide)
  exact ⟨s, hrun, hview, (write_atomic_whole append disk₀ powerFails s hrun).1 peersToml⟩

/-- Two tasks of the process 7 save the file at the same time: the second truncates the temp file of the first, which
then renames it. -/
private def sameProcess : List (StoreEvent UInt8) :=
  [.start peersToml 7 (.store [5, 6]), .call 0 .create, .call 0 (.write 2), .start peersToml 7 (.store [7, 8]),
    .call 1 .create, .call 0 .sync, .call 0 .rename]

/-- The temp file is shared by the tasks of one process: their saves of one file must not overlap. -/
theorem shared_temp : ¬ ∀ (fs : FileSys PathBuf) (es : List (StoreEvent UInt8)) (s : Store UInt8) (T : Target),
    Run (storeStep append) Always (Store.start fs) es s →
      Derived append fs.read (Started es) T.path (s.disk.fs.read T.path) := by
  intro h
  obtain ⟨s, hrun, hview⟩ := run_of_exec_view (storeStep append) (fun _ => True) (Store.start disk₀) sameProcess
    (fun s => s.disk.fs.read peersToml.path) (some []) (fun _ _ => trivial) (by decide)
  have hd := h disk₀ sameProcess s peersToml hrun
  rw [hview] at hd
  -- every whole content here has two bytes at least
  have hkind : ∀ v, Derived append disk₀.read (Started sameProcess) peersToml.path v →
      ∃ a b rest, v = some (a :: b :: rest) := by
    intro v hv
    refine hv.kind (K := fun v => ∃ a b rest, v = some (a :: b :: rest)) ⟨1, 2, [], by decide⟩ ?_
    rintro _ op contents ⟨a, b, rest, rfl⟩ ⟨T, pid, hmem, -⟩ hc
    simp only [sameProcess, List.mem_cons, List.not_mem_nil, or_false, reduceCtorEq, false_or,
      StoreEvent.start.injEq] at hmem
    rcases hmem with ⟨-, -, rfl⟩ | ⟨-, -, rfl⟩ <;> cases hc
    · exact ⟨5, 6, [], rfl⟩
    · exact ⟨7, 8, [], rfl⟩
  obtain ⟨a, b, rest, habs⟩ := hkind _ hd
  cases habs

end Qdrop
