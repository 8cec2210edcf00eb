import Mathlib.Logic.Function.Basic

/-!
# A file system with inodes and open handles

Paths name directories or inodes, and an inode holds the bytes of a regular file.  An open handle names the inode
and a position, not the path: it keeps writing to the same inode after a rename, and creating a file over an
existing path truncates the inode that older handles still write to.  There are no hard links (`sole`), and an
inode number is never reused (`fresh`).
-/

namespace Lib

/-- What a path names. -/
inductive Node where
  | dir
  | file (ino : Nat)
deriving DecidableEq, Repr

/-- An open file: the inode written to and the position of the next write. -/
structure Handle where
  ino : Nat
  pos : Nat
deriving DecidableEq, Repr

structure FileSys (Path : Type) where
  node : Path → Option Node
  data : Nat → List UInt8
  next : Nat
  fresh : ∀ p i, node p = some (.file i) → i < next
  sole : ∀ p q i, node p = some (.file i) → node q = some (.file i) → p = q

/-- `old` with the bytes `new` written at position `pos`; a gap is filled with zeros. -/
def overwrite (old : List UInt8) (pos : Nat) (new : List UInt8) : List UInt8 :=
  if new = [] then old
  else old.take pos ++ List.replicate (pos - old.length) 0 ++ new ++ old.drop (pos + new.length)

/-- Writing at the end of the file appends. -/
theorem overwrite_end (old new : List UInt8) : overwrite old old.length new = old ++ new := by
  unfold overwrite
  split
  · rename_i h; simp [h]
  · simp

namespace FileSys

variable {Path : Type} [DecidableEq Path]

/-- The disk with nothing on it. -/
def empty : FileSys Path where
  node _ := none
  data _ := []
  next := 0
  fresh _ _ h := by cases h
  sole _ _ _ h := by cases h

/-- `metadata(p)` succeeds. -/
def present (fs : FileSys Path) (p : Path) : Bool := (fs.node p).isSome

/-- The bytes of the regular file at `p`. -/
def read (fs : FileSys Path) (p : Path) : Option (List UInt8) :=
  match fs.node p with
  | some (.file i) => some (fs.data i)
  | _ => none

/-- Change what one path names, to a directory or to nothing. -/
private def setNode (fs : FileSys Path) (p : Path) (n : Option Node) (hn : ∀ i, n ≠ some (.file i)) :
    FileSys Path where
  node := Function.update fs.node p n
  data := fs.data
  next := fs.next
  fresh q i h := by
    by_cases hq : q = p
    · subst hq; simp only [Function.update_self] at h; exact absurd h (hn i)
    · rw [Function.update_of_ne hq] at h; exact fs.fresh q i h
  sole q r i h h' := by
    by_cases hq : q = p
    · subst hq; simp only [Function.update_self] at h; exact absurd h (hn i)
    · by_cases hr : r = p
      · subst hr; simp only [Function.update_self] at h'; exact absurd h' (hn i)
      · rw [Function.update_of_ne hq] at h
        rw [Function.update_of_ne hr] at h'
        exact fs.sole q r i h h'

/-- `create_dir_all(p)`: fails when a regular file is in the way. -/
def createDirAll (fs : FileSys Path) (p : Path) : Option (FileSys Path) :=
  match fs.node p with
  | some (.file _) => none
  | _ => some (fs.setNode p (some .dir) (by simp))

/-- `remove_file(p)`. -/
def removeFile (fs : FileSys Path) (p : Path) : Option (FileSys Path) :=
  match fs.node p with
  | some (.file _) => some (fs.setNode p none (by simp))
  | _ => none

/-- `File::create(p)`: truncate the inode at `p`, or make a new one. -/
def create (fs : FileSys Path) (p : Path) : Option (FileSys Path × Handle) :=
  match fs.node p with
  | some .dir => none
  | some (.file i) => some ({ fs with data := Function.update fs.data i [] }, ⟨i, 0⟩)
  | none =>
    some ({ node := Function.update fs.node p (some (.file fs.next))
            data := Function.update fs.data fs.next []
            next := fs.next + 1
            fresh := by
              intro q i h
              by_cases hq : q = p
              · subst hq
                simp only [Function.update_self, Option.some.injEq, Node.file.injEq] at h
                omega
              · rw [Function.update_of_ne hq] at h
                exact Nat.lt_succ_of_lt (fs.fresh q i h)
            sole := by
              intro q r i h h'
              by_cases hq : q = p
              · by_cases hr : r = p
                · rw [hq, hr]
                · subst hq
                  simp only [Function.update_self, Option.some.injEq, Node.file.injEq] at h
                  rw [Function.update_of_ne hr] at h'
                  have := fs.fresh r i h'
                  omega
              · rw [Function.update_of_ne hq] at h
                by_cases hr : r = p
                · subst hr
                  simp only [Function.update_self, Option.some.injEq, Node.file.injEq] at h'
                  have := fs.fresh q i h
                  omega
                · rw [Function.update_of_ne hr] at h'
                  exact fs.sole q r i h h' }, ⟨fs.next, 0⟩)

/-- Write `bytes` through a handle. -/
def write (fs : FileSys Path) (h : Handle) (bytes : List UInt8) : FileSys Path × Handle :=
  ({ fs with data := Function.update fs.data h.ino (overwrite (fs.data h.ino) h.pos bytes) },
    ⟨h.ino, h.pos + bytes.length⟩)

/-- `fs::write(p, bytes)`. -/
def writeFile (fs : FileSys Path) (p : Path) (bytes : List UInt8) : Option (FileSys Path) :=
  (fs.create p).map fun c => (c.1.write c.2 bytes).1

/-- `rename(p, q)` of a regular file: `q` is replaced when it is a regular file, a directory there is an error. -/
def rename (fs : FileSys Path) (p q : Path) : Option (FileSys Path) :=
  match hp : fs.node p, fs.node q with
  | some (.file _), some .dir => none
  | some (.file i), _ =>
    if hpq : p = q then some fs
    else some { node := Function.update (Function.update fs.node p none) q (some (.file i))
                data := fs.data
                next := fs.next
                fresh := by
                  intro r j h
                  by_cases hr : r = q
                  · subst hr
                    simp only [Function.update_self, Option.some.injEq, Node.file.injEq] at h
                    subst h
                    exact fs.fresh p i hp
                  · rw [Function.update_of_ne hr] at h
                    by_cases hr' : r = p
                    · subst hr'; simp at h
                    · rw [Function.update_of_ne hr'] at h; exact fs.fresh r j h
                sole := by
                  -- the moved inode had no other name than `p`
                  have key : ∀ r j, r ≠ q →
                      Function.update (Function.update fs.node p none) q (some (.file i)) r =
                        some (.file j) → r ≠ p ∧ fs.node r = some (.file j) := by
                    intro r j hr h
                    rw [Function.update_of_ne hr] at h
                    by_cases hr' : r = p
                    · subst hr'; simp at h
                    · rw [Function.update_of_ne hr'] at h; exact ⟨hr', h⟩
                  intro r r' j h h'
                  by_cases hr : r = q
                  · by_cases hr' : r' = q
                    · rw [hr, hr']
                    · obtain ⟨hne, hn⟩ := key r' j hr' h'
                      subst hr
                      simp only [Function.update_self, Option.some.injEq, Node.file.injEq] at h
                      subst h
                      exact absurd (fs.sole r' p i hn hp) hne
                  · obtain ⟨hne, hn⟩ := key r j hr h
                    by_cases hr' : r' = q
                    · subst hr'
                      simp only [Function.update_self, Option.some.injEq, Node.file.injEq] at h'
                      subst h'
                      exact absurd (fs.sole r p i hn hp) hne
                    · exact fs.sole r r' j hn (key r' j hr' h').2 }
  | _, _ => none

/-! ### What each operation does -/

theorem createDirAll_spec {fs fs' : FileSys Path} {p : Path} (h : fs.createDirAll p = some fs') :
    fs'.node p = some .dir ∧ (∀ q, q ≠ p → fs'.node q = fs.node q) ∧ fs'.data = fs.data ∧
      ∀ i, fs.node p ≠ some (.file i) := by
  unfold createDirAll at h
  split at h
  · cases h
  · rename_i hn
    cases h
    refine ⟨by simp [setNode], fun q hq => by simp [setNode, hq], rfl, fun i hi => hn i hi⟩

theorem createDirAll_next {fs fs' : FileSys Path} {p : Path} (h : fs.createDirAll p = some fs') :
    fs'.next = fs.next := by
  unfold createDirAll at h
  split at h
  · cases h
  · cases h
    rfl

/-- A directory can be made where there is no regular file. -/
theorem createDirAll_some {fs : FileSys Path} {p : Path} (h : ∀ i, fs.node p ≠ some (.file i)) :
    ∃ fs', fs.createDirAll p = some fs' := by
  unfold createDirAll
  split
  · rename_i i hi
    exact absurd hi (h i)
  · exact ⟨_, rfl⟩

theorem removeFile_spec {fs fs' : FileSys Path} {p : Path} (h : fs.removeFile p = some fs') :
    fs'.node p = none ∧ (∀ q, q ≠ p → fs'.node q = fs.node q) ∧ fs'.data = fs.data := by
  unfold removeFile at h
  split at h
  · cases h
    exact ⟨by simp [setNode], fun q hq => by simp [setNode, hq], rfl⟩
  · cases h

theorem removeFile_next {fs fs' : FileSys Path} {p : Path} (h : fs.removeFile p = some fs') :
    fs'.next = fs.next := by
  unfold removeFile at h
  split at h
  · cases h
    rfl
  · cases h

/-- Removing fails only where there is no regular file. -/
theorem removeFile_none {fs : FileSys Path} {p : Path} (h : fs.removeFile p = none) (i : Nat) :
    fs.node p ≠ some (.file i) := by
  intro hn
  simp [removeFile, hn] at h

theorem create_spec {fs fs' : FileSys Path} {p : Path} {h : Handle} (hc : fs.create p = some (fs', h)) :
    fs'.node p = some (.file h.ino) ∧ h.pos = 0 ∧ fs'.data h.ino = [] ∧
      (∀ q, q ≠ p → fs'.node q = fs.node q ∧ fs.node q ≠ some (.file h.ino)) ∧
      ∀ i, i ≠ h.ino → fs'.data i = fs.data i := by
  unfold create at hc
  split at hc
  · cases hc
  · rename_i i hn
    cases hc
    refine ⟨hn, rfl, by simp, fun q hq => ⟨rfl, fun hq' => hq (fs.sole q p i hq' hn)⟩, fun j hj => ?_⟩
    simp [hj]
  · cases hc
    refine ⟨by simp, rfl, by simp, fun q hq => ⟨by simp [hq], fun hq' => ?_⟩, fun j hj => by simp [hj]⟩
    exact absurd (fs.fresh q _ hq') (Nat.lt_irrefl _)

/-- A created file is a new inode, or the one its name had. -/
theorem create_ino {fs fs' : FileSys Path} {p : Path} {h : Handle} (hc : fs.create p = some (fs', h)) :
    (fs.node p = some (.file h.ino) ∨ fs.next ≤ h.ino) ∧ fs.next ≤ fs'.next := by
  unfold create at hc
  split at hc
  · cases hc
  · rename_i j hj
    cases hc
    exact ⟨Or.inl hj, Nat.le_refl _⟩
  · cases hc
    exact ⟨Or.inr (Nat.le_refl _), Nat.le_succ _⟩

/-- A file can be created where there is no directory. -/
theorem create_some {fs : FileSys Path} {p : Path} (h : fs.node p ≠ some .dir) :
    ∃ fs' handle, fs.create p = some (fs', handle) := by
  unfold create
  split
  · rename_i hd
    exact absurd hd h
  · exact ⟨_, _, rfl⟩
  · exact ⟨_, _, rfl⟩

omit [DecidableEq Path] in
theorem write_spec (fs : FileSys Path) (h : Handle) (bytes : List UInt8) :
    (fs.write h bytes).1.node = fs.node ∧
      (fs.write h bytes).1.data h.ino = overwrite (fs.data h.ino) h.pos bytes ∧
      ∀ i, i ≠ h.ino → (fs.write h bytes).1.data i = fs.data i := by
  refine ⟨rfl, by simp [write], fun i hi => by simp [write, hi]⟩

theorem rename_spec {fs fs' : FileSys Path} {p q : Path} (h : fs.rename p q = some fs') :
    (∃ i, fs.node p = some (.file i) ∧ fs'.node q = some (.file i)) ∧ (p ≠ q → fs'.node p = none) ∧
      (∀ r, r ≠ p → r ≠ q → fs'.node r = fs.node r) ∧ fs'.data = fs.data := by
  unfold rename at h
  split at h
  · cases h
  · rename_i _ i hp _
    split at h
    · rename_i hpq
      cases h
      exact ⟨⟨i, hp, hpq ▸ hp⟩, fun hne => absurd hpq hne, fun _ _ _ => rfl, rfl⟩
    · rename_i hpq
      cases h
      exact ⟨⟨i, hp, by simp⟩, fun _ => by simp [hpq], fun r hr hr' => by simp [hr, hr'], rfl⟩
  · cases h

theorem rename_next {fs fs' : FileSys Path} {p q : Path} (h : fs.rename p q = some fs') : fs'.next = fs.next := by
  unfold rename at h
  split at h
  · cases h
  · split at h <;> cases h <;> rfl
  · cases h

/-- A regular file is not renamed onto a directory. -/
theorem rename_onto_dir {fs : FileSys Path} {p q : Path} (hq : fs.node q = some .dir) : fs.rename p q = none := by
  unfold rename
  split
  · rfl
  · rename_i hno
    exact absurd hq hno
  · rfl

/-- A regular file can be renamed to a name where there is no directory. -/
theorem rename_of_not_dir {fs : FileSys Path} {p q : Path} {i : Nat} (hp : fs.node p = some (.file i))
    (hq : fs.node q ≠ some .dir) : ∃ fs', fs.rename p q = some fs' := by
  unfold rename
  split
  · rename_i hd
    exact absurd hd hq
  · split
    · exact ⟨_, rfl⟩
    · exact ⟨_, rfl⟩
  · rename_i hno _
    exact absurd hp (hno i)

/-- A regular file can be renamed to a name that is free. -/
theorem rename_some {fs : FileSys Path} {p q : Path} {i : Nat} (hp : fs.node p = some (.file i))
    (hq : fs.node q = none) : ∃ fs', fs.rename p q = some fs' :=
  rename_of_not_dir hp (by rw [hq]; exact fun h => by cases h)

/-- `fs'` has at `q` what `fs` has. -/
def Keeps (fs fs' : FileSys Path) (q : Path) : Prop :=
  fs'.node q = fs.node q ∧ ∀ i, fs.node q = some (.file i) → fs'.data i = fs.data i

omit [DecidableEq Path] in
theorem Keeps.read {fs fs' : FileSys Path} {q : Path} (h : Keeps fs fs' q) : fs'.read q = fs.read q := by
  unfold FileSys.read
  rw [h.1]
  split
  · rename_i i hi
    rw [h.2 i hi]
  · rfl

omit [DecidableEq Path] in
theorem Keeps.trans {fs fs' fs'' : FileSys Path} {q : Path} (h : Keeps fs fs' q) (h' : Keeps fs' fs'' q) :
    Keeps fs fs'' q := by
  refine ⟨h'.1.trans h.1, fun i hi => ?_⟩
  rw [h'.2 i (h.1.trans hi), h.2 i hi]

omit [DecidableEq Path] in
theorem Keeps.refl (fs : FileSys Path) (q : Path) : Keeps fs fs q := ⟨rfl, fun _ _ => rfl⟩

theorem createDirAll_keeps {fs fs' : FileSys Path} {p q : Path} (h : fs.createDirAll p = some fs') (hq : q ≠ p) :
    Keeps fs fs' q := by
  obtain ⟨-, hne, hdata, -⟩ := createDirAll_spec h
  exact ⟨hne q hq, fun i _ => by rw [hdata]⟩

theorem removeFile_keeps {fs fs' : FileSys Path} {p q : Path} (h : fs.removeFile p = some fs') (hq : q ≠ p) :
    Keeps fs fs' q := by
  obtain ⟨-, hne, hdata⟩ := removeFile_spec h
  exact ⟨hne q hq, fun i _ => by rw [hdata]⟩

/-- What was read at the old name is read at the new one, and other names stay. -/
theorem rename_keeps {fs fs' : FileSys Path} {p q : Path} (h : fs.rename p q = some fs') :
    fs'.read q = fs.read p ∧ ∀ r, r ≠ p → r ≠ q → Keeps fs fs' r := by
  obtain ⟨⟨i, hp, hq⟩, -, hne, hdata⟩ := rename_spec h
  refine ⟨?_, fun r hr hr' => ⟨hne r hr hr', fun j _ => by rw [hdata]⟩⟩
  simp only [FileSys.read, hp, hq, hdata]

/-- A written file holds what was written, and other files keep what they hold. -/
theorem writeFile_spec {fs fs' : FileSys Path} {p : Path} {bytes : List UInt8}
    (h : fs.writeFile p bytes = some fs') : fs'.read p = some bytes ∧ ∀ q, q ≠ p → Keeps fs fs' q := by
  obtain ⟨⟨fs₁, handle⟩, hc, rfl⟩ := Option.map_eq_some_iff.1 h
  obtain ⟨hnode, hpos, hnew, hother, hdata⟩ := create_spec hc
  obtain ⟨hwnode, hwdata, hwother⟩ := write_spec fs₁ handle bytes
  constructor
  · have hover : overwrite [] 0 bytes = bytes := overwrite_end [] bytes
    simp only [FileSys.read, hwnode, hnode, hwdata, hnew, hpos, hover]
  · intro q hq
    refine ⟨(congrFun hwnode q).trans (hother q hq).1, fun i hi => ?_⟩
    have hne : i ≠ handle.ino := by
      rintro rfl
      exact (hother q hq).2 hi
    rw [hwother i hne, hdata i hne]

/-- A file can be written where there is no directory. -/
theorem writeFile_some {fs : FileSys Path} {p : Path} (h : fs.node p ≠ some .dir) (bytes : List UInt8) :
    ∃ fs', fs.writeFile p bytes = some fs' := by
  obtain ⟨fs', handle, hc⟩ := create_some h
  exact ⟨_, by rw [writeFile, hc]; rfl⟩

omit [DecidableEq Path] in
/-- What can be read is a regular file. -/
theorem read_eq_some {fs : FileSys Path} {p : Path} {bytes : List UInt8} (h : fs.read p = some bytes) :
    ∃ i, fs.node p = some (.file i) := by
  unfold FileSys.read at h
  split at h
  · rename_i i hi
    exact ⟨i, hi⟩
  · cases h

omit [DecidableEq Path] in
theorem present_eq_false {fs : FileSys Path} {p : Path} : fs.present p = false ↔ fs.node p = none := by
  simp [present]

end FileSys

end Lib
