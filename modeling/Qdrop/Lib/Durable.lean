import Qdrop.Lib.FileSys

/-!
# What a power failure leaves of a file system

The kernel shows every change at once, but what reaches the disk is another matter: a power failure brings back the
directory of some earlier moment, and a file with changes that no `fsync` has covered may hold anything.  `Mounted`
keeps the directories since the mount and which inodes have such changes.

A call on one name changes only that name and the inode there (`OnlyAt`).  So a program that writes to temp names and
renames what it wrote never touches an inode that no temp name names (`Sealed`, `Calm`).
-/

namespace Lib

variable {Path : Type}

/-- A mounted file system, the directories since the mount, and the inodes with changes that are not synced. -/
structure Mounted (Path : Type) where
  fs : FileSys Path
  past : List (FileSys Path)
  dirty : Nat → Bool

/-- The directory of `old` over other inodes. -/
def FileSys.restore (old : FileSys Path) (data : Nat → List UInt8) (next : Nat) : FileSys Path where
  node := old.node
  data := data
  next := max old.next next
  fresh p i h := Nat.lt_of_lt_of_le (old.fresh p i h) (Nat.le_max_left ..)
  sole := old.sole

namespace Mounted

/-- A file system as it is mounted: everything is on the disk. -/
def mount (fs : FileSys Path) : Mounted Path := ⟨fs, [fs], fun _ => false⟩

/-- The directory changes. -/
def change (m : Mounted Path) (fs : FileSys Path) : Mounted Path := ⟨fs, fs :: m.past, m.dirty⟩

variable [DecidableEq Path]

def createDirAll (m : Mounted Path) (p : Path) : Option (Mounted Path) := (m.fs.createDirAll p).map m.change

def create (m : Mounted Path) (p : Path) : Option (Mounted Path × Handle) :=
  (m.fs.create p).map fun c => (⟨c.1, c.1 :: m.past, Function.update m.dirty c.2.ino true⟩, c.2)

def write (m : Mounted Path) (h : Handle) (bytes : List UInt8) : Mounted Path × Handle :=
  (⟨(m.fs.write h bytes).1, m.past, Function.update m.dirty h.ino true⟩, (m.fs.write h bytes).2)

def rename (m : Mounted Path) (p q : Path) : Option (Mounted Path) := (m.fs.rename p q).map m.change

omit [DecidableEq Path] in
/-- `fsync` of an open file. -/
def sync (m : Mounted Path) (h : Handle) : Mounted Path := ⟨m.fs, m.past, Function.update m.dirty h.ino false⟩

omit [DecidableEq Path] in
/-- The power fails: the directory of the moment `k` comes back, and what was not synced is replaced by `junk`. -/
def powerLoss (m : Mounted Path) (k : Nat) (junk : Nat → List UInt8) : Option (Mounted Path) :=
  (m.past[k]?).map fun old => mount (old.restore (fun i => if m.dirty i then junk i else m.fs.data i) m.fs.next)

/-! ### What a call changes -/

/-- A call that changes at most what `p` names and the inode there. -/
structure OnlyAt (p : Path) (m m' : Mounted Path) : Prop where
  node : ∀ r, r ≠ p → m'.fs.node r = m.fs.node r
  inode : ∀ i, i < m.fs.next → m.fs.node p ≠ some (.file i) →
    m'.fs.node p ≠ some (.file i) ∧ m'.fs.data i = m.fs.data i ∧ m'.dirty i = m.dirty i
  next : m.fs.next ≤ m'.fs.next

variable {m m' : Mounted Path} {p q : Path} {i : Nat}

omit [DecidableEq Path] in
/-- The file at another name is left alone. -/
theorem OnlyAt.file {r : Path} {j : Nat} (h : OnlyAt p m m') (hr : r ≠ p) (hj : m.fs.node r = some (.file j)) :
    m'.fs.node r = some (.file j) ∧ m'.fs.data j = m.fs.data j ∧ m'.dirty j = m.dirty j :=
  ⟨(h.node r hr).trans hj, (h.inode j (m.fs.fresh r j hj) fun hp => hr (m.fs.sole r p j hj hp)).2⟩

theorem createDirAll_onlyAt (hm : m.createDirAll p = some m') : OnlyAt p m m' := by
  obtain ⟨fs', hfs, rfl⟩ := Option.map_eq_some_iff.1 hm
  obtain ⟨hdir, hnode, hdata, -⟩ := FileSys.createDirAll_spec hfs
  have hnext := FileSys.createDirAll_next hfs
  exact ⟨hnode, fun i _ _ => ⟨fun h => (by cases hdir.symm.trans h), congrFun hdata i, rfl⟩, Nat.le_of_eq hnext.symm⟩

theorem create_spec {handle : Handle} (hm : m.create p = some (m', handle)) :
    OnlyAt p m m' ∧ m'.fs.node p = some (.file handle.ino) ∧ handle.pos = 0 ∧ m'.fs.data handle.ino = [] ∧
      m'.past = m'.fs :: m.past := by
  obtain ⟨⟨fs', h⟩, hfs, heq⟩ := Option.map_eq_some_iff.1 hm
  cases heq
  obtain ⟨hnode, hpos, hempty, hother, hdata⟩ := FileSys.create_spec hfs
  obtain ⟨hino, hnext⟩ := FileSys.create_ino hfs
  refine ⟨⟨fun r hr => (hother r hr).1, fun i hi hp => ?_, hnext⟩, hnode, hpos, hempty, rfl⟩
  have hne : i ≠ h.ino := by
    rintro rfl
    rcases hino with hold | hnew
    · exact hp hold
    · exact absurd hi (Nat.not_lt.2 hnew)
  refine ⟨fun hpi => hne ?_, hdata i hne, Function.update_of_ne hne ..⟩
  cases hnode.symm.trans hpi
  rfl

omit [DecidableEq Path] in
theorem write_onlyAt {h : Handle} (bytes : List UInt8) (hh : m.fs.node p = some (.file h.ino)) :
    OnlyAt p m (m.write h bytes).1 := by
  refine ⟨fun _ _ => rfl, fun i _ hp => ⟨hp, ?_⟩, Nat.le_refl _⟩
  have hne : i ≠ h.ino := by
    rintro rfl
    exact hp hh
  exact ⟨(FileSys.write_spec m.fs h bytes).2.2 i hne, Function.update_of_ne hne ..⟩

omit [DecidableEq Path] in
theorem sync_onlyAt {h : Handle} (hh : m.fs.node p = some (.file h.ino)) : OnlyAt p m (m.sync h) := by
  refine ⟨fun _ _ => rfl, fun i _ hp => ⟨hp, rfl, ?_⟩, Nat.le_refl _⟩
  have hne : i ≠ h.ino := by
    rintro rfl
    exact hp hh
  exact Function.update_of_ne hne ..

/-- What a rename shows and leaves. -/
theorem rename_spec (hm : m.rename p q = some m') (hpq : p ≠ q) :
    (∃ j, m.fs.node p = some (.file j) ∧ m'.fs.node q = some (.file j)) ∧ m'.fs.node p = none ∧
      (∀ r, r ≠ p → r ≠ q → m'.fs.node r = m.fs.node r) ∧ m'.fs.data = m.fs.data ∧ m'.fs.next = m.fs.next ∧
      m'.past = m'.fs :: m.past ∧ m'.dirty = m.dirty := by
  obtain ⟨fs', hfs, rfl⟩ := Option.map_eq_some_iff.1 hm
  obtain ⟨hmoved, hgone, hother, hdata⟩ := FileSys.rename_spec hfs
  exact ⟨hmoved, hgone hpq, hother, hdata, FileSys.rename_next hfs, rfl, rfl⟩

omit [DecidableEq Path] in
/-- After a power failure an earlier directory is back, everything is on the disk, and the synced inodes have their
bytes. -/
theorem powerLoss_spec {k : Nat} {junk : Nat → List UInt8} (hm : m.powerLoss k junk = some m') :
    ∃ old ∈ m.past, m' = mount m'.fs ∧ m'.fs.node = old.node ∧ m.fs.next ≤ m'.fs.next ∧
      ∀ i, m.dirty i = false → m'.fs.data i = m.fs.data i := by
  obtain ⟨old, hold, rfl⟩ := Option.map_eq_some_iff.1 hm
  refine ⟨old, List.mem_of_getElem? hold, rfl, rfl, Nat.le_max_right .., fun i hi => ?_⟩
  simp [mount, FileSys.restore, hi]

/-! ### Sealed inodes -/

/-- No temp name names the inode, and no new file will get it. -/
def Sealed (temp : Path → Prop) (m : Mounted Path) (i : Nat) : Prop :=
  i < m.fs.next ∧ ∀ q, temp q → m.fs.node q ≠ some (.file i)

/-- What a call does to an inode that it has no business with: it stays sealed, with the same bytes, and it is synced
as before. -/
structure Calm (temp : Path → Prop) (m m' : Mounted Path) (i : Nat) : Prop where
  sealed : Sealed temp m' i
  data : m'.fs.data i = m.fs.data i
  dirty : m'.dirty i = m.dirty i

variable {temp : Path → Prop}

omit [DecidableEq Path] in
/-- A call on a name that does not name the inode leaves it sealed. -/
theorem OnlyAt.calm (h : OnlyAt p m m') (hp : m.fs.node p ≠ some (.file i)) (hi : Sealed temp m i) :
    Calm temp m m' i := by
  obtain ⟨hp', hdata, hdirty⟩ := h.inode i hi.1 hp
  refine ⟨⟨Nat.lt_of_lt_of_le hi.1 h.next, fun q hq => ?_⟩, hdata, hdirty⟩
  by_cases hqp : q = p
  · exact hqp ▸ hp'
  · exact fun hqi => hi.2 q hq ((h.node q hqp).symm.trans hqi)

/-- A rename to a name that is no temp name leaves sealed inodes alone, and seals the one it moves. -/
theorem rename_calm (hm : m.rename p q = some m') (hp : temp p) (hq : ¬ temp q)
    (hi : Sealed temp m i ∨ m.fs.node p = some (.file i)) : Calm temp m m' i := by
  have hpq : p ≠ q := fun h => hq (h ▸ hp)
  obtain ⟨-, hgone, hother, hdata, hnext, -, hdirty⟩ := rename_spec hm hpq
  have hlt : i < m.fs.next := hi.elim (fun h => h.1) (m.fs.fresh p i)
  refine ⟨⟨hnext ▸ hlt, fun r hr hri => ?_⟩, congrFun hdata i, congrFun hdirty i⟩
  by_cases hrp : r = p
  · subst hrp
    cases hgone.symm.trans hri
  · rw [hother r hrp (fun h => hq (h ▸ hr))] at hri
    rcases hi with hi | hi
    · exact hi.2 r hr hri
    · exact hrp (m.fs.sole r p i hri hi)

end Mounted

end Lib
