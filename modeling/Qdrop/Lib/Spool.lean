import Qdrop.Lib.FileSys

/-!
# A directory that files appear in by renaming

Writers write under hidden names and rename what is finished to a shown one; readers list the shown names, pick a new
one and read it through the inode.  No call of a writer touches an inode that only shown names have (`Sealed`,
`Calm`), so what a reader finds under a name that was free when it listed the directory has been published there since
(`News`), and what it reads through an open file is what was published (`Opened`), even when the name has been
replaced or removed in the meantime.
-/

namespace Lib

namespace FileSys

variable {Path : Type} {shown : Path → Prop} {fs fs' : FileSys Path} {p q : Path} {i : Nat}

/-- No hidden name names the inode, and no new file will get it. -/
def Sealed (shown : Path → Prop) (fs : FileSys Path) (i : Nat) : Prop :=
  i < fs.next ∧ ∀ q, fs.node q = some (.file i) → shown q

/-- The inode stays sealed, with the same bytes. -/
structure Calm (shown : Path → Prop) (fs fs' : FileSys Path) (i : Nat) : Prop where
  sealed : Sealed shown fs' i
  data : fs'.data i = fs.data i

theorem Sealed.calm_refl (h : Sealed shown fs i) : Calm shown fs fs i := ⟨h, rfl⟩

theorem Calm.trans {fs'' : FileSys Path} (h : Calm shown fs fs' i) (h' : Calm shown fs' fs'' i) :
    Calm shown fs fs'' i :=
  ⟨h'.sealed, h'.data.trans h.data⟩

/-- What a shown name names is sealed. -/
theorem sealed_of_shown (hp : shown p) (h : fs.node p = some (.file i)) : Sealed shown fs i :=
  ⟨fs.fresh p i h, fun q hq => fs.sole q p i hq h ▸ hp⟩

/-- A call that gives the inode no other name, makes no inode number free again and leaves its bytes alone. -/
private theorem Sealed.calm_of (hi : Sealed shown fs i) (hnext : fs.next ≤ fs'.next)
    (hnode : ∀ q, fs'.node q = some (.file i) → fs.node q = some (.file i)) (hdata : fs'.data i = fs.data i) :
    Calm shown fs fs' i :=
  ⟨⟨Nat.lt_of_lt_of_le hi.1 hnext, fun q hq => hi.2 q (hnode q hq)⟩, hdata⟩

/-- Writing through the handle of another inode. -/
theorem Sealed.calm_write {h : Handle} (hi : Sealed shown fs i) (hne : i ≠ h.ino) (bytes : List UInt8) :
    Calm shown fs (fs.write h bytes).1 i :=
  hi.calm_of (Nat.le_refl _) (fun _ hq => hq) ((write_spec fs h bytes).2.2 i hne)

variable [DecidableEq Path]

theorem Sealed.calm_createDirAll (hi : Sealed shown fs i) (h : fs.createDirAll p = some fs') :
    Calm shown fs fs' i := by
  obtain ⟨hdir, hother, hdata, -⟩ := createDirAll_spec h
  refine hi.calm_of (Nat.le_of_eq (createDirAll_next h).symm) (fun q hq => ?_) (congrFun hdata i)
  by_cases hqp : q = p
  · subst hqp
    rw [hdir] at hq
    cases hq
  · rwa [hother q hqp] at hq

theorem Sealed.calm_removeFile (hi : Sealed shown fs i) (h : fs.removeFile p = some fs') : Calm shown fs fs' i := by
  obtain ⟨hgone, hother, hdata⟩ := removeFile_spec h
  refine hi.calm_of (Nat.le_of_eq (removeFile_next h).symm) (fun q hq => ?_) (congrFun hdata i)
  by_cases hqp : q = p
  · subst hqp
    rw [hgone] at hq
    cases hq
  · rwa [hother q hqp] at hq

/-- Creating a file under a hidden name. -/
theorem Sealed.calm_create {handle : Handle} (hi : Sealed shown fs i) (hp : ¬ shown p)
    (h : fs.create p = some (fs', handle)) : Calm shown fs fs' i := by
  obtain ⟨hnode, -, -, hother, hdata⟩ := create_spec h
  obtain ⟨hino, hnext⟩ := create_ino h
  have hne : i ≠ handle.ino := by
    rintro rfl
    rcases hino with hold | hnew
    · exact hp (hi.2 p hold)
    · exact absurd hi.1 (Nat.not_lt.2 hnew)
  refine hi.calm_of hnext (fun q hq => ?_) (hdata i hne)
  by_cases hqp : q = p
  · subst hqp
    rw [hnode] at hq
    cases hq
    exact absurd rfl hne
  · rwa [(hother q hqp).1] at hq

/-- Renaming from a hidden name. -/
theorem Sealed.calm_rename (hi : Sealed shown fs i) (hp : ¬ shown p) (h : fs.rename p q = some fs') :
    Calm shown fs fs' i := by
  obtain ⟨⟨j, hj, hq⟩, hgone, hother, hdata⟩ := rename_spec h
  have hne : i ≠ j := fun hij => hp (hi.2 p (hij ▸ hj))
  refine hi.calm_of (Nat.le_of_eq (rename_next h).symm) (fun r hr => ?_) (congrFun hdata i)
  by_cases hrq : r = q
  · subst hrq
    rw [hq] at hr
    cases hr
    exact absurd rfl hne
  · by_cases hrp : r = p
    · subst hrp
      rw [hgone hrq] at hr
      cases hr
    · rwa [hother r hrp hrq] at hr

end FileSys

section Spool

variable {Path : Type} {shown : Path → Prop} {fs fs' : FileSys Path} {p : Path} {i : Nat}
  {Published Published' : Path → List UInt8 → Prop}

/-- What a step of anybody does to the directory, before which `Published` has been published and after which
`Published'` has. -/
structure Spooled (shown : Path → Prop) (Published Published' : Path → List UInt8 → Prop) (fs fs' : FileSys Path) :
    Prop where
  calm : ∀ i, fs.Sealed shown i → FileSys.Calm shown fs fs' i
  new : ∀ p i, shown p → fs'.node p = some (.file i) →
    fs.node p = some (.file i) ∨ Published' p (fs'.data i)
  kept : ∀ p bytes, Published p bytes → Published' p bytes

/-- The file at `p`, if there is one, is as published. -/
def News (Published : Path → List UInt8 → Prop) (fs : FileSys Path) (p : Path) : Prop :=
  ∀ i, fs.node p = some (.file i) → Published p (fs.data i)

/-- The inode was opened at `p`, and holds what was published there. -/
structure Opened (shown : Path → Prop) (Published : Path → List UInt8 → Prop) (fs : FileSys Path) (p : Path)
    (i : Nat) : Prop where
  sealed : fs.Sealed shown i
  published : Published p (fs.data i)

/-- Whatever will be at a free name will have been published there. -/
theorem News.of_absent (h : ∀ i, fs.node p ≠ some (.file i)) : News Published fs p := fun i hi => absurd hi (h i)

theorem News.step (h : News Published fs p) (hs : Spooled shown Published Published' fs fs') (hp : shown p) :
    News Published' fs' p := by
  intro i hi
  rcases hs.new p i hp hi with hold | hnew
  · rw [(hs.calm i (FileSys.sealed_of_shown hp hold)).data]
    exact hs.kept p _ (h i hold)
  · exact hnew

theorem News.opened (h : News Published fs p) (hp : shown p) (hi : fs.node p = some (.file i)) :
    Opened shown Published fs p i :=
  ⟨FileSys.sealed_of_shown hp hi, h i hi⟩

/-- An open file keeps its bytes, whatever happens to the name. -/
theorem Opened.step (h : Opened shown Published fs p i) (hs : Spooled shown Published Published' fs fs') :
    Opened shown Published' fs' p i ∧ fs'.data i = fs.data i := by
  have hcalm := hs.calm i h.sealed
  refine ⟨⟨hcalm.sealed, ?_⟩, hcalm.data⟩
  rw [hcalm.data]
  exact hs.kept p _ h.published

end Spool

end Lib
