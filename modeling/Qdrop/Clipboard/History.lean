import Mathlib.Data.List.Infix
import Qdrop.Control
import Qdrop.FileXfer.Paths

/-!
# The clipboard history on disk (`qdropd/src/history.rs`, `write_atomic` of `qdrop-core/src/paths.rs`)

The entries live in memory and in `index.json`, and the bytes of an image in a numbered file next to it.  The numbers
continue after a restart from the largest one among the entries that are left, so the number of an evicted image may be
used again.  In the source the numbers are `u64`s; here they are not bounded, so the results are about runs in which
fewer than 2^64 images get a number.

The history on disk refines the list of `ClipHistory` (`record_backed`, `restart_backed`), which keeps the bytes of an
image in the entry, and where no two recorded contents have one digest that list is the reference list `ring`
(`clipHistory_ring`).
-/

namespace Qdrop

open Lib

namespace DiskHistory

inductive Body where
  | text (text : String)
  | image (file : String) (w h : UInt32)
deriving DecidableEq, Repr

structure Entry where
  body : Body
  when : UInt64
  origin : String
  /-- Hex SHA-256 of the content, for dedup. -/
  hash : String
deriving DecidableEq, Repr

/-- The file of an image entry. -/
def Entry.file? (e : Entry) : Option String :=
  match e.body with
  | .image file _ _ => some file
  | .text _ => none

end DiskHistory

open DiskHistory

/-- `History`: the entries newest first, and the number of the next image file (below 2^64 in the source). -/
structure DiskHistory where
  dir : PathBuf
  max : Nat
  entries : List Entry
  nextFile : Nat

/-- The hash function, the size of an image, and the JSON of `index.json`. -/
structure HistoryCodec where
  sha256 : Bytes → Digest
  imageSize : Bytes → Option (UInt32 × UInt32)
  toVecPretty : List Entry → Option Bytes
  fromSlice : Bytes → Option (List Entry)

/-- `format!("{b:02x}")` of every byte. -/
def hex (digest : Digest) : String :=
  String.ofList (digest.toList.flatMap fun b => [(b.toNat / 16).digitChar, (b.toNat % 16).digitChar])

/-- `str::strip_suffix`. -/
def stripSuffix (suffix s : List Char) : Option (List Char) :=
  if suffix.isSuffixOf s then some (s.take (s.length - suffix.length)) else none

/-- `str::parse` of a number below 2^64: decimal digits, after a plus sign or without one. -/
def parseNumber (s : List Char) : Option Nat :=
  let digits := match s with
    | '+' :: rest => rest
    | _ => s
  if digits = [] ∨ digits.any (fun c => !c.isDigit) then none else some (Nat.ofDigitChars 10 digits 0)

/-- `format!("{n}.png")`. -/
def pngName (n : Nat) : String := toString n ++ ".png"

/-- The number of an image file. -/
def fileNumber (file : String) : Option Nat := (stripSuffix ".png".toList file.toList).bind parseNumber

def indexName : String := "index.json"

/-- The name of the temp file that `write_atomic` makes next to the index. -/
def indexTmpName (pid : Nat) : String := "." ++ indexName ++ ".tmp-" ++ toString pid

/-- `write_atomic(&dir.join(name), contents)`, with what it leaves behind when a step fails. -/
def writeAtomic (fs : FileSys PathBuf) (dir : PathBuf) (tmp name : String) (contents : Bytes) : FileSys PathBuf :=
  match fs.createDirAll dir with
  | none => fs
  | some fs =>
    match fs.writeFile (join dir tmp) contents with
    | none => fs
    | some fs => (fs.rename (join dir tmp) (join dir name)).getD fs

namespace DiskHistory

variable (codec : HistoryCodec)

/-- What `index.json` decodes to. -/
def indexEntries (fs : FileSys PathBuf) (dir : PathBuf) : Option (List Entry) :=
  (fs.read (join dir indexName)).bind codec.fromSlice

/-- Load the on-disk history, or an empty one. -/
def load (fs : FileSys PathBuf) (dir : PathBuf) (max : Nat) : DiskHistory :=
  let entries := ((indexEntries codec fs dir).getD []).take max
  let next := match (entries.filterMap fun e => e.file?.bind fileNumber).max? with
    | some n => n + 1
    | none => 0
  ⟨dir, max, entries, next⟩

def enabled (h : DiskHistory) : Bool := 0 < h.max

/-- Drop the oldest entry `n` times, with the file of an image. -/
def popBack (dir : PathBuf) : Nat → FileSys PathBuf → List Entry → FileSys PathBuf × List Entry
  | 0, fs, q => (fs, q)
  | n + 1, fs, q =>
    match q.getLast? with
    | none => (fs, q)
    | some old =>
      match old.file? with
      | some file => popBack dir n ((fs.removeFile (join dir file)).getD fs) q.dropLast
      | none => popBack dir n fs q.dropLast

def persist (pid : Nat) (fs : FileSys PathBuf) (dir : PathBuf) (q : List Entry) : FileSys PathBuf :=
  let fs := (fs.createDirAll dir).getD fs
  match codec.toVecPretty q with
  | some bytes => writeAtomic fs dir (indexTmpName pid) indexName bytes
  | none => fs

/-- The newest entry has the hash `hash`. -/
def headHas (h : DiskHistory) (hash : String) : Bool := h.entries.head?.any (·.hash == hash)

def push (pid : Nat) (fs : FileSys PathBuf) (h : DiskHistory) (entry : Entry) : FileSys PathBuf × DiskHistory :=
  if h.headHas entry.hash then (fs, h)
  else
    -- the loop of `push` pops while more than `max` entries are left
    let q := entry :: h.entries
    let popped := popBack h.dir (q.length - h.max) fs q
    (persist codec pid popped.1 h.dir popped.2, { h with entries := popped.2 })

def recordText (pid : Nat) (fs : FileSys PathBuf) (h : DiskHistory) (t origin : String) (now : UInt64) :
    FileSys PathBuf × DiskHistory :=
  if h.enabled = false ∨ t = "" then (fs, h)
  else push codec pid fs h ⟨.text t, now, origin, hex (codec.sha256 (asBytes t))⟩

def recordImage (pid : Nat) (fs : FileSys PathBuf) (h : DiskHistory) (png : Bytes) (origin : String) (now : UInt64) :
    FileSys PathBuf × DiskHistory :=
  if h.enabled = false then (fs, h)
  else
    let contentHash := hex (codec.sha256 png)
    -- cheap dedup before writing a file
    if h.headHas contentHash then (fs, h)
    else
      let size := (codec.imageSize png).getD (0, 0)
      let file := pngName h.nextFile
      let h' := { h with nextFile := h.nextFile + 1 }
      match fs.createDirAll h.dir with
      | none => (fs, h')
      | some fs =>
        match fs.writeFile (join h.dir file) png with
        | none => (fs, h')
        | some fs => push codec pid fs h' ⟨.image file size.1 size.2, now, origin, contentHash⟩

/-- The content of an entry. -/
def Entry.restored (fs : FileSys PathBuf) (dir : PathBuf) (e : Entry) : Option Restored :=
  match e.body with
  | .text t => some (.text t)
  | .image file _ _ => (fs.read (join dir file)).map Restored.image

/-- Fetch entry `index` for restore or send. -/
def get (fs : FileSys PathBuf) (h : DiskHistory) (index : Nat) : Option Restored :=
  (h.entries[index]?).bind (Entry.restored fs h.dir)

end DiskHistory

/-! ### A run of calls and restarts -/

/-- The daemon of the moment and what it has on disk. -/
structure HistoryRun where
  pid : Nat
  disk : FileSys PathBuf
  history : DiskHistory

inductive HistoryCall where
  | recordText (t origin : String) (now : UInt64)
  | recordImage (png : Bytes) (origin : String) (now : UInt64)
  /-- The daemon ends and another one loads the same directory. -/
  | restart (pid : Nat)

namespace HistoryRun

variable (codec : HistoryCodec)

def start (pid : Nat) (fs : FileSys PathBuf) (dir : PathBuf) (max : Nat) : HistoryRun :=
  ⟨pid, fs, DiskHistory.load codec fs dir max⟩

def step (s : HistoryRun) : HistoryCall → HistoryRun
  | .recordText t origin now =>
    let r := DiskHistory.recordText codec s.pid s.disk s.history t origin now
    ⟨s.pid, r.1, r.2⟩
  | .recordImage png origin now =>
    let r := DiskHistory.recordImage codec s.pid s.disk s.history png origin now
    ⟨s.pid, r.1, r.2⟩
  | .restart pid => start codec pid s.disk s.history.dir s.history.max

/-- After the calls `es`. -/
def after (s : HistoryRun) (es : List HistoryCall) : HistoryRun := es.foldl (step codec) s

def get (s : HistoryRun) (index : Nat) : Option Restored := s.history.get s.disk index

end HistoryRun

/-- What the same calls do to the list that keeps its images. -/
def ClipHistory.call (sha256 : Bytes → Digest) (c : ClipHistory) : HistoryCall → ClipHistory
  | .recordText t origin _ => c.recordText sha256 t origin
  | .recordImage png origin _ => c.recordImage sha256 png origin
  | .restart _ => ClipHistory.load c.max c.entries

/-! ### The reference list -/

def Restored.bytes : Restored → Bytes
  | .text t => asBytes t
  | .image png => png

/-- A content and where it came from. -/
structure Recorded where
  body : Restored
  origin : String
deriving DecidableEq, Repr

/-- What a call records: empty texts are ignored. -/
def HistoryCall.recorded? : HistoryCall → Option Recorded
  | .recordText t origin _ => if t = "" then none else some ⟨.text t, origin⟩
  | .recordImage png origin _ => some ⟨.image png, origin⟩
  | .restart _ => none

/-- Push a record to the front, unless its bytes are those of the head, and keep the first `max` elements. -/
def ring (max : Nat) (l : List Recorded) (r : Recorded) : List Recorded :=
  if l.head?.any (fun h => h.body.bytes == r.body.bytes) then l else (r :: l).take max

/-- The reference list after the calls `es`. -/
def reference (max : Nat) (es : List HistoryCall) : List Recorded :=
  (es.filterMap HistoryCall.recorded?).foldl (ring max) []

/-! ### Names -/

private theorem digitChar_inj : ∀ a < 16, ∀ b < 16, a.digitChar = b.digitChar → a = b := by decide

/-- Two hexadecimal digits determine a byte. -/
private theorem hexByte_inj {a b : UInt8} (h : (a.toNat / 16).digitChar = (b.toNat / 16).digitChar)
    (h' : (a.toNat % 16).digitChar = (b.toNat % 16).digitChar) : a = b := by
  have ha := a.toNat_lt
  have hb := b.toNat_lt
  have hq := digitChar_inj _ (by omega) _ (by omega) h
  have hr := digitChar_inj _ (by omega) _ (by omega) h'
  exact UInt8.toNat_inj.1 (by omega)

theorem hex_inj {a b : Digest} (h : hex a = hex b) : a = b := by
  have key : ∀ l l' : List UInt8,
      l.flatMap (fun b => [(b.toNat / 16).digitChar, (b.toNat % 16).digitChar]) =
        l'.flatMap (fun b => [(b.toNat / 16).digitChar, (b.toNat % 16).digitChar]) → l = l' := by
    intro l
    induction l with
    | nil =>
      intro l' hl
      cases l' with
      | nil => rfl
      | cons b l' => simp at hl
    | cons a l ih =>
      intro l' hl
      cases l' with
      | nil => simp at hl
      | cons b l' =>
        simp only [List.flatMap_cons, List.cons_append, List.nil_append, List.cons.injEq] at hl
        obtain ⟨h₁, h₂, hrest⟩ := hl
        rw [hexByte_inj h₁ h₂, ih l' hrest]
  exact Vector.toList_inj.1 (key _ _ (String.ofList_injective h))

private theorem pngName_toList (n : Nat) : (pngName n).toList = (toString n).toList ++ ".png".toList := by
  simp [pngName, String.toList_append]

theorem pngName_inj {n m : Nat} (h : pngName n = pngName m) : n = m := by
  have h' := congrArg String.toList h
  rw [pngName_toList, pngName_toList] at h'
  exact toString_inj (List.append_cancel_right h')

/-- A number is parsed from the name it was written to. -/
theorem parseNumber_toString (n : Nat) : parseNumber (toString n).toList = some n := by
  have hplus : '+' ∉ (toString n).toList := not_mem_toString (by decide) n
  unfold parseNumber
  have hdigits : (match (toString n).toList with
      | '+' :: rest => rest
      | _ => (toString n).toList) = (toString n).toList := by
    split
    · rename_i rest heq
      rw [heq] at hplus
      simp at hplus
    · rfl
  rw [hdigits, Nat.toString_eq_repr, Nat.toList_repr, if_neg, Nat.ofDigitChars_ten_toDigits]
  rintro (hnil | hany)
  · exact Nat.toDigits_ne_nil hnil
  · obtain ⟨c, hc, hdigit⟩ := List.any_eq_true.1 hany
    rw [Nat.isDigit_of_mem_toDigits (by decide) (by decide) hc] at hdigit
    cases hdigit

theorem fileNumber_pngName (n : Nat) : fileNumber (pngName n) = some n := by
  have hstrip : stripSuffix ".png".toList (pngName n).toList = some (toString n).toList := by
    rw [pngName_toList, stripSuffix, if_pos (List.isSuffixOf_iff_suffix.2 (List.suffix_append ..)), List.length_append,
      Nat.add_sub_cancel, List.take_left]
  rw [fileNumber, hstrip]
  exact parseNumber_toString n

private theorem bare_of_mem {name : String} {c : Char} (hc : c ∈ name.toList) (hdot : c ≠ '.')
    (hslash : '/' ∉ name.toList) : Bare name := by
  refine ⟨?_, ?_, ?_, hslash⟩ <;> rintro rfl <;> simp [hdot] at hc

private theorem parseNumber_chars {s : List Char} {n : Nat} (h : parseNumber s = some n) :
    ∀ c ∈ s, c.isDigit = true ∨ c = '+' := by
  intro c hc
  simp only [parseNumber] at h
  generalize hd : (match s with
    | '+' :: rest => rest
    | _ => s) = digits at h
  by_cases hbad : digits = [] ∨ digits.any (fun c => !c.isDigit)
  · rw [if_pos hbad] at h
    cases h
  have hdigit : ∀ c ∈ digits, c.isDigit = true := by
    intro c hc
    by_contra hno
    exact hbad (Or.inr (List.any_eq_true.2 ⟨c, hc, by simpa using hno⟩))
  split at hd
  · subst hd
    rcases List.mem_cons.1 hc with rfl | hc
    · exact Or.inr rfl
    · exact Or.inl (hdigit c hc)
  · subst hd
    exact Or.inl (hdigit c hc)

/-- What the name of a file with a number is made of. -/
private theorem fileNumber_chars {name : String} (h : (fileNumber name).isSome) :
    ".png".toList <:+ name.toList ∧ ∀ c ∈ name.toList, c.isDigit = true ∨ c ∈ "+.png".toList := by
  obtain ⟨n, hn⟩ := Option.isSome_iff_exists.1 h
  obtain ⟨stem, hstrip, hparse⟩ := Option.bind_eq_some_iff.1 hn
  unfold stripSuffix at hstrip
  split at hstrip
  · rename_i hsuffix
    rw [List.isSuffixOf_iff_suffix] at hsuffix
    refine ⟨hsuffix, fun c hc => ?_⟩
    obtain ⟨front, hfront⟩ := hsuffix
    have hstem : stem = front := by
      rw [← Option.some.inj hstrip, ← hfront, List.length_append, Nat.add_sub_cancel, List.take_left]
    rw [← hfront, List.mem_append] at hc
    rcases hc with hc | hc
    · subst hstem
      rcases parseNumber_chars hparse c hc with hdigit | rfl
      · exact Or.inl hdigit
      · exact Or.inr (by decide)
    · exact Or.inr (List.mem_of_mem_tail hc)
  · cases hstrip

theorem fileNumber_bare {name : String} (h : (fileNumber name).isSome) : Bare name := by
  obtain ⟨hsuffix, hchars⟩ := fileNumber_chars h
  refine bare_of_mem (c := 'p') (hsuffix.subset (by decide)) (by decide) fun hslash => ?_
  rcases hchars _ hslash with hdigit | hmem
  · exact absurd hdigit (by decide)
  · exact absurd hmem (by decide)

theorem pngName_bare (n : Nat) : Bare (pngName n) := fileNumber_bare (by rw [fileNumber_pngName]; rfl)

theorem indexName_bare : Bare indexName := bare_of_mem (c := 'i') (by decide) (by decide) (by decide)

private theorem indexTmpName_toList (pid : Nat) :
    (indexTmpName pid).toList = ".index.json.tmp-".toList ++ (toString pid).toList := by
  simp [indexTmpName, indexName, String.toList_append]

theorem indexTmpName_bare (pid : Nat) : Bare (indexTmpName pid) := by
  refine bare_of_mem (c := 'i') ?_ (by decide) fun h => ?_
  · rw [indexTmpName_toList]
    exact List.mem_append_left _ (by decide)
  · rw [indexTmpName_toList, List.mem_append] at h
    rcases h with h | h
    · exact absurd h (by decide)
    · exact not_mem_toString (by decide) pid h

theorem indexTmpName_ne (pid : Nat) : indexTmpName pid ≠ indexName := by
  intro h
  have hmem : '-' ∈ (indexTmpName pid).toList := by
    rw [indexTmpName_toList]
    exact List.mem_append_left _ (by decide)
  rw [h] at hmem
  exact absurd hmem (by decide)

/-- No file with a number has the name of the index or of its temp file. -/
theorem fileNumber_ne {name : String} (h : (fileNumber name).isSome) (pid : Nat) :
    name ≠ indexName ∧ name ≠ indexTmpName pid := by
  obtain ⟨-, hchars⟩ := fileNumber_chars h
  have hi : 'i' ∉ name.toList := by
    intro hmem
    rcases hchars _ hmem with hdigit | hmem
    · exact absurd hdigit (by decide)
    · exact absurd hmem (by decide)
  constructor
  · rintro rfl
    exact hi (by decide)
  · rintro rfl
    rw [indexTmpName_toList] at hi
    exact hi (List.mem_append_left _ (by decide))

theorem pngName_ne (n pid : Nat) : pngName n ≠ indexName ∧ pngName n ≠ indexTmpName pid :=
  fileNumber_ne (by rw [fileNumber_pngName]; rfl) pid

/-! ### What is written to the directory -/

/-- Files can be written in `dir`: it is not a file, and no name in it is a directory. -/
def Ready (fs : FileSys PathBuf) (dir : PathBuf) : Prop :=
  (∀ i, fs.node dir ≠ some (.file i)) ∧ ∀ name, Bare name → fs.node (join dir name) ≠ some .dir

/-- Only the files `names` in `dir` are changed. -/
def KeptBut (fs fs' : FileSys PathBuf) (dir : PathBuf) (names : List String) : Prop :=
  ∀ name, Bare name → name ∉ names → FileSys.Keeps fs fs' (join dir name)

section Disk

variable {fs fs' fs'' : FileSys PathBuf} {dir : PathBuf} {names names' : List String}

private theorem Bare.join_ne_dir {name : String} (h : Bare name) : join dir name ≠ dir :=
  join_ne_self h.2.2.2 h.1

private theorem Bare.join_ne {a b : String} (ha : Bare a) (hb : Bare b) (h : a ≠ b) : join dir a ≠ join dir b :=
  fun e => h (join_inj ha.2.2.2 hb.2.2.2 e)

theorem KeptBut.trans (h : KeptBut fs fs' dir names) (h' : KeptBut fs' fs'' dir names') :
    KeptBut fs fs'' dir (names ++ names') := by
  intro name hname hmem
  rw [List.mem_append, not_or] at hmem
  exact (h name hname hmem.1).trans (h' name hname hmem.2)

/-- What stays ready: the directory is kept, and a name that changed is no directory. -/
private theorem Ready.of_keptBut (h : Ready fs dir) (hdir : ∀ i, fs'.node dir ≠ some (.file i))
    (hkept : KeptBut fs fs' dir names) (hnames : ∀ name ∈ names, fs'.node (join dir name) ≠ some .dir) :
    Ready fs' dir := by
  refine ⟨hdir, fun name hname => ?_⟩
  by_cases hmem : name ∈ names
  · exact hnames name hmem
  · rw [(hkept name hname hmem).1]
    exact h.2 name hname

theorem createDirAll_ready (h : Ready fs dir) :
    ∃ fs', fs.createDirAll dir = some fs' ∧ Ready fs' dir ∧ KeptBut fs fs' dir [] := by
  obtain ⟨fs', hc⟩ := FileSys.createDirAll_some h.1
  have hkept : KeptBut fs fs' dir [] := fun name hname _ => FileSys.createDirAll_keeps hc hname.join_ne_dir
  refine ⟨fs', hc, h.of_keptBut ?_ hkept (by simp), hkept⟩
  rw [(FileSys.createDirAll_spec hc).1]
  intro i hi
  cases hi

theorem writeFile_ready (h : Ready fs dir) {name : String} (hname : Bare name) (bytes : Bytes) :
    ∃ fs', fs.writeFile (join dir name) bytes = some fs' ∧ Ready fs' dir ∧
      fs'.read (join dir name) = some bytes ∧ KeptBut fs fs' dir [name] := by
  obtain ⟨fs', hw⟩ := FileSys.writeFile_some (h.2 name hname) bytes
  obtain ⟨hread, hother⟩ := FileSys.writeFile_spec hw
  have hkept : KeptBut fs fs' dir [name] := fun n hn hmem =>
    hother _ (hn.join_ne hname (List.ne_of_not_mem_cons hmem))
  refine ⟨fs', hw, h.of_keptBut ?_ hkept ?_, hread, hkept⟩
  · rw [(hother dir hname.join_ne_dir.symm).1]
    exact h.1
  · intro n hn
    obtain rfl := List.mem_singleton.1 hn
    obtain ⟨i, hi⟩ := FileSys.read_eq_some hread
    rw [hi]
    exact fun he => by cases he

theorem removeFile_ready (h : Ready fs dir) {name : String} (hname : Bare name) :
    Ready ((fs.removeFile (join dir name)).getD fs) dir ∧
      KeptBut fs ((fs.removeFile (join dir name)).getD fs) dir [name] := by
  cases hr : fs.removeFile (join dir name) with
  | none => exact ⟨h, fun n _ _ => FileSys.Keeps.refl fs (join dir n)⟩
  | some fs' =>
    have hkept : KeptBut fs fs' dir [name] := fun n hn hmem =>
      FileSys.removeFile_keeps hr (hn.join_ne hname (List.ne_of_not_mem_cons hmem))
    rw [Option.getD_some]
    refine ⟨h.of_keptBut ?_ hkept ?_, hkept⟩
    · rw [(FileSys.removeFile_keeps hr hname.join_ne_dir.symm).1]
      exact h.1
    · intro n hn
      obtain rfl := List.mem_singleton.1 hn
      rw [(FileSys.removeFile_spec hr).1]
      exact fun he => by cases he

/-- An atomic write leaves the new contents, and no temp file. -/
theorem writeAtomic_ready (h : Ready fs dir) {tmp name : String} (htmp : Bare tmp) (hname : Bare name)
    (hne : tmp ≠ name) (contents : Bytes) :
    Ready (writeAtomic fs dir tmp name contents) dir ∧
      (writeAtomic fs dir tmp name contents).read (join dir name) = some contents ∧
      KeptBut fs (writeAtomic fs dir tmp name contents) dir [tmp, name] := by
  obtain ⟨fs₁, hc, hready₁, hkept₁⟩ := createDirAll_ready h
  obtain ⟨fs₂, hw, hready₂, hread₂, hkept₂⟩ := writeFile_ready hready₁ htmp contents
  obtain ⟨i, hi⟩ := FileSys.read_eq_some hread₂
  obtain ⟨fs₃, hr⟩ := FileSys.rename_of_not_dir hi (hready₂.2 name hname)
  obtain ⟨hread₃, hother⟩ := FileSys.rename_keeps hr
  have hpaths : join dir tmp ≠ join dir name := htmp.join_ne hname hne
  obtain ⟨⟨j, -, hj⟩, hgone, -, -⟩ := FileSys.rename_spec hr
  have heq : writeAtomic fs dir tmp name contents = fs₃ := by simp [writeAtomic, hc, hw, hr]
  rw [heq]
  have hkept₃ : KeptBut fs₂ fs₃ dir [tmp, name] := by
    intro n hn hmem
    simp only [List.mem_cons, List.not_mem_nil, or_false, not_or] at hmem
    exact hother _ (hn.join_ne htmp hmem.1) (hn.join_ne hname hmem.2)
  refine ⟨hready₂.of_keptBut ?_ hkept₃ ?_, hread₃.trans hread₂, ?_⟩
  · rw [(hother dir htmp.join_ne_dir.symm hname.join_ne_dir.symm).1]
    exact hready₂.1
  · intro n hn
    simp only [List.mem_cons, List.not_mem_nil, or_false] at hn
    rcases hn with rfl | rfl
    · rw [hgone hpaths]
      exact fun he => by cases he
    · rw [hj]
      exact fun he => by cases he
  · intro n hn hmem
    have hmem' : n ∉ [tmp] := fun h' => hmem (List.mem_cons.2 (Or.inl (List.mem_singleton.1 h')))
    exact ((hkept₁ n hn (List.not_mem_nil)).trans (hkept₂ n hn hmem')).trans (hkept₃ n hn hmem)

/-- Popping drops the last entries, and of the files only theirs. -/
private theorem popBack_spec (n : Nat) {q : List Entry} (h : Ready fs dir)
    (hbare : ∀ e ∈ q, ∀ file, e.file? = some file → Bare file) :
    (popBack dir n fs q).2 = q.take (q.length - n) ∧ Ready (popBack dir n fs q).1 dir ∧
      KeptBut fs (popBack dir n fs q).1 dir ((q.drop (q.length - n)).filterMap Entry.file?) := by
  induction n generalizing fs q with
  | zero =>
    refine ⟨by simp [popBack], h, fun name _ _ => FileSys.Keeps.refl fs _⟩
  | succ n ih =>
    cases q using List.reverseRecOn with
    | nil => exact ⟨by simp [popBack], h, fun name _ _ => FileSys.Keeps.refl fs _⟩
    | append_singleton q old =>
      have hbare' : ∀ e ∈ q, ∀ file, e.file? = some file → Bare file := fun e he =>
        hbare e (List.mem_append_left _ he)
      have hlen : (q ++ [old]).length - (n + 1) = q.length - n := by simp
      have hle : q.length - n ≤ q.length := Nat.sub_le ..
      rw [hlen, List.take_append_of_le_length hle, List.drop_append_of_le_length hle, List.filterMap_append]
      cases hf : old.file? with
      | none =>
        obtain ⟨hq, hready, hkept⟩ := ih h hbare'
        have heq : popBack dir (n + 1) fs (q ++ [old]) = popBack dir n fs q := by simp [popBack, hf]
        rw [heq]
        refine ⟨hq, hready, fun name hname hmem => hkept name hname fun hin => ?_⟩
        exact hmem (List.mem_append_left _ hin)
      | some file =>
        have hfile : Bare file := hbare old (by simp) file hf
        obtain ⟨hready₁, hkept₁⟩ := removeFile_ready h hfile
        obtain ⟨hq, hready, hkept⟩ := ih hready₁ hbare'
        have heq : popBack dir (n + 1) fs (q ++ [old]) =
            popBack dir n ((fs.removeFile (join dir file)).getD fs) q := by simp [popBack, hf]
        rw [heq]
        refine ⟨hq, hready, fun name hname hmem => ?_⟩
        have hlast : [old].filterMap Entry.file? = [file] := by simp [hf]
        rw [List.mem_append, not_or, hlast] at hmem
        exact (hkept₁ name hname hmem.2).trans (hkept name hname hmem.1)

private theorem removeFile_read (fs : FileSys PathBuf) (p q : PathBuf) (h : q = p ∨ fs.read q = none) :
    ((fs.removeFile p).getD fs).read q = none := by
  cases hr : fs.removeFile p with
  | none =>
    rw [Option.getD_none]
    rcases h with rfl | h
    · unfold FileSys.read
      split
      · rename_i i hi
        exact absurd hi (FileSys.removeFile_none hr i)
      · rfl
    · exact h
  | some fs' =>
    rw [Option.getD_some]
    by_cases hq : q = p
    · rw [hq, FileSys.read, (FileSys.removeFile_spec hr).1]
    · rw [(FileSys.removeFile_keeps hr hq).read]
      exact h.resolve_left hq

/-- What was absent stays absent. -/
private theorem popBack_absent (n : Nat) {q : List Entry} {p : PathBuf} (h : fs.read p = none) :
    (popBack dir n fs q).1.read p = none := by
  induction n generalizing fs q with
  | zero => exact h
  | succ n ih =>
    rw [popBack]
    split
    · exact h
    · split
      · exact ih (removeFile_read fs _ p (Or.inr h))
      · exact ih h

/-- The files of the dropped entries are gone. -/
private theorem popBack_gone (n : Nat) {q : List Entry} {name : String}
    (hname : name ∈ (q.drop (q.length - n)).filterMap Entry.file?) :
    (popBack dir n fs q).1.read (join dir name) = none := by
  induction n generalizing fs q with
  | zero => simp at hname
  | succ n ih =>
    cases q using List.reverseRecOn with
    | nil => simp at hname
    | append_singleton q old =>
      have hlen : (q ++ [old]).length - (n + 1) = q.length - n := by simp
      rw [hlen, List.drop_append_of_le_length (Nat.sub_le ..), List.filterMap_append, List.mem_append] at hname
      cases hf : old.file? with
      | none =>
        have heq : popBack dir (n + 1) fs (q ++ [old]) = popBack dir n fs q := by simp [popBack, hf]
        rw [heq]
        exact ih (hname.resolve_right (by simp [hf]))
      | some file =>
        have heq : popBack dir (n + 1) fs (q ++ [old]) =
            popBack dir n ((fs.removeFile (join dir file)).getD fs) q := by simp [popBack, hf]
        rw [heq]
        rcases hname with hname | hname
        · exact ih hname
        · obtain rfl : name = file := by simpa [hf] using hname
          exact popBack_absent n (removeFile_read fs _ _ (Or.inl rfl))

theorem popBack_max_gone (max : Nat) {q : List Entry} {name : String}
    (hname : name ∈ (q.drop max).filterMap Entry.file?) :
    (popBack dir (q.length - max) fs q).1.read (join dir name) = none := by
  by_cases hmax : q.length ≤ max
  · rw [List.drop_of_length_le hmax] at hname
    cases hname
  · exact popBack_gone (q.length - max) (by rwa [show q.length - (q.length - max) = max by omega])

/-- The loop of `push` leaves the first `max` entries. -/
theorem popBack_max (max : Nat) {q : List Entry} (h : Ready fs dir)
    (hbare : ∀ e ∈ q, ∀ file, e.file? = some file → Bare file) :
    (popBack dir (q.length - max) fs q).2 = q.take max ∧ Ready (popBack dir (q.length - max) fs q).1 dir ∧
      KeptBut fs (popBack dir (q.length - max) fs q).1 dir ((q.drop max).filterMap Entry.file?) := by
  have hspec := popBack_spec (q.length - max) h hbare
  by_cases hmax : q.length ≤ max
  · rw [show q.length - (q.length - max) = q.length by omega] at hspec
    rw [List.take_of_length_le hmax, List.drop_of_length_le hmax]
    rw [List.take_length, List.drop_length] at hspec
    exact hspec
  · rw [show q.length - (q.length - max) = max by omega] at hspec
    exact hspec

end Disk

/-! ### The disk refines the list -/

/-- The disk entry `e` shows the list entry `he`. -/
structure DiskHistory.Entry.Shows (fs : FileSys PathBuf) (dir : PathBuf) (e : Entry) (he : HistoryEntry) : Prop where
  body : e.restored fs dir = some he.body
  origin : e.origin = he.origin
  hash : e.hash = hex he.hash

/-- The JSON of a list of entries decodes to the list. -/
def HistoryCodec.RoundTrips (codec : HistoryCodec) (q : List Entry) : Prop :=
  (codec.toVecPretty q).bind codec.fromSlice = some q

instance (codec : HistoryCodec) (q : List Entry) : Decidable (codec.RoundTrips q) :=
  inferInstanceAs (Decidable (_ = _))

/-- A persisted list is what `index.json` decodes to. -/
theorem persist_ready {codec : HistoryCodec} {fs : FileSys PathBuf} {dir : PathBuf} {q : List Entry} (pid : Nat)
    (h : Ready fs dir) (hjson : codec.RoundTrips q) :
    Ready (persist codec pid fs dir q) dir ∧ indexEntries codec (persist codec pid fs dir q) dir = some q ∧
      KeptBut fs (persist codec pid fs dir q) dir [indexTmpName pid, indexName] := by
  obtain ⟨fs', hc, hready, hkept⟩ := createDirAll_ready h
  obtain ⟨bytes, hto, hfrom⟩ := Option.bind_eq_some_iff.1 hjson
  have heq : persist codec pid fs dir q = writeAtomic fs' dir (indexTmpName pid) indexName bytes := by
    simp only [persist, hc, Option.getD_some, hto]
  rw [heq]
  obtain ⟨hready', hread, hkept'⟩ :=
    writeAtomic_ready hready (indexTmpName_bare pid) indexName_bare (indexTmpName_ne pid) bytes
  refine ⟨hready', ?_, hkept.trans hkept'⟩
  rw [indexEntries, hread]
  exact hfrom

/-- What `push` of a content that is not the newest one does: of the files with a number those of the dropped entries
go, and the others stay. -/
theorem push_spec {codec : HistoryCodec} {fs : FileSys PathBuf} {h : DiskHistory} {e : Entry} (pid : Nat)
    (hready : Ready fs h.dir) (hbare : ∀ e' ∈ e :: h.entries, ∀ file, e'.file? = some file → Bare file)
    (hdup : h.headHas e.hash = false) (hjson : codec.RoundTrips (push codec pid fs h e).2.entries) :
    (push codec pid fs h e).2 = { h with entries := (e :: h.entries).take h.max } ∧
      Ready (push codec pid fs h e).1 h.dir ∧
      indexEntries codec (push codec pid fs h e).1 h.dir = some ((e :: h.entries).take h.max) ∧
      ∀ name, (fileNumber name).isSome →
        if name ∈ ((e :: h.entries).drop h.max).filterMap Entry.file? then
          (push codec pid fs h e).1.read (join h.dir name) = none
        else FileSys.Keeps fs (push codec pid fs h e).1 (join h.dir name) := by
  obtain ⟨hq, hready₁, hkept₁⟩ := popBack_max h.max hready hbare
  have hgone : ∀ name ∈ ((e :: h.entries).drop h.max).filterMap Entry.file?,
      (popBack h.dir ((e :: h.entries).length - h.max) fs (e :: h.entries)).1.read (join h.dir name) = none :=
    fun name => popBack_max_gone h.max
  generalize hpopped : popBack h.dir ((e :: h.entries).length - h.max) fs (e :: h.entries) = popped
    at hq hready₁ hkept₁ hgone
  obtain ⟨fs₁, q₁⟩ := popped
  dsimp only at hq hready₁ hkept₁ hgone
  subst hq
  have hpush : push codec pid fs h e =
      (persist codec pid fs₁ h.dir ((e :: h.entries).take h.max),
        { h with entries := (e :: h.entries).take h.max }) := by
    rw [push, hdup, if_neg Bool.false_ne_true]
    dsimp only
    rw [hpopped]
  rw [hpush] at hjson ⊢
  obtain ⟨hready₂, hindex, hkept₂⟩ := persist_ready pid hready₁ hjson
  refine ⟨rfl, hready₂, hindex, fun name hname => ?_⟩
  have hpersist : FileSys.Keeps fs₁ (persist codec pid fs₁ h.dir ((e :: h.entries).take h.max)) (join h.dir name) :=
    hkept₂ name (fileNumber_bare hname) (by simp [fileNumber_ne hname pid])
  split
  · rename_i hdropped
    rw [hpersist.read]
    exact hgone name hdropped
  · rename_i hleft
    exact (hkept₁ name (fileNumber_bare hname) hleft).trans hpersist

/-- The disk and the memory of the daemon hold the list `c`. -/
structure Backed (codec : HistoryCodec) (s : HistoryRun) (c : ClipHistory) : Prop where
  max_eq : s.history.max = c.max
  ready : Ready s.disk s.history.dir
  length_le : s.history.entries.length ≤ s.history.max
  shows : List.Forall₂ (Entry.Shows s.disk s.history.dir) s.history.entries c.entries
  /-- Image files carry numbers that were used. -/
  numbered : ∀ e ∈ s.history.entries, ∀ file, e.file? = some file → ∃ n < s.history.nextFile, file = pngName n
  /-- No two entries have one file. -/
  distinct : (s.history.entries.filterMap Entry.file?).Nodup
  index : (s.history.entries = [] ∧ indexEntries codec s.disk s.history.dir = none) ∨
    indexEntries codec s.disk s.history.dir = some s.history.entries

namespace Backed

variable {codec : HistoryCodec} {s : HistoryRun} {c : ClipHistory}

private theorem restored_of_keeps {fs fs' : FileSys PathBuf} {dir : PathBuf} {e : Entry}
    (h : ∀ file, e.file? = some file → FileSys.Keeps fs fs' (join dir file)) :
    e.restored fs' dir = e.restored fs dir := by
  cases hb : e.body with
  | text t => simp only [Entry.restored, hb]
  | image file w hgt =>
    have hkeeps := h file (by simp only [Entry.file?, hb])
    simp only [Entry.restored, hb, hkeeps.read]

/-- Entries show the same where their files are kept. -/
private theorem shows_of_keeps {fs fs' : FileSys PathBuf} {dir : PathBuf} {q : List Entry} {l : List HistoryEntry}
    (h : List.Forall₂ (Entry.Shows fs dir) q l)
    (hkeeps : ∀ e ∈ q, ∀ file, e.file? = some file → FileSys.Keeps fs fs' (join dir file)) :
    List.Forall₂ (Entry.Shows fs' dir) q l := by
  induction h with
  | nil => exact List.Forall₂.nil
  | @cons e he q l hshows _ ih =>
    refine List.Forall₂.cons ⟨?_, hshows.origin, hshows.hash⟩ (ih fun e' he' => hkeeps e' (List.mem_cons_of_mem _ he'))
    rw [restored_of_keeps (hkeeps e (List.mem_cons_self ..))]
    exact hshows.body

private theorem indexEntries_of_keeps {fs fs' : FileSys PathBuf} {dir : PathBuf}
    (h : FileSys.Keeps fs fs' (join dir indexName)) : indexEntries codec fs' dir = indexEntries codec fs dir := by
  rw [indexEntries, indexEntries, h.read]

/-- The bytes of a new image are written before its entry is made. -/
theorem image_written (h : Backed codec s c) {fs : FileSys PathBuf} (hready : Ready fs s.history.dir)
    (hkept : KeptBut s.disk fs s.history.dir [pngName s.history.nextFile]) :
    Backed codec ⟨s.pid, fs, { s.history with nextFile := s.history.nextFile + 1 }⟩ c where
  max_eq := h.max_eq
  ready := hready
  length_le := h.length_le
  shows := by
    refine shows_of_keeps h.shows fun e he file hf => ?_
    obtain ⟨n, hn, rfl⟩ := h.numbered e he file hf
    refine hkept _ (pngName_bare n) fun hmem => ?_
    have heq := pngName_inj (List.mem_singleton.1 hmem)
    omega
  numbered := by
    intro e he file hf
    obtain ⟨n, hn, rfl⟩ := h.numbered e he file hf
    exact ⟨n, Nat.lt_succ_of_lt hn, rfl⟩
  distinct := h.distinct
  index := by
    have hkeeps : FileSys.Keeps s.disk fs (join s.history.dir indexName) :=
      hkept _ indexName_bare fun hmem =>
        (pngName_ne s.history.nextFile s.pid).1 (List.mem_singleton.1 hmem).symm
    dsimp only
    rw [indexEntries_of_keeps hkeeps]
    exact h.index

private theorem head_hash_eq {fs : FileSys PathBuf} {dir : PathBuf} {q : List Entry} {l : List HistoryEntry}
    (h : List.Forall₂ (Entry.Shows fs dir) q l) (d : Digest) :
    q.head?.any (·.hash == hex d) = l.head?.any (·.hash == d) := by
  cases h with
  | nil => rfl
  | @cons e he q l hshows _ =>
    simp only [List.head?_cons, Option.any_some, hshows.hash]
    by_cases hd : he.hash = d
    · rw [hd, beq_self_eq_true, beq_self_eq_true]
    · have hhex : hex he.hash ≠ hex d := fun hh => hd (hex_inj hh)
      rw [beq_eq_false_iff_ne.2 hd, beq_eq_false_iff_ne.2 hhex]

/-- The newest entry has a hash on disk when it has it in the list. -/
theorem headHas_eq (h : Backed codec s c) (d : Digest) :
    s.history.headHas (hex d) = c.entries.head?.any (·.hash == d) := head_hash_eq h.shows d

/-- `push` on disk is `push` of the list. -/
theorem push_backed (h : Backed codec s c) {e : Entry} {he : HistoryEntry}
    (hshows : e.Shows s.disk s.history.dir he)
    (hnumber : ∀ file, e.file? = some file → ∃ n < s.history.nextFile, file = pngName n)
    (hnew : ∀ file, e.file? = some file → file ∉ s.history.entries.filterMap Entry.file?)
    (hjson : codec.RoundTrips (push codec s.pid s.disk s.history e).2.entries) :
    Backed codec ⟨s.pid, (push codec s.pid s.disk s.history e).1, (push codec s.pid s.disk s.history e).2⟩
      (c.push he) := by
  have hhead : s.history.headHas e.hash = c.entries.head?.any (·.hash == he.hash) := by
    rw [hshows.hash]
    exact h.headHas_eq he.hash
  by_cases hdup : s.history.headHas e.hash = true
  · have hpush : push codec s.pid s.disk s.history e = (s.disk, s.history) := by rw [push, if_pos hdup]
    have hlist : c.push he = c := by rw [ClipHistory.push, if_pos (by rw [← hhead]; exact hdup)]
    rw [hpush, hlist]
    exact h
  have hlist : c.push he = ⟨c.max, (he :: c.entries).take c.max⟩ := by
    rw [ClipHistory.push, if_neg (by rw [← hhead]; exact hdup)]
  have hnumbered : ∀ e' ∈ e :: s.history.entries, ∀ file, e'.file? = some file →
      ∃ n < s.history.nextFile, file = pngName n := by
    intro e' he' file hf
    rcases List.mem_cons.1 he' with rfl | he'
    · exact hnumber file hf
    · exact h.numbered e' he' file hf
  have hbare : ∀ e' ∈ e :: s.history.entries, ∀ file, e'.file? = some file → Bare file := by
    intro e' he' file hf
    obtain ⟨n, -, rfl⟩ := hnumbered e' he' file hf
    exact pngName_bare n
  obtain ⟨hentries, hready, hindex, hfiles⟩ := push_spec s.pid h.ready hbare (Bool.eq_false_iff.2 hdup) hjson
  rw [hlist, hentries]
  -- the files of the entries that are left were not removed
  have hdistinct : ((e :: s.history.entries).filterMap Entry.file?).Nodup := by
    cases hf : e.file? with
    | none =>
      rw [List.filterMap_cons_none hf]
      exact h.distinct
    | some file =>
      rw [List.filterMap_cons_some hf, List.nodup_cons]
      exact ⟨hnew file hf, h.distinct⟩
  have hsplit := List.take_append_drop s.history.max (e :: s.history.entries)
  rw [← hsplit, List.filterMap_append, List.nodup_append] at hdistinct
  obtain ⟨hleft, -, hdisjoint⟩ := hdistinct
  exact {
    max_eq := h.max_eq
    ready := hready
    length_le := by
      dsimp only
      rw [List.length_take]
      exact Nat.min_le_left ..
    shows := by
      dsimp only
      rw [← h.max_eq]
      refine shows_of_keeps (List.forall₂_take _ (List.Forall₂.cons hshows h.shows)) fun e' he' file hf => ?_
      have hmem := List.mem_filterMap.2 ⟨e', he', hf⟩
      obtain ⟨n, -, rfl⟩ := hnumbered e' (List.mem_of_mem_take he') file hf
      have hkept := hfiles (pngName n) (by rw [fileNumber_pngName]; rfl)
      rwa [if_neg fun hin => hdisjoint _ hmem _ hin rfl] at hkept
    numbered := fun e' he' => hnumbered e' (List.mem_of_mem_take he')
    distinct := hleft
    index := Or.inr hindex }

theorem text_backed (h : Backed codec s c) (t origin : String) (now : UInt64)
    (hjson : codec.RoundTrips (s.step codec (.recordText t origin now)).history.entries) :
    Backed codec (s.step codec (.recordText t origin now)) (c.recordText codec.sha256 t origin) := by
  simp only [HistoryRun.step] at hjson ⊢
  have henabled : s.history.enabled = c.enabled := by rw [enabled, ClipHistory.enabled, h.max_eq]
  by_cases hskip : s.history.enabled = false ∨ t = ""
  · rw [DiskHistory.recordText, if_pos hskip, ClipHistory.recordText, if_pos (henabled ▸ hskip)]
    exact h
  · rw [DiskHistory.recordText, if_neg hskip] at hjson ⊢
    rw [ClipHistory.recordText, if_neg (henabled ▸ hskip)]
    exact h.push_backed ⟨rfl, rfl, rfl⟩ (fun file hf => by cases hf) (fun file hf => by cases hf) hjson

theorem image_backed (h : Backed codec s c) (png : Bytes) (origin : String) (now : UInt64)
    (hjson : codec.RoundTrips (s.step codec (.recordImage png origin now)).history.entries) :
    Backed codec (s.step codec (.recordImage png origin now)) (c.recordImage codec.sha256 png origin) := by
  simp only [HistoryRun.step] at hjson ⊢
  have henabled : s.history.enabled = c.enabled := by rw [enabled, ClipHistory.enabled, h.max_eq]
  by_cases hskip : s.history.enabled = false
  · rw [DiskHistory.recordImage, if_pos hskip, ClipHistory.recordImage, if_pos (henabled ▸ hskip)]
    exact h
  have hlist : c.recordImage codec.sha256 png origin = c.push ⟨.image png, origin, codec.sha256 png⟩ := by
    rw [ClipHistory.recordImage, if_neg (henabled ▸ hskip)]
  rw [DiskHistory.recordImage, if_neg hskip] at hjson ⊢
  rw [hlist]
  dsimp only at hjson ⊢
  by_cases hdup : s.history.headHas (hex (codec.sha256 png)) = true
  · rw [if_pos hdup, ClipHistory.push, if_pos (by rw [← h.headHas_eq]; exact hdup)]
    exact h
  obtain ⟨fs₁, hc, hready₁, hkept₁⟩ := createDirAll_ready h.ready
  obtain ⟨fs₂, hw, hready₂, hread, hkept₂⟩ := writeFile_ready hready₁ (pngName_bare s.history.nextFile) png
  have hwritten := h.image_written hready₂ (hkept₁.trans hkept₂)
  rw [if_neg hdup] at hjson ⊢
  simp only [hc, hw] at hjson ⊢
  refine hwritten.push_backed ⟨?_, rfl, rfl⟩ ?_ ?_ hjson
  · simp only [Entry.restored, hread, Option.map_some]
  · rintro file ⟨⟩
    exact ⟨s.history.nextFile, Nat.lt_succ_self _, rfl⟩
  · rintro file ⟨⟩ hmem
    obtain ⟨e, he, hf⟩ := List.mem_filterMap.1 hmem
    obtain ⟨n, hn, heq⟩ := h.numbered e he _ hf
    have := pngName_inj heq
    omega

/-- The entries after a restart are those before it, and their files have numbers below the next one. -/
theorem restart_backed (h : Backed codec s c) (pid : Nat) :
    Backed codec (s.step codec (.restart pid)) (ClipHistory.load c.max c.entries) := by
  have hentries : ((indexEntries codec s.disk s.history.dir).getD []).take s.history.max = s.history.entries := by
    rcases h.index with ⟨hnil, hnone⟩ | hsome
    · rw [hnone, hnil, Option.getD_none, List.take_nil]
    · rw [hsome, Option.getD_some, List.take_of_length_le h.length_le]
  have hlength : c.entries.length ≤ c.max := by
    rw [← h.shows.length_eq, ← h.max_eq]
    exact h.length_le
  have hload : ClipHistory.load c.max c.entries = c := by rw [ClipHistory.load, List.take_of_length_le hlength]
  rw [hload]
  simp only [HistoryRun.step, HistoryRun.start, DiskHistory.load, hentries]
  exact {
    max_eq := h.max_eq
    ready := h.ready
    length_le := h.length_le
    shows := h.shows
    numbered := by
      intro e he file hf
      obtain ⟨n, -, rfl⟩ := h.numbered e he file hf
      refine ⟨n, ?_, rfl⟩
      have hmem : n ∈ s.history.entries.filterMap fun e => e.file?.bind fileNumber :=
        List.mem_filterMap.2 ⟨e, he, by rw [hf, Option.bind_some, fileNumber_pngName]⟩
      dsimp only
      split
      · rename_i m hm
        exact Nat.lt_succ_of_le ((List.max?_eq_some_iff.1 hm).2 n hmem)
      · rename_i hnone
        rw [List.max?_eq_none_iff.1 hnone] at hmem
        cases hmem
    distinct := h.distinct
    index := h.index }

/-- Step lemma: what a call does on disk is what it does to the list. -/
theorem step_backed (h : Backed codec s c) (call : HistoryCall)
    (hjson : codec.RoundTrips (s.step codec call).history.entries) :
    Backed codec (s.step codec call) (c.call codec.sha256 call) := by
  cases call with
  | recordText t origin now => exact h.text_backed t origin now hjson
  | recordImage png origin now => exact h.image_backed png origin now hjson
  | restart pid => exact h.restart_backed pid

/-- Run lemma. -/
theorem after_backed (h : Backed codec s c) (es : List HistoryCall)
    (hjson : ∀ pre, pre <+: es → codec.RoundTrips (s.after codec pre).history.entries) :
    Backed codec (s.after codec es) (es.foldl (ClipHistory.call codec.sha256) c) := by
  induction es using List.reverseRecOn with
  | nil => exact h
  | append_singleton es e ih =>
    have hlast := hjson (es ++ [e]) (List.prefix_refl _)
    have hbefore := ih fun pre hpre => hjson pre (hpre.trans (List.prefix_append ..))
    rw [HistoryRun.after, List.foldl_append] at hlast ⊢
    rw [List.foldl_append]
    exact hbefore.step_backed e hlast

end Backed

/-- There is no file in `dir`. -/
def EmptyDir (fs : FileSys PathBuf) (dir : PathBuf) : Prop :=
  (∀ i, fs.node dir ≠ some (.file i)) ∧ ∀ name, Bare name → fs.node (join dir name) = none

theorem start_backed (codec : HistoryCodec) {fs : FileSys PathBuf} {dir : PathBuf} (h : EmptyDir fs dir)
    (pid max : Nat) : Backed codec (HistoryRun.start codec pid fs dir max) ⟨max, []⟩ := by
  have hindex : indexEntries codec fs dir = none := by
    have hnode := h.2 indexName indexName_bare
    simp only [indexEntries, FileSys.read, hnode, Option.bind_none]
  have hentries : (load codec fs dir max).entries = [] := by
    simp only [load, hindex, Option.getD_none, List.take_nil]
  exact {
    max_eq := rfl
    ready := ⟨h.1, fun name hname he => by
      have hnone : fs.node (join dir name) = none := h.2 name hname
      exact absurd (hnone.symm.trans he) (by simp)⟩
    length_le := by simp [HistoryRun.start, hentries]
    shows := by
      simp only [HistoryRun.start, hentries]
      exact List.Forall₂.nil
    numbered := by simp [HistoryRun.start, hentries]
    distinct := by simp [HistoryRun.start, hentries]
    index := Or.inl ⟨hentries, hindex⟩ }

private theorem push_dir (codec : HistoryCodec) (pid : Nat) (fs : FileSys PathBuf) (h : DiskHistory) (e : Entry) :
    (push codec pid fs h e).2.dir = h.dir := by
  unfold push
  split <;> rfl

theorem step_dir (codec : HistoryCodec) (s : HistoryRun) (call : HistoryCall) :
    (s.step codec call).history.dir = s.history.dir := by
  cases call with
  | recordText t origin now =>
    simp only [HistoryRun.step, DiskHistory.recordText]
    split
    · rfl
    · exact push_dir ..
  | recordImage png origin now =>
    simp only [HistoryRun.step, DiskHistory.recordImage]
    split
    · rfl
    split
    · rfl
    split
    · rfl
    split
    · rfl
    · exact push_dir ..
  | restart pid => rfl

theorem after_dir (codec : HistoryCodec) (s : HistoryRun) (es : List HistoryCall) :
    (s.after codec es).history.dir = s.history.dir := by
  induction es generalizing s with
  | nil => rfl
  | cons e es ih => exact (ih (s.step codec e)).trans (step_dir codec s e)

/-! ### The list refines the reference -/

/-- The entry of a record. -/
def Recorded.entry (sha256 : Bytes → Digest) (r : Recorded) : HistoryEntry := ⟨r.body, r.origin, sha256 r.body.bytes⟩

theorem reference_snoc (max : Nat) (es : List HistoryCall) (e : HistoryCall) :
    reference max (es ++ [e]) = match e.recorded? with
      | some r => ring max (reference max es) r
      | none => reference max es := by
  rw [reference, List.filterMap_append, List.foldl_append]
  cases hr : e.recorded? with
  | none => simp [hr, reference]
  | some r => simp [hr, reference]

theorem ring_length_le {max : Nat} {l : List Recorded} (h : l.length ≤ max) (r : Recorded) :
    (ring max l r).length ≤ max := by
  unfold ring
  split
  · exact h
  · rw [List.length_take]
    exact Nat.min_le_left ..

theorem ring_subset {max : Nat} {l : List Recorded} {r x : Recorded} (h : x ∈ ring max l r) : x = r ∨ x ∈ l := by
  unfold ring at h
  split at h
  · exact Or.inr h
  · exact List.mem_cons.1 (List.mem_of_mem_take h)

/-- With at least one slot there is something in the list after a record. -/
theorem ring_ne_nil {max : Nat} (hmax : 1 ≤ max) (l : List Recorded) (r : Recorded) : ring max l r ≠ [] := by
  unfold ring
  split
  · rename_i hhead
    rintro rfl
    cases hhead
  · obtain ⟨n, rfl⟩ := Nat.exists_eq_add_of_le' hmax
    rw [List.take_succ_cons]
    exact List.cons_ne_nil _ _

/-- `push` compares digests and `ring` compares bytes, which is the same unless two contents collide. -/
theorem push_ring {sha256 : Bytes → Digest} {max : Nat} {l : List Recorded} {r : Recorded}
    (hsha : ∀ x ∈ l, sha256 x.body.bytes = sha256 r.body.bytes → x.body.bytes = r.body.bytes) :
    ClipHistory.push ⟨max, l.map (Recorded.entry sha256)⟩ (r.entry sha256) =
      ⟨max, (ring max l r).map (Recorded.entry sha256)⟩ := by
  have hhead : (l.map (Recorded.entry sha256)).head?.any (·.hash == (r.entry sha256).hash) =
      l.head?.any (fun h => h.body.bytes == r.body.bytes) := by
    cases l with
    | nil => rfl
    | cons x l =>
      simp only [List.map_cons, List.head?_cons, Option.any_some, Recorded.entry]
      by_cases hx : x.body.bytes = r.body.bytes
      · rw [hx, beq_self_eq_true, beq_self_eq_true]
      · have hdigest : sha256 x.body.bytes ≠ sha256 r.body.bytes := fun h => hx (hsha x (List.mem_cons_self ..) h)
        rw [beq_eq_false_iff_ne.2 hx, beq_eq_false_iff_ne.2 hdigest]
  unfold ClipHistory.push ring
  rw [hhead]
  split
  · rfl
  · rw [List.map_take, List.map_cons]

/-- Collision-free calls: different recorded contents have different digests. -/
def DistinctDigests (sha256 : Bytes → Digest) (es : List HistoryCall) : Prop :=
  ∀ r ∈ es.filterMap HistoryCall.recorded?, ∀ r' ∈ es.filterMap HistoryCall.recorded?,
    sha256 r.body.bytes = sha256 r'.body.bytes → r.body.bytes = r'.body.bytes

instance (sha256 : Bytes → Digest) (es : List HistoryCall) : Decidable (DistinctDigests sha256 es) :=
  inferInstanceAs (Decidable (∀ r ∈ es.filterMap HistoryCall.recorded?, _))

theorem reference_subset {max : Nat} {es : List HistoryCall} {x : Recorded} (h : x ∈ reference max es) :
    x ∈ es.filterMap HistoryCall.recorded? := by
  induction es using List.reverseRecOn with
  | nil => cases h
  | append_singleton es e ih =>
    rw [reference_snoc] at h
    rw [List.filterMap_append, List.mem_append]
    cases hr : e.recorded? with
    | none =>
      rw [hr] at h
      exact Or.inl (ih h)
    | some r =>
      rw [hr] at h
      rcases ring_subset h with rfl | h
      · exact Or.inr (by simp [hr])
      · exact Or.inl (ih h)

theorem reference_length_le (max : Nat) (es : List HistoryCall) : (reference max es).length ≤ max := by
  induction es using List.reverseRecOn with
  | nil => exact Nat.zero_le _
  | append_singleton es e ih =>
    rw [reference_snoc]
    split
    · exact ring_length_le ih _
    · exact ih

theorem reference_ne_nil {max : Nat} (hmax : 1 ≤ max) {es : List HistoryCall}
    (h : es.filterMap HistoryCall.recorded? ≠ []) : reference max es ≠ [] := by
  induction es using List.reverseRecOn with
  | nil => exact absurd rfl h
  | append_singleton es e ih =>
    rw [reference_snoc]
    cases hr : e.recorded? with
    | none =>
      refine ih fun hnil => h ?_
      rw [List.filterMap_append, hnil, List.nil_append, List.filterMap_cons_none hr, List.filterMap_nil]
    | some r => exact ring_ne_nil hmax _ r

/-- The list with its digests holds the reference list. -/
theorem clipHistory_ring {sha256 : Bytes → Digest} {max : Nat} (hmax : 1 ≤ max) {es : List HistoryCall}
    (hsha : DistinctDigests sha256 es) :
    es.foldl (ClipHistory.call sha256) ⟨max, []⟩ = ⟨max, (reference max es).map (Recorded.entry sha256)⟩ := by
  induction es using List.reverseRecOn with
  | nil => rfl
  | append_singleton es e ih =>
    have hbefore : DistinctDigests sha256 es := fun r hr r' hr' =>
      hsha r (by rw [List.filterMap_append]; exact List.mem_append_left _ hr) r'
        (by rw [List.filterMap_append]; exact List.mem_append_left _ hr')
    have hpush : ∀ r, e.recorded? = some r →
        ClipHistory.push ⟨max, (reference max es).map (Recorded.entry sha256)⟩ (r.entry sha256) =
          ⟨max, (ring max (reference max es) r).map (Recorded.entry sha256)⟩ := by
      intro r hr
      refine push_ring fun x hx => hsha x ?_ r ?_
      · rw [List.filterMap_append]
        exact List.mem_append_left _ (reference_subset hx)
      · rw [List.filterMap_append]
        exact List.mem_append_right _ (by simp [hr])
    have henabled : ∀ l, (⟨max, l⟩ : ClipHistory).enabled = true := fun l => decide_eq_true hmax
    rw [List.foldl_append, ih hbefore, reference_snoc, List.foldl_cons, List.foldl_nil]
    cases e with
    | recordText t origin now =>
      by_cases ht : t = ""
      · simp [ClipHistory.call, ClipHistory.recordText, HistoryCall.recorded?, ht]
      · have hr : (HistoryCall.recordText t origin now).recorded? = some ⟨.text t, origin⟩ := if_neg ht
        rw [hr, ClipHistory.call, ClipHistory.recordText, if_neg (by simp [henabled, ht])]
        exact hpush _ hr
    | recordImage png origin now =>
      have hr : (HistoryCall.recordImage png origin now).recorded? = some ⟨.image png, origin⟩ := rfl
      rw [hr, ClipHistory.call, ClipHistory.recordImage, if_neg (by simp [henabled])]
      exact hpush _ hr
    | restart pid =>
      have hlen : ((reference max es).map (Recorded.entry sha256)).length ≤ max := by
        rw [List.length_map]
        exact reference_length_le max es
      rw [ClipHistory.call, ClipHistory.load, List.take_of_length_le hlen]
      rfl

/-! ### The whole history -/

theorem index_backed {codec : HistoryCodec} {s : HistoryRun} {c : ClipHistory} (h : Backed codec s c)
    (hne : c.entries ≠ []) : indexEntries codec s.disk s.history.dir = some s.history.entries := by
  rcases h.index with ⟨hnil, -⟩ | hsome
  · have hlength := h.shows.length_eq
    rw [hnil] at hlength
    exact absurd (List.length_eq_zero_iff.1 hlength.symm) hne
  · exact hsome

theorem get_backed {codec : HistoryCodec} {s : HistoryRun} {c : ClipHistory} (h : Backed codec s c) (i : Nat) :
    s.get i = c.get i := by
  rw [HistoryRun.get, DiskHistory.get, ClipHistory.get]
  have hshows := h.shows
  generalize s.history.entries = q, c.entries = l at hshows
  induction hshows generalizing i with
  | nil => rfl
  | @cons e he q l hhead _ ih =>
    cases i with
    | zero => exact hhead.body
    | succ i => exact ih i

/-- From an empty directory, after any calls and restarts: the entries are those of the reference list, `get` returns
the recorded bytes, and `index.json` decodes to the entries once something was recorded. -/
theorem history_is_ring (codec : HistoryCodec) (fs : FileSys PathBuf) (dir : PathBuf) (max pid : Nat)
    (es : List HistoryCall) (hmax : 1 ≤ max) (hempty : EmptyDir fs dir)
    (hjson : ∀ pre, pre <+: es →
      codec.RoundTrips ((HistoryRun.start codec pid fs dir max).after codec pre).history.entries)
    (hsha : DistinctDigests codec.sha256 es) :
    List.Forall₂
        (fun e r => e.restored ((HistoryRun.start codec pid fs dir max).after codec es).disk dir = some r.body ∧
          e.origin = r.origin)
        ((HistoryRun.start codec pid fs dir max).after codec es).history.entries (reference max es) ∧
      (∀ i, ((HistoryRun.start codec pid fs dir max).after codec es).get i = ((reference max es)[i]?).map (·.body)) ∧
      (es.filterMap HistoryCall.recorded? ≠ [] →
        indexEntries codec ((HistoryRun.start codec pid fs dir max).after codec es).disk dir =
          some ((HistoryRun.start codec pid fs dir max).after codec es).history.entries) := by
  have hbacked := (start_backed codec hempty pid max).after_backed es hjson
  have hdir := after_dir codec (HistoryRun.start codec pid fs dir max) es
  rw [clipHistory_ring hmax hsha] at hbacked
  rw [show (HistoryRun.start codec pid fs dir max).history.dir = dir from rfl] at hdir
  refine ⟨?_, fun i => ?_, fun hne => ?_⟩
  · have hshows := hbacked.shows
    rw [hdir, List.forall₂_map_right_iff] at hshows
    exact hshows.imp fun e r h => ⟨h.body, h.origin⟩
  · rw [get_backed hbacked i, ClipHistory.get, List.getElem?_map, Option.map_map]
    rfl
  · have hindex := index_backed hbacked (by simpa using reference_ne_nil hmax hne)
    rw [hdir] at hindex
    exact hindex

/-- The SHA-256 of the contents of the examples. -/
def digestOf (content : Bytes) : Digest :=
  match content with
  | [1] => #v[
      75, 245, 18, 47, 52, 69, 84, 197, 59, 222, 46, 187, 140, 210, 183, 227, 209, 96, 10, 214, 49, 195,
      133, 165, 215, 204, 226, 60, 119, 133, 69, 154]
  | [2] => #v[
      219, 193, 180, 201, 0, 255, 228, 141, 87, 91, 93, 165, 198, 56, 4, 1, 37, 246, 93, 176, 254, 62, 36,
      73, 75, 118, 234, 152, 100, 87, 217, 134]
  | [97] => #v[
      202, 151, 129, 18, 202, 27, 189, 202, 250, 194, 49, 179, 154, 35, 220, 77, 167, 134, 239, 248, 20,
      124, 78, 114, 185, 128, 119, 133, 175, 238, 72, 187]
  | _ => #v[
      62, 35, 232, 22, 0, 57, 89, 74, 51, 137, 79, 101, 100, 225, 177, 52, 139, 189, 122, 0, 136, 212, 44,
      74, 203, 115, 238, 174, 213, 156, 0, 157]

/-- The fields of an entry whose strings need no escapes. -/
def fieldsJson (e : Entry) : List (String × String) :=
  let quoted := fun t : String => "\"" ++ t ++ "\""
  (match e.body with
    | .text t => [("kind", quoted "text"), ("text", quoted t)]
    | .image file w h =>
      [("kind", quoted "image"), ("file", quoted file), ("w", toString w.toNat), ("h", toString h.toNat)])
  ++ [("when", toString e.when.toNat), ("origin", quoted e.origin), ("hash", quoted e.hash)]

/-- The pretty JSON of such entries. -/
def prettyJson (q : List Entry) : String :=
  if q = [] then "[]"
  else "[\n" ++ ",\n".intercalate (q.map fun e => "  \x7b\n" ++
    ",\n".intercalate ((fieldsJson e).map fun f => "    \"" ++ f.1 ++ "\": " ++ f.2) ++ "\n  \x7d") ++ "\n]"

def firstImage : Entry :=
  ⟨.image "0.png" 0 0, 1, "local", "4bf5122f344554c53bde2ebb8cd2b7e3d1600ad631c385a5d7cce23c7785459a"⟩
def textA : Entry := ⟨.text "a", 2, "peer", "ca978112ca1bbdcafac231b39a23dc4da786eff8147c4e72b9807785afee48bb"⟩
def textB : Entry := ⟨.text "b", 3, "peer", "3e23e8160039594a33894f6564e1b1348bbd7a0088d42c4acb73eeaed59c009d"⟩
private def secondImage : Entry :=
  ⟨.image "0.png" 0 0, 4, "local", "dbc1b4c900ffe48d575b5da5c638040125f65db0fe3e24494b76ea986457d986"⟩

private def smallCodec : HistoryCodec where
  sha256 := digestOf
  imageSize _ := none
  toVecPretty q := some (asBytes (prettyJson q))
  fromSlice bytes :=
    [[], [firstImage], [textA, firstImage], [textB, textA], [secondImage, textB]].find? fun q =>
      asBytes (prettyJson q) == bytes

/-- The second image gets the number of the first one, which was evicted before the restart. -/
private def reusedNumber : List HistoryCall :=
  [.recordImage [1] "local" 1, .recordText "a" "peer" 2, .recordText "b" "peer" 3, .restart 8,
    .recordImage [2] "local" 4]

theorem history_is_ring_reused_number :
    ((HistoryRun.start smallCodec 7 FileSys.empty "/h" 2).after smallCodec reusedNumber).get 0 = some (.image [2]) ∧
      ((HistoryRun.start smallCodec 7 FileSys.empty "/h" 2).after smallCodec reusedNumber).get 1 = some (.text "b") ∧
      ((HistoryRun.start smallCodec 7 FileSys.empty "/h" 2).after smallCodec reusedNumber).get 2 = none := by
  have hempty : EmptyDir FileSys.empty "/h" := ⟨(fun _ h => by cases h), fun _ _ => rfl⟩
  have hjson : ∀ pre ∈ reusedNumber.inits, smallCodec.RoundTrips
      ((HistoryRun.start smallCodec 7 FileSys.empty "/h" 2).after smallCodec pre).history.entries := by
    decide +kernel
  have hsha : DistinctDigests smallCodec.sha256 reusedNumber := by decide +kernel
  obtain ⟨-, hget, -⟩ := history_is_ring smallCodec FileSys.empty "/h" 2 7 reusedNumber (by decide) hempty
    (fun pre hpre => hjson pre ((List.mem_inits _ _).2 hpre)) hsha
  have href : reference 2 reusedNumber = [⟨.image [2], "local"⟩, ⟨.text "b", "peer"⟩] := by decide +kernel
  rw [hget 0, hget 1, hget 2, href]
  exact ⟨rfl, rfl, rfl⟩

end Qdrop
