import Qdrop.Clipboard.History
import Qdrop.Lib.Run

/-!
# Image files without an entry (`load`, `record_image` and `push` of `qdropd/src/history.rs`)

`push` removes the file of an image that it evicts, while `load` cuts the index to `max` entries and leaves the files of
the images it drops.  So the numbered files are those of the image entries as long as no restart drops an image
(`images_match_iff`).
-/

namespace Qdrop

open Lib DiskHistory

/-- A call, or a restart with a size of its own. -/
inductive HistoryEvent where
  | recordText (t origin : String) (now : UInt64)
  | recordImage (png : Bytes) (origin : String) (now : UInt64)
  /-- The daemon ends and another one loads the same directory. -/
  | restart (pid newMax : Nat)

namespace HistoryRun

/-- The names of the image files that the entries hold. -/
def imageFiles (s : HistoryRun) : List String := s.history.entries.filterMap Entry.file?

/-- There is a file `name` in the directory. -/
def HasFile (s : HistoryRun) (name : String) : Prop := (s.disk.read (join s.history.dir name)).isSome

instance (s : HistoryRun) (name : String) : Decidable (s.HasFile name) := inferInstanceAs (Decidable (_ = true))

/-- The files with a number in the directory are those of the image entries. -/
def ImagesMatch (s : HistoryRun) : Prop := ∀ name, (fileNumber name).isSome → (s.HasFile name ↔ name ∈ s.imageFiles)

variable (codec : HistoryCodec)

def handle (s : HistoryRun) : HistoryEvent → HistoryRun
  | .recordText t origin now => s.step codec (.recordText t origin now)
  | .recordImage png origin now => s.step codec (.recordImage png origin now)
  | .restart pid newMax => start codec pid s.disk s.history.dir newMax

/-- An event after which the JSON of the entries can be written and read back. -/
def stepEvent (s : HistoryRun) (e : HistoryEvent) : Option HistoryRun :=
  if codec.RoundTrips (s.handle codec e).history.entries then some (s.handle codec e) else none

/-- A restart where the entries of the index that do not fit are no images. -/
def DropsNoImage (s : HistoryRun) : HistoryEvent → Prop
  | .restart _ newMax => ∀ e ∈ ((indexEntries codec s.disk s.history.dir).getD []).drop newMax, e.file? = none
  | _ => True

instance (s : HistoryRun) (e : HistoryEvent) : Decidable (s.DropsNoImage codec e) :=
  match e with
  | .restart _ newMax =>
    inferInstanceAs (Decidable (∀ e ∈ ((indexEntries codec s.disk s.history.dir).getD []).drop newMax, e.file? = none))
  | .recordText .. => inferInstanceAs (Decidable True)
  | .recordImage .. => inferInstanceAs (Decidable True)

/-- What a call does that records the entry `x`. -/
structure Records (s t : HistoryRun) (x : Entry) : Prop where
  dir : t.history.dir = s.history.dir
  entries : t.history.entries = (x :: s.history.entries).take s.history.max
  /-- A new image has the next number. -/
  number : ∀ file, x.file? = some file → file = pngName s.history.nextFile ∧ s.history.nextFile < t.history.nextFile
  number_le : s.history.nextFile ≤ t.history.nextFile
  ready : Ready t.disk t.history.dir
  index : indexEntries codec t.disk t.history.dir = some t.history.entries
  files : ∀ name, (fileNumber name).isSome →
    (t.HasFile name ↔ (s.HasFile name ∨ x.file? = some name) ∧
      name ∉ ((x :: s.history.entries).drop s.history.max).filterMap Entry.file?)

variable {codec} {s t : HistoryRun}

/-- `push` records its entry, where the file of an image is written already. -/
private theorem push_records {fs : FileSys PathBuf} {n : Nat} {x : Entry} (hready : Ready fs s.history.dir)
    (hbare : ∀ e ∈ s.history.entries, ∀ file, e.file? = some file → Bare file)
    (hnumber : ∀ file, x.file? = some file → file = pngName s.history.nextFile ∧ s.history.nextFile < n)
    (hle : s.history.nextFile ≤ n)
    (hfiles : ∀ name, (fileNumber name).isSome →
      ((fs.read (join s.history.dir name)).isSome ↔ s.HasFile name ∨ x.file? = some name))
    (hdup : s.history.headHas x.hash = false)
    (hjson : codec.RoundTrips (push codec s.pid fs { s.history with nextFile := n } x).2.entries) :
    Records codec s ⟨s.pid, (push codec s.pid fs { s.history with nextFile := n } x).1,
      (push codec s.pid fs { s.history with nextFile := n } x).2⟩ x := by
  have hbare' : ∀ e ∈ x :: s.history.entries, ∀ file, e.file? = some file → Bare file := by
    intro e he file hf
    rcases List.mem_cons.1 he with rfl | he
    · rw [(hnumber file hf).1]
      exact pngName_bare _
    · exact hbare e he file hf
  obtain ⟨hhistory, hready', hindex, hkept⟩ := push_spec (h := { s.history with nextFile := n }) s.pid hready hbare'
    hdup hjson
  exact {
    dir := by rw [hhistory]
    entries := by rw [hhistory]
    number := by
      rw [hhistory]
      exact hnumber
    number_le := by
      rw [hhistory]
      exact hle
    ready := by
      rw [hhistory]
      exact hready'
    index := by
      rw [hhistory]
      exact hindex
    files := by
      intro name hname
      have hname' := hkept name hname
      rw [HasFile, hhistory, ← hfiles name hname]
      split at hname'
      · rename_i hdropped
        simp only [hname', Option.isSome_none, Bool.false_eq_true, false_iff, not_and, not_not]
        exact fun _ => hdropped
      · rename_i hleft
        rw [hname'.read]
        exact (and_iff_left hleft).symm }

/-- Inversion: a call changes nothing or records an entry. -/
theorem record_cases {call : HistoryCall} (hready : Ready s.disk s.history.dir)
    (hbare : ∀ x ∈ s.history.entries, ∀ file, x.file? = some file → Bare file)
    (hrecord : ∀ pid, call ≠ .restart pid) (hjson : codec.RoundTrips (s.step codec call).history.entries) :
    s.step codec call = s ∨ ∃ x, Records codec s (s.step codec call) x := by
  cases call with
  | recordText t origin now =>
    simp only [step, DiskHistory.recordText] at hjson ⊢
    by_cases hskip : s.history.enabled = false ∨ t = ""
    · rw [if_pos hskip]
      exact Or.inl rfl
    rw [if_neg hskip] at hjson ⊢
    cases hdup : s.history.headHas (hex (codec.sha256 (asBytes t))) with
    | true => exact Or.inl (by rw [push, if_pos hdup])
    | false =>
      refine Or.inr ⟨⟨.text t, now, origin, hex (codec.sha256 (asBytes t))⟩, ?_⟩
      exact push_records (n := s.history.nextFile) hready hbare (fun file hf => by cases hf) le_rfl
        (fun name _ => by simp [HasFile, Entry.file?]) hdup hjson
  | recordImage png origin now =>
    simp only [step, DiskHistory.recordImage] at hjson ⊢
    by_cases hskip : s.history.enabled = false
    · rw [if_pos hskip]
      exact Or.inl rfl
    rw [if_neg hskip] at hjson ⊢
    cases hdup : s.history.headHas (hex (codec.sha256 png)) with
    | true => exact Or.inl (by simp)
    | false =>
      obtain ⟨fs₁, hc, hready₁, hkept₁⟩ := createDirAll_ready hready
      obtain ⟨fs₂, hw, hready₂, hread, hkept₂⟩ := writeFile_ready hready₁ (pngName_bare s.history.nextFile) png
      simp only [hdup, Bool.false_eq_true, if_false, hc, hw] at hjson ⊢
      refine Or.inr ⟨⟨.image (pngName s.history.nextFile) ((codec.imageSize png).getD (0, 0)).1
        ((codec.imageSize png).getD (0, 0)).2, now, origin, hex (codec.sha256 png)⟩, ?_⟩
      refine push_records hready₂ hbare ?_ (Nat.le_succ _) ?_ hdup hjson
      · rintro file ⟨⟩
        exact ⟨rfl, Nat.lt_succ_self _⟩
      · intro name hname
        by_cases hnew : name = pngName s.history.nextFile
        · simp [hnew, hread, Entry.file?]
        · have hkept := (hkept₁.trans hkept₂) name (fileNumber_bare hname) (by simpa using hnew)
          rw [hkept.read]
          simp [HasFile, Entry.file?, Ne.symm hnew]
  | restart pid => exact absurd rfl (hrecord pid)

/-- What is on disk: the index holds the entries and, after a restart that cut it, the rest, and the files of all these
are there. -/
structure Indexed (codec : HistoryCodec) (s : HistoryRun) (rest : List Entry) : Prop where
  ready : Ready s.disk s.history.dir
  index : (indexEntries codec s.disk s.history.dir).getD [] = s.history.entries ++ rest
  named : ∀ e ∈ s.history.entries ++ rest, ∀ file, e.file? = some file → ∃ n, file = pngName n
  below : ∀ e ∈ s.history.entries, ∀ n, e.file? = some (pngName n) → n < s.history.nextFile
  distinct : ((s.history.entries ++ rest).filterMap Entry.file?).Nodup
  hasFile : ∀ e ∈ s.history.entries ++ rest, ∀ file, e.file? = some file → s.HasFile file

namespace Indexed

variable {rest : List Entry} {x : Entry}

private theorem isSome_fileNumber {q : List Entry} (h : ∀ e ∈ q, ∀ file, e.file? = some file → ∃ n, file = pngName n)
    {e : Entry} (he : e ∈ q) {file : String} (hf : e.file? = some file) : (fileNumber file).isSome := by
  obtain ⟨n, rfl⟩ := h e he file hf
  rw [fileNumber_pngName]
  rfl

theorem bare (h : Indexed codec s rest) : ∀ e ∈ s.history.entries, ∀ file, e.file? = some file → Bare file :=
  fun _ he _ hf => fileNumber_bare (isSome_fileNumber h.named (List.mem_append_left _ he) hf)

/-- A new image has a file of its own. -/
private theorem distinct_cons (h : Indexed codec s rest) (hx : Records codec s t x) :
    ((x :: s.history.entries).filterMap Entry.file?).Nodup := by
  have hentries : (s.history.entries.filterMap Entry.file?).Nodup := by
    have hdistinct := h.distinct
    rw [List.filterMap_append] at hdistinct
    exact hdistinct.of_append_left
  cases hf : x.file? with
  | none =>
    rw [List.filterMap_cons_none hf]
    exact hentries
  | some file =>
    rw [List.filterMap_cons_some hf, List.nodup_cons]
    refine ⟨fun hmem => ?_, hentries⟩
    obtain ⟨e, he, hfile⟩ := List.mem_filterMap.1 hmem
    rw [(hx.number file hf).1] at hfile
    exact lt_irrefl _ (h.below e he _ hfile)

/-- Of the files of a list without repetitions those of its front are not those of the others. -/
private theorem mem_take_iff {q : List Entry} (h : (q.filterMap Entry.file?).Nodup) (n : Nat) (name : String) :
    name ∈ (q.take n).filterMap Entry.file? ↔
      name ∈ q.filterMap Entry.file? ∧ name ∉ (q.drop n).filterMap Entry.file? := by
  have hsplit : q.filterMap Entry.file? = (q.take n).filterMap Entry.file? ++ (q.drop n).filterMap Entry.file? := by
    rw [← List.filterMap_append, List.take_append_drop]
  rw [hsplit] at h ⊢
  have hdisjoint := (List.nodup_append.1 h).2.2
  rw [List.mem_append]
  constructor
  · intro hmem
    exact ⟨Or.inl hmem, fun hdrop => hdisjoint _ hmem _ hdrop rfl⟩
  · rintro ⟨hmem, hdrop⟩
    exact hmem.resolve_right hdrop

/-- A recorded entry leaves an index without a rest. -/
theorem record (h : Indexed codec s rest) (hx : Records codec s t x) : Indexed codec t [] := by
  have hnamed : ∀ e ∈ x :: s.history.entries, ∀ file, e.file? = some file → ∃ n, file = pngName n := by
    intro e he file hf
    rcases List.mem_cons.1 he with rfl | he
    · exact ⟨_, (hx.number file hf).1⟩
    · exact h.named e (List.mem_append_left _ he) file hf
  have hdistinct := h.distinct_cons hx
  have hsub : ∀ e ∈ t.history.entries, e ∈ x :: s.history.entries := fun e he =>
    List.mem_of_mem_take (hx.entries ▸ he)
  refine ⟨hx.ready, ?_, ?_, ?_, ?_, ?_⟩
  · rw [hx.index, Option.getD_some, List.append_nil]
  · rw [List.append_nil]
    exact fun e he => hnamed e (hsub e he)
  · intro e he n hf
    rcases List.mem_cons.1 (hsub e he) with rfl | he
    · obtain ⟨hn, hlt⟩ := hx.number _ hf
      rw [pngName_inj hn]
      exact hlt
    · exact (h.below e he n hf).trans_le hx.number_le
  · rw [List.append_nil, hx.entries]
    exact hdistinct.sublist ((List.take_sublist _ _).filterMap _)
  · rw [List.append_nil]
    intro e he file hf
    rw [hx.files file (isSome_fileNumber hnamed (hsub e he) hf)]
    have hmem : file ∈ ((x :: s.history.entries).take s.history.max).filterMap Entry.file? :=
      List.mem_filterMap.2 ⟨e, hx.entries ▸ he, hf⟩
    refine ⟨?_, ((mem_take_iff hdistinct _ _).1 hmem).2⟩
    rcases List.mem_cons.1 (hsub e he) with rfl | he
    · exact Or.inr hf
    · exact Or.inl (h.hasFile e (List.mem_append_left _ he) file hf)

/-- `push` removes the files of what it evicts. -/
theorem record_images (h : Indexed codec s rest) (hx : Records codec s t x) (hm : s.ImagesMatch) : t.ImagesMatch := by
  intro name hname
  rw [hx.files name hname, imageFiles, hx.entries, mem_take_iff (h.distinct_cons hx), hm name hname, imageFiles]
  refine and_congr_left fun _ => ?_
  cases hf : x.file? with
  | none => simp [List.filterMap_cons_none hf]
  | some file => simp [List.filterMap_cons_some hf, or_comm, eq_comm]

/-- What a restart loads is the front of the index. -/
private theorem restart_entries (h : Indexed codec s rest) (pid newMax : Nat) :
    (start codec pid s.disk s.history.dir newMax).history.entries = (s.history.entries ++ rest).take newMax := by
  rw [start, load, h.index]

theorem restart (h : Indexed codec s rest) (pid newMax : Nat) :
    Indexed codec (start codec pid s.disk s.history.dir newMax) ((s.history.entries ++ rest).drop newMax) := by
  have hentries := h.restart_entries pid newMax
  refine ⟨h.ready, ?_, ?_, ?_, ?_, ?_⟩
  · rw [hentries, List.take_append_drop]
    exact h.index
  · rw [hentries, List.take_append_drop]
    exact h.named
  · intro e he n hf
    have hmem : n ∈ (start codec pid s.disk s.history.dir newMax).history.entries.filterMap
        fun e => e.file?.bind fileNumber :=
      List.mem_filterMap.2 ⟨e, he, by rw [hf, Option.bind_some, fileNumber_pngName]⟩
    rw [start, load] at hmem ⊢
    dsimp only at hmem ⊢
    split
    · rename_i m hmax
      exact Nat.lt_succ_of_le ((List.max?_eq_some_iff.1 hmax).2 n hmem)
    · rename_i hnone
      rw [List.max?_eq_none_iff.1 hnone] at hmem
      cases hmem
  · rw [hentries, List.take_append_drop]
    exact h.distinct
  · rw [hentries, List.take_append_drop]
    exact h.hasFile

/-- `load` leaves the files of the images it drops, so none of them may be dropped. -/
theorem restart_images_iff (h : Indexed codec s rest) (hm : s.ImagesMatch) (pid newMax : Nat) :
    (start codec pid s.disk s.history.dir newMax).ImagesMatch ↔ s.DropsNoImage codec (.restart pid newMax) := by
  have hmatch : (start codec pid s.disk s.history.dir newMax).ImagesMatch ↔ ∀ name, (fileNumber name).isSome →
      (s.HasFile name ↔ name ∈ (s.history.entries ++ rest).filterMap Entry.file? ∧
        name ∉ ((s.history.entries ++ rest).drop newMax).filterMap Entry.file?) := by
    unfold ImagesMatch
    simp only [imageFiles, h.restart_entries, mem_take_iff h.distinct]
    rfl
  rw [hmatch, DropsNoImage, h.index]
  constructor
  · intro hall e he
    cases hf : e.file? with
    | none => rfl
    | some file =>
      have hin := List.mem_of_mem_drop he
      have hleft := (hall file (isSome_fileNumber h.named hin hf)).1 (h.hasFile e hin file hf)
      exact absurd (List.mem_filterMap.2 ⟨e, he, hf⟩) hleft.2
  · intro hnone name hname
    have hdropped : ((s.history.entries ++ rest).drop newMax).filterMap Entry.file? = [] := by
      rw [List.filterMap_eq_nil_iff]
      exact hnone
    rw [hdropped, List.filterMap_append, List.mem_append]
    simp only [List.not_mem_nil, not_false_eq_true, and_true]
    constructor
    · exact fun hfile => Or.inl ((hm name hname).1 hfile)
    · rintro (hmem | hmem)
      · exact (hm name hname).2 hmem
      · obtain ⟨e, he, hf⟩ := List.mem_filterMap.1 hmem
        exact h.hasFile e (List.mem_append_right _ he) name hf

/-- Step lemma: an event leaves an index, and it keeps the files to the entries unless a restart drops an image. -/
theorem step (h : Indexed codec s rest) {e : HistoryEvent} (hs : s.stepEvent codec e = some t) :
    (∃ rest', Indexed codec t rest') ∧ (s.ImagesMatch → (t.ImagesMatch ↔ s.DropsNoImage codec e)) := by
  obtain ⟨hjson, rfl⟩ : codec.RoundTrips (s.handle codec e).history.entries ∧ s.handle codec e = t := by
    unfold stepEvent at hs
    split at hs
    · exact ⟨‹_›, Option.some.inj hs⟩
    · cases hs
  have hrecord : ∀ call, (∀ pid, call ≠ HistoryCall.restart pid) →
      codec.RoundTrips (s.step codec call).history.entries →
      (∃ rest', Indexed codec (s.step codec call) rest') ∧ (s.ImagesMatch → (s.step codec call).ImagesMatch) := by
    intro call hcall hjson
    rcases record_cases h.ready h.bare hcall hjson with hsame | ⟨x, hx⟩
    · rw [hsame]
      exact ⟨⟨rest, h⟩, id⟩
    · exact ⟨⟨[], h.record hx⟩, h.record_images hx⟩
  cases e with
  | recordText t origin now =>
    obtain ⟨hindexed, himages⟩ := hrecord (.recordText t origin now) (fun pid hc => by cases hc) hjson
    exact ⟨hindexed, fun hm => iff_of_true (himages hm) trivial⟩
  | recordImage png origin now =>
    obtain ⟨hindexed, himages⟩ := hrecord (.recordImage png origin now) (fun pid hc => by cases hc) hjson
    exact ⟨hindexed, fun hm => iff_of_true (himages hm) trivial⟩
  | restart pid newMax => exact ⟨⟨_, h.restart pid newMax⟩, fun hm => h.restart_images_iff hm pid newMax⟩

end Indexed

/-- A history loaded from an empty directory. -/
theorem start_indexed (codec : HistoryCodec) {fs : FileSys PathBuf} {dir : PathBuf} (h : EmptyDir fs dir)
    (pid max : Nat) :
    Indexed codec (start codec pid fs dir max) [] ∧ (start codec pid fs dir max).ImagesMatch := by
  have hbacked := start_backed codec h pid max
  have hentries : (start codec pid fs dir max).history.entries = [] :=
    List.forall₂_nil_right_iff.1 hbacked.shows
  constructor
  · refine ⟨hbacked.ready, ?_, ?_, ?_, ?_, ?_⟩
    · rcases hbacked.index with ⟨hnil, hnone⟩ | hsome
      · rw [hnone, hnil]
        rfl
      · rw [hsome, Option.getD_some, List.append_nil]
    all_goals simp [hentries]
  · intro name hname
    have hnode : fs.node (join dir name) = none := h.2 name (fileNumber_bare hname)
    have hread : fs.read (join dir name) = none := by simp only [FileSys.read, hnode]
    refine iff_of_false ?_ ?_
    · rw [HasFile, start, load, hread]
      exact Bool.false_ne_true
    · rw [imageFiles, hentries]
      exact List.not_mem_nil

end HistoryRun

/-- From an empty directory the numbered files are those of the image entries, after every event of a run, exactly when
no restart of the run drops an image. -/
theorem images_match_iff (codec : HistoryCodec) {fs : FileSys PathBuf} {dir : PathBuf} (hempty : EmptyDir fs dir)
    (pid max : Nat) {es : List HistoryEvent} {t : HistoryRun}
    (hrun : Run (HistoryRun.stepEvent codec) Always (HistoryRun.start codec pid fs dir max) es t) :
    Throughout (HistoryRun.stepEvent codec) HistoryRun.ImagesMatch (HistoryRun.start codec pid fs dir max) es ↔
      Run (HistoryRun.stepEvent codec) (HistoryRun.DropsNoImage codec) (HistoryRun.start codec pid fs dir max)
        es t := by
  obtain ⟨hindexed, hmatch⟩ := HistoryRun.start_indexed codec hempty pid max
  refine hrun.throughout_iff (I := fun s => ∃ rest, HistoryRun.Indexed codec s rest) ⟨[], hindexed⟩ hmatch ?_ ?_
  · rintro s e u ⟨rest, h⟩ hs
    exact (h.step hs).1
  · rintro s e u ⟨rest, h⟩ hm hs
    exact (h.step hs).2 hm

/-- A codec that decodes what the runs below write. -/
private def imageCodec : HistoryCodec where
  sha256 := digestOf
  imageSize _ := none
  toVecPretty q := some (asBytes (prettyJson q))
  fromSlice bytes :=
    [[], [firstImage], [textA, firstImage], [textB, textA], [textB]].find? fun q => asBytes (prettyJson q) == bytes

/-- The image is evicted by the second text, and the restart drops a text. -/
private def evicted : List HistoryEvent :=
  [.recordImage [1] "local" 1, .recordText "a" "peer" 2, .recordText "b" "peer" 3, .restart 8 1]

theorem images_match_iff_evicted :
    ∃ t, Run (HistoryRun.stepEvent imageCodec) Always (HistoryRun.start imageCodec 7 FileSys.empty "/h" 2) evicted t ∧
      Throughout (HistoryRun.stepEvent imageCodec) HistoryRun.ImagesMatch
        (HistoryRun.start imageCodec 7 FileSys.empty "/h" 2) evicted := by
  have hempty : EmptyDir FileSys.empty "/h" := ⟨(fun _ h => by cases h), fun _ _ => rfl⟩
  obtain ⟨t, hrun, -⟩ := run_of_exec_checked (HistoryRun.stepEvent imageCodec) (HistoryRun.DropsNoImage imageCodec)
    (HistoryRun.start imageCodec 7 FileSys.empty "/h" 2) evicted (fun s => s.imageFiles) [] (by decide +kernel)
  exact ⟨t, hrun.always, (images_match_iff imageCodec hempty 7 2 hrun.always).2 hrun⟩

/-- After a restart with a history that is switched off the image is on disk, and no entry names it. -/
theorem dropped_image_left :
    ∃ t, Run (HistoryRun.stepEvent imageCodec) Always (HistoryRun.start imageCodec 7 FileSys.empty "/h" 2)
        [.recordImage [1] "local" 1, .restart 8 0] t ∧
      t.HasFile "0.png" ∧ t.imageFiles = [] ∧ ¬ t.ImagesMatch := by
  obtain ⟨t, hrun, hview⟩ := run_of_exec_view (HistoryRun.stepEvent imageCodec) (fun _ => True)
    (HistoryRun.start imageCodec 7 FileSys.empty "/h" 2) [.recordImage [1] "local" 1, .restart 8 0]
    (fun s => (decide (s.HasFile "0.png"), s.imageFiles)) (true, []) (fun _ _ => trivial) (by decide +kernel)
  obtain ⟨hfile, hnone⟩ := Prod.mk.injEq .. ▸ hview
  refine ⟨t, hrun, of_decide_eq_true hfile, hnone, fun hm => ?_⟩
  have hmem := (hm "0.png" (by decide)).1 (of_decide_eq_true hfile)
  rw [hnone] at hmem
  cases hmem

end Qdrop
