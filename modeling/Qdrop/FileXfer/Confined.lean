import Qdrop.FileXfer.Integrity

/-!
# What a transfer may touch and how much it may hold

Other programs may change the disk between two frames, so a run here is a list of frames each of which finds its own
disk (`receiveOn`).  Two facts hold of all such runs, whatever the peers send and whatever fails:

* every file path a handler works on is a direct child of the download directory, or of its `pending` subdirectory
  when the peer's files are held for confirmation at `BlobStart` (`blob_paths_confined`);
* the number of open transfers and the size of an image kept in memory are bounded, and each transfer counts and
  hashes exactly the chunks accepted since its `BlobStart` (`blob_caps_hold`).
-/

namespace Qdrop

open Lib

/-! ### Frames on a changing disk -/

/-- A frame that finds the disk in the state `e.1`. -/
def receiveOn (sha256 : Bytes → Digest) (cfg : XferConfig) (s : History) (e : FileSys PathBuf × Frame) : History :=
  receive sha256 cfg ⟨⟨s.rx.incoming, e.1⟩, s.log⟩ e.2

/-- The transfer a frame is about. -/
def Frame.key? (f : Frame) : Option XferKey :=
  match f.msg with
  | .blobStart id _ _ _ | .blobChunk id _ | .blobEnd id _ => some (f.peer, id)
  | _ => none

/-- The file paths an effect works on. -/
def Effect.files : Effect → List PathBuf
  | .create p | .write p | .remove p => [p]
  | .rename src dst => [src, dst]
  | .send _ _ | .mkdir _ | .clip _ | .notify _ _ => []

/-- The content of `peers.toml` at the last accepted `BlobStart` of `k`, after one more frame. -/
def admittedStep (k : XferKey) (acc : Option PeersFile) (h : Frame × List Effect) : Option PeersFile :=
  match h.1.msg with
  | .blobStart id _ _ _ => if (h.1.peer, id) = k ∧ h.2.any Effect.isSend = false then some h.1.registry else acc
  | _ => acc

/-- The content of `peers.toml` at the last accepted `BlobStart` of `k`. -/
def admitted (k : XferKey) (log : Log) : Option PeersFile := log.foldl (admittedStep k) none

theorem admitted_snoc (k : XferKey) (log : Log) (h : Frame × List Effect) :
    admitted k (log ++ [h]) = admittedStep k (admitted k log) h := by
  simp [admitted, List.foldl_append]

/-! ### Paths -/

/-- `p` is a direct child of the directory for the files of `k`: the download directory, or `pending` in it when the
peer needed confirmation at the `BlobStart` of `k`. -/
def ChildFor (cfg : XferConfig) (k : XferKey) (log : Log) (p : PathBuf) : Prop :=
  ∃ registry n, admitted k log = some registry ∧ Bare n ∧
    p = join (if needsConfirm cfg.confirm registry k.1 then join cfg.downloadDir "pending" else cfg.downloadDir) n

/-- Handling `e` works on direct children of the transfer's directory only, and so does the search for a free name
that its `BlobEnd` would make. -/
def Confined (sha256 : Bytes → Digest) (cfg : XferConfig) (s : History) (e : FileSys PathBuf × Frame) : Prop :=
  (∀ eff ∈ (handled sha256 cfg ⟨⟨s.rx.incoming, e.1⟩, s.log⟩ e.2).2, ∀ p ∈ eff.files,
    ∃ k, e.2.key? = some k ∧ ChildFor cfg k (receiveOn sha256 cfg s e).log p) ∧
  ∀ k inc tmp dir file, s.rx.incoming.lookup k = some inc → inc.sink = .file tmp dir file →
    ∀ n ∈ destNames inc.name, ChildFor cfg k s.log (join dir n)

/-- The entry of `k` was admitted with the directory and the temp path it has. -/
structure Placed (cfg : XferConfig) (log : Log) (k : XferKey) (inc : Incoming) (tmp dir : PathBuf) : Prop where
  home : ∃ registry, admitted k log = some registry ∧ dir = finalDirFor cfg registry k.1
  path : tmp = tmpPathFor dir inc.name k.2
  bare : Bare inc.name

/-- Every file transfer in progress is placed. -/
def AllPlaced (cfg : XferConfig) (s : History) : Prop :=
  ∀ k inc tmp dir file, s.rx.incoming.lookup k = some inc → inc.sink = .file tmp dir file →
    Placed cfg s.log k inc tmp dir

theorem Placed.child {cfg : XferConfig} {log : Log} {k : XferKey} {inc : Incoming} {tmp dir : PathBuf}
    (h : Placed cfg log k inc tmp dir) {n : String} (hn : Bare n) : ChildFor cfg k log (join dir n) := by
  obtain ⟨registry, hadm, hdir⟩ := h.home
  exact ⟨registry, n, hadm, hn, by rw [hdir, finalDirFor]⟩

/-- The temp file is a child of the transfer's directory. -/
theorem Placed.child_tmp {cfg : XferConfig} {log : Log} {k : XferKey} {inc : Incoming} {tmp dir : PathBuf}
    (h : Placed cfg log k inc tmp dir) : ChildFor cfg k log tmp := by
  obtain ⟨n, hn, heq⟩ := tmpPathFor_child dir h.bare.2.2.2 k.2
  rw [h.path, heq]
  exact h.child hn

theorem placed_start (cfg : XferConfig) (fs : FileSys PathBuf) : AllPlaced cfg (History.start fs) := by
  intro k inc tmp dir file h
  cases h

/-- A step that changes at most the entry of `key` keeps the entries placed when the entry of `key` is. -/
private theorem placed_update {cfg : XferConfig} {s : History} (hp : AllPlaced cfg s) {rx : Rx}
    {h : Frame × List Effect} (key : XferKey)
    (hother : ∀ k, k ≠ key → rx.incoming.lookup k = s.rx.incoming.lookup k)
    (hlog : ∀ k, k ≠ key → admittedStep k (admitted k s.log) h = admitted k s.log)
    (hkey : ∀ inc tmp dir file, rx.incoming.lookup key = some inc → inc.sink = .file tmp dir file →
      Placed cfg (s.log ++ [h]) key inc tmp dir) : AllPlaced cfg ⟨rx, s.log ++ [h]⟩ := by
  intro k inc tmp dir file hk hs
  by_cases hkk : k = key
  · subst hkk
    exact hkey inc tmp dir file hk hs
  · have hk : rx.incoming.lookup k = some inc := hk
    rw [hother k hkk] at hk
    obtain ⟨⟨registry, hadm, hdir⟩, hpath, hbare⟩ := hp k inc tmp dir file hk hs
    exact ⟨⟨registry, by rw [admitted_snoc, hlog k hkk, hadm], hdir⟩, hpath, hbare⟩

/-- A frame that is no `BlobStart` admits nothing. -/
private theorem admittedStep_other {f : Frame} (h : ∀ id name size purpose, f.msg ≠ .blobStart id name size purpose)
    (k : XferKey) (acc : Option PeersFile) (effs : List Effect) : admittedStep k acc (f, effs) = acc := by
  unfold admittedStep
  split
  · rename_i id name size purpose hm
    exact absurd hm (h id name size purpose)
  · rfl

/-- What one step gives: the entries stay placed, and the paths worked on are children of the transfer's directory. -/
structure StepPlaced (cfg : XferConfig) (s : History) (f : Frame) (out : Rx × List Effect) : Prop where
  kept : AllPlaced cfg ⟨out.1, s.log ++ [(f, out.2)]⟩
  child : ∀ eff ∈ out.2, ∀ p ∈ eff.files, ∃ k, f.key? = some k ∧ ChildFor cfg k (s.log ++ [(f, out.2)]) p

/-- `remove_file` works on its path only. -/
private theorem tryRemove_files {io : Io} {fs : FileSys PathBuf} {q p : PathBuf} {eff : Effect}
    (he : eff ∈ (tryRemove io fs q).2) (hp : p ∈ eff.files) : p = q := by
  rw [mem_tryRemove he] at hp
  exact List.mem_singleton.1 hp

private theorem placed_blobStart {sha256 : Bytes → Digest} {cfg : XferConfig} {s : History} {f : Frame}
    {id size : Nat} {name : String} {purpose : BlobPurpose} (hp : AllPlaced cfg s)
    (hm : f.msg = .blobStart id name size purpose) : StepPlaced cfg s f (handled sha256 cfg s f) := by
  have hkey : f.key? = some (f.peer, id) := by simp only [Frame.key?, hm]
  have hout : handled sha256 cfg s f = onStart cfg f.registry f.io s.rx f.peer id name size purpose := by
    simp only [handled, hm, handleBlob]
  have hlog : ∀ k effs, k ≠ (f.peer, id) → admittedStep k (admitted k s.log) (f, effs) = admitted k s.log := by
    intro k effs hne
    simp only [admittedStep, hm]
    exact if_neg (fun h => hne h.1.symm)
  -- a refusal is answered and changes no entry
  have hrefused : ∀ (rx : Rx) (effs : List Effect), rx.incoming = s.rx.incoming → effs.any Effect.isSend = true →
      AllPlaced cfg ⟨rx, s.log ++ [(f, effs)]⟩ := by
    intro rx effs hincoming hsend k inc tmp dir file hk hs
    have hk : rx.incoming.lookup k = some inc := hk
    rw [hincoming] at hk
    obtain ⟨⟨registry, hadm, hdir⟩, hpath, hbare⟩ := hp k inc tmp dir file hk hs
    have hstep : admittedStep k (admitted k s.log) (f, effs) = admitted k s.log := by
      simp only [admittedStep, hm, hsend]
      exact if_neg (fun h => by cases h.2)
    exact ⟨⟨registry, by rw [admitted_snoc, hstep, hadm], hdir⟩, hpath, hbare⟩
  rw [hout]
  rcases onStart_cases cfg f.registry f.io s.rx f.peer id name size purpose with
    ⟨detail, h⟩ | ⟨fs, detail, hmk, h⟩ | ⟨rfl, -, -, h⟩ | ⟨safe, fs, fs', handle, rfl, hsafe, -, hmk, hcr, h⟩
  · rw [h]
    refine ⟨hrefused _ _ rfl rfl, fun eff he p hpe => ?_⟩
    rw [List.mem_singleton.1 he] at hpe
    cases hpe
  · rw [h]
    refine ⟨hrefused _ _ rfl rfl, fun eff he p hpe => ?_⟩
    rcases List.mem_cons.1 he with rfl | he
    · cases hpe
    · rw [List.mem_singleton.1 he] at hpe
      cases hpe
  · rw [h]
    refine ⟨placed_update hp (f.peer, id) (fun k hk => AList.lookup_insert_ne hk) (fun k hk => hlog k _ hk) ?_, ?_⟩
    · intro inc tmp dir file hk hs
      rw [AList.lookup_insert] at hk
      cases hk
      cases hs
    · intro eff he
      cases he
  · rw [h]
    -- the accepted `BlobStart` is what fixes the directory
    have hplaced : Placed cfg (s.log ++ [(f, [.mkdir (finalDirFor cfg f.registry f.peer),
        .create (tmpPathFor (finalDirFor cfg f.registry f.peer) safe id)])]) (f.peer, id)
        ⟨safe, .file (tmpPathFor (finalDirFor cfg f.registry f.peer) safe id)
          (finalDirFor cfg f.registry f.peer) ⟨handle, false⟩, [], 0, size⟩
        (tmpPathFor (finalDirFor cfg f.registry f.peer) safe id) (finalDirFor cfg f.registry f.peer) :=
      ⟨⟨f.registry, by simp [admitted_snoc, admittedStep, hm, Effect.isSend], rfl⟩, rfl, safeBlobName_bare hsafe⟩
    refine ⟨placed_update hp (f.peer, id) (fun k hk => AList.lookup_insert_ne hk) (fun k hk => hlog k _ hk) ?_, ?_⟩
    · intro inc tmp dir file hk hs
      rw [AList.lookup_insert] at hk
      cases hk
      cases hs
      exact hplaced
    · intro eff he p hpe
      refine ⟨_, hkey, ?_⟩
      rcases List.mem_cons.1 he with rfl | he
      · cases hpe
      · rw [List.mem_singleton.1 he] at hpe
        rw [List.mem_singleton.1 hpe]
        exact hplaced.child_tmp

section NoStart

variable {sha256 : Bytes → Digest} {cfg : XferConfig} {s : History} {f : Frame}

/-- A placed entry stays placed through a frame that is no `BlobStart`. -/
private theorem Placed.snoc {k : XferKey} {inc : Incoming} {tmp dir : PathBuf} (h : Placed cfg s.log k inc tmp dir)
    (hno : ∀ id name size purpose, f.msg ≠ .blobStart id name size purpose) (effs : List Effect) :
    Placed cfg (s.log ++ [(f, effs)]) k inc tmp dir := by
  obtain ⟨⟨registry, hadm, hdir⟩, hpath, hbare⟩ := h
  exact ⟨⟨registry, by rw [admitted_snoc, admittedStep_other hno, hadm], hdir⟩, hpath, hbare⟩

/-- A frame that is no `BlobStart` and gives every entry the place it had keeps the entries placed. -/
private theorem placed_keep (hp : AllPlaced cfg s)
    (hno : ∀ id name size purpose, f.msg ≠ .blobStart id name size purpose) {rx : Rx} {effs : List Effect}
    (hold : ∀ k inc tmp dir file, rx.incoming.lookup k = some inc → inc.sink = .file tmp dir file →
      ∃ inc' file', s.rx.incoming.lookup k = some inc' ∧ inc'.sink = .file tmp dir file' ∧ inc'.name = inc.name) :
    AllPlaced cfg ⟨rx, s.log ++ [(f, effs)]⟩ := by
  intro k inc tmp dir file hk hs
  obtain ⟨inc', file', hk', hs', hname⟩ := hold k inc tmp dir file hk hs
  obtain ⟨hdir, hpath, hbare⟩ := (hp k inc' tmp dir file' hk' hs').snoc hno effs
  exact ⟨hdir, hname ▸ hpath, hname ▸ hbare⟩

/-- The entries left after one is erased were there before. -/
private theorem placed_erase (hp : AllPlaced cfg s)
    (hno : ∀ id name size purpose, f.msg ≠ .blobStart id name size purpose) (key : XferKey)
    {fs : FileSys PathBuf} {effs : List Effect} :
    AllPlaced cfg ⟨⟨s.rx.incoming.erase key, fs⟩, s.log ++ [(f, effs)]⟩ := by
  refine placed_keep hp hno fun k inc tmp dir file hk hs => ⟨inc, file, ?_, hs, rfl⟩
  have hk : (s.rx.incoming.erase key).lookup k = some inc := hk
  obtain ⟨-, hk⟩ := lookup_erase_eq_some.1 hk
  exact hk

private theorem placed_blobChunk {id : Nat} {data : Bytes} (hp : AllPlaced cfg s)
    (hm : f.msg = .blobChunk id data) : StepPlaced cfg s f (handled sha256 cfg s f) := by
  have hkey : f.key? = some (f.peer, id) := by simp only [Frame.key?, hm]
  have hno : ∀ id name size purpose, f.msg ≠ .blobStart id name size purpose := by simp [hm]
  have hout : handled sha256 cfg s f = onChunk f.io s.rx f.peer id data := by
    simp only [handled, hm, handleBlob]
  -- a chunk replaces an entry by one with the same place
  have hpush : ∀ inc sink fs effs, s.rx.incoming.lookup (f.peer, id) = some inc →
      (∀ tmp dir file, sink = .file tmp dir file → ∃ file', inc.sink = .file tmp dir file') →
      AllPlaced cfg ⟨⟨s.rx.incoming.insert (f.peer, id) (inc.push sink data), fs⟩, s.log ++ [(f, effs)]⟩ := by
    intro inc sink fs effs hl hsink
    refine placed_keep hp hno fun k inc' tmp dir file hk hs => ?_
    have hk : (s.rx.incoming.insert (f.peer, id) (inc.push sink data)).lookup k = some inc' := hk
    rcases lookup_insert_eq_some.1 hk with ⟨rfl, rfl⟩ | ⟨-, hk⟩
    · obtain ⟨file', hf⟩ := hsink tmp dir file hs
      exact ⟨inc, file', hl, hf, rfl⟩
    · exact ⟨inc', file, hk, hs, rfl⟩
  rw [hout]
  rcases onChunk_cases f.io s.rx f.peer id data with
    ⟨-, h⟩ | ⟨inc, tmp, dir, file, fs, file', hl, hs, -, h⟩ | ⟨inc, tmp, dir, file, fs, file', hl, hs, -, h⟩ |
    ⟨inc, buf, hl, hs, -, h⟩ | ⟨inc, buf, -, -, h⟩
  · rw [h]
    exact ⟨placed_keep hp hno fun k inc tmp dir file hk hs => ⟨inc, file, hk, hs, rfl⟩, fun eff he => by cases he⟩
  · rw [h]
    refine ⟨hpush inc _ fs _ hl ?_, ?_⟩
    · intro tmp' dir' file'' he
      cases he
      exact ⟨file, hs⟩
    · intro eff he p hpe
      rw [List.mem_singleton.1 he] at hpe
      rw [List.mem_singleton.1 hpe]
      exact ⟨_, hkey, ((hp _ inc tmp dir file hl hs).snoc hno _).child_tmp⟩
  · rw [h]
    refine ⟨placed_erase hp hno _, ?_⟩
    intro eff he p hpe
    refine ⟨_, hkey, ?_⟩
    have hpath : p = tmp := by
      rw [List.cons_append, List.mem_cons, List.mem_append, List.mem_singleton] at he
      rcases he with rfl | he | rfl
      · exact List.mem_singleton.1 hpe
      · exact tryRemove_files he hpe
      · cases hpe
    rw [hpath]
    exact ((hp _ inc tmp dir file hl hs).snoc hno _).child_tmp
  · rw [h]
    refine ⟨hpush inc _ _ _ hl ?_, fun eff he => by cases he⟩
    intro tmp' dir' file' he
    cases he
  · rw [h]
    refine ⟨placed_erase hp hno _, ?_⟩
    intro eff he p hpe
    rw [List.mem_singleton.1 he] at hpe
    cases hpe

private theorem placed_blobEnd {id : Nat} {sha : Digest} (hp : AllPlaced cfg s) (hm : f.msg = .blobEnd id sha) :
    StepPlaced cfg s f (handled sha256 cfg s f) := by
  have hkey : f.key? = some (f.peer, id) := by simp only [Frame.key?, hm]
  have hno : ∀ id name size purpose, f.msg ≠ .blobStart id name size purpose := by simp [hm]
  have hout : handled sha256 cfg s f = onEnd sha256 cfg f.registry f.io s.rx f.peer id sha := by
    simp only [handled, hm, handleBlob]
  -- removing the temp file and sending a refusal touches the temp path only
  have hremove : ∀ inc tmp dir file fs detail effs, s.rx.incoming.lookup (f.peer, id) = some inc →
      inc.sink = .file tmp dir file → ∀ eff ∈ (tryRemove f.io fs tmp).2 ++ [reject f.peer id detail],
      ∀ p ∈ eff.files, ∃ k, f.key? = some k ∧ ChildFor cfg k (s.log ++ [(f, effs)]) p := by
    intro inc tmp dir file fs detail effs hl hs eff he p hpe
    refine ⟨_, hkey, ?_⟩
    have hpath : p = tmp := by
      rw [List.mem_append, List.mem_singleton] at he
      rcases he with he | rfl
      · exact tryRemove_files he hpe
      · cases hpe
    rw [hpath]
    exact ((hp _ inc tmp dir file hl hs).snoc hno _).child_tmp
  rw [hout]
  rcases onEnd_cases sha256 cfg f.registry f.io s.rx f.peer id sha with
    ⟨-, h⟩ | ⟨inc, detail, hl, h⟩ | ⟨inc, bytes, hl, -, hs, h⟩ | ⟨inc, tmp, dir, file, fs, shown, hl, -, hs, -, h⟩ |
    ⟨inc, tmp, dir, file, detail, hl, hs, h⟩
  · rw [h]
    exact ⟨placed_keep hp hno fun k inc tmp dir file hk hs => ⟨inc, file, hk, hs, rfl⟩, fun eff he => by cases he⟩
  · rw [h]
    refine ⟨placed_erase hp hno _, ?_⟩
    cases hs : inc.sink with
    | memory buf =>
      intro eff he p hpe
      rw [cleanup, List.nil_append, List.mem_singleton] at he
      rw [he] at hpe
      cases hpe
    | file tmp dir file => exact hremove inc tmp dir file _ detail _ hl hs
  · rw [h]
    refine ⟨placed_erase hp hno _, ?_⟩
    intro eff he p hpe
    split at he
    · simp only [List.singleton_append, List.mem_cons, List.not_mem_nil, or_false] at he
      rcases he with rfl | rfl <;> cases hpe
    · rw [List.nil_append, List.mem_singleton] at he
      rw [he] at hpe
      cases hpe
  · rw [h]
    refine ⟨placed_erase hp hno _, ?_⟩
    intro eff he p hpe
    refine ⟨_, hkey, ?_⟩
    have hplaced := (hp _ inc tmp dir file hl hs).snoc hno [.rename tmp (uniqueDest s.rx.fs dir inc.name),
      .send f.peer (.blobAck id true inc.name), .notify s!"Received {inc.name}" shown]
    simp only [List.mem_cons, List.not_mem_nil, or_false] at he
    rcases he with rfl | rfl | rfl
    · rcases List.mem_cons.1 hpe with rfl | hpe
      · exact hplaced.child_tmp
      · rw [List.mem_singleton.1 hpe]
        obtain ⟨n, hn, heq⟩ := uniqueDest_child s.rx.fs dir hplaced.bare
        have hdest := hplaced.child hn
        rw [← heq] at hdest
        exact hdest
    · cases hpe
    · cases hpe
  · rw [h]
    exact ⟨placed_erase hp hno _, hremove inc tmp dir file _ detail _ hl hs⟩

end NoStart

/-- The step lemma: placed entries stay placed, and only their children are worked on. -/
theorem stepPlaced {sha256 : Bytes → Digest} {cfg : XferConfig} {s : History} {f : Frame}
    (hp : AllPlaced cfg s) : StepPlaced cfg s f (handled sha256 cfg s f) := by
  cases hm : f.msg with
  | blobStart id name size purpose => exact placed_blobStart hp hm
  | blobChunk id data => exact placed_blobChunk hp hm
  | blobEnd id sha => exact placed_blobEnd hp hm
  | _ =>
    have hout : handled sha256 cfg s f = (s.rx, []) := by simp only [handled, hm, handleBlob]
    rw [hout]
    exact ⟨placed_keep hp (by simp [hm]) fun k inc tmp dir file hk hs => ⟨inc, file, hk, hs, rfl⟩,
      fun eff he => by cases he⟩

/-- For every run, whatever the peers send, whatever the disk looks like to each frame and whatever fails: the next
frame works on direct children of the download directory only, under `pending` when the transfer was admitted for
confirmation. -/
theorem blob_paths_confined (sha256 : Bytes → Digest) (cfg : XferConfig) (fs : FileSys PathBuf)
    (es : List (FileSys PathBuf × Frame)) (s : History) (e : FileSys PathBuf × Frame)
    (hr : Run (fun s e => some (receiveOn sha256 cfg s e)) Always (History.start fs) es s) :
    Confined sha256 cfg s e := by
  have hp : AllPlaced cfg s := by
    refine hr.invariant (placed_start cfg fs) ?_
    intro s e t hs _ ht
    cases ht
    have hs' : AllPlaced cfg ⟨⟨s.rx.incoming, e.1⟩, s.log⟩ := hs
    exact (stepPlaced hs').kept
  have hp' : AllPlaced cfg ⟨⟨s.rx.incoming, e.1⟩, s.log⟩ := hp
  refine ⟨(stepPlaced hp').child, ?_⟩
  intro k inc tmp dir file hk hs n hn
  have hplaced := hp k inc tmp dir file hk hs
  exact hplaced.child (destNames_bare hplaced.bare hn)

/-- A hostile name, refused, and a plain one whose temp file is then written. -/
private def hostileFrames : List (FileSys PathBuf × Frame) :=
  [(FileSys.empty, ⟨"a", .blobStart 1 "../../etc/x" 1 .file, .absent, Io.ok⟩),
    (FileSys.empty, ⟨"a", .blobStart 2 " ..x " 1 .file, .absent, Io.ok⟩)]

theorem blob_paths_confined_hostile :
    Confined (fun _ => Vector.replicate 32 0) ⟨"d", .always, false⟩
      (hostileFrames.foldl (receiveOn (fun _ => Vector.replicate 32 0) ⟨"d", .always, false⟩)
        (History.start FileSys.empty))
      (FileSys.empty, ⟨"a", .blobChunk 2 [7], .absent, Io.ok⟩) :=
  blob_paths_confined _ _ FileSys.empty hostileFrames _ _
    (run_of_total (receiveOn _ _) (fun _ => True) _ hostileFrames fun _ _ => trivial)

/-! ### Caps -/

/-- The chunks accepted for `k` since its `BlobStart`, after one more frame: an accepted `BlobStart` begins anew, and
a chunk is accepted unless it is answered. -/
def acceptedStep (k : XferKey) (acc : List Bytes) (h : Frame × List Effect) : List Bytes :=
  match h.1.msg with
  | .blobStart id _ _ _ => if (h.1.peer, id) = k ∧ h.2.any Effect.isSend = false then [] else acc
  | .blobChunk id data => if (h.1.peer, id) = k ∧ h.2.any Effect.isSend = false then acc ++ [data] else acc
  | _ => acc

/-- The chunks accepted for `k` since its `BlobStart`. -/
def accepted (k : XferKey) (log : Log) : List Bytes := log.foldl (acceptedStep k) []

theorem accepted_snoc (k : XferKey) (log : Log) (h : Frame × List Effect) :
    accepted k (log ++ [h]) = acceptedStep k (accepted k log) h := by
  simp [accepted, List.foldl_append]

/-- The bounds on what the receiver holds, and the meaning of `written` and `hasher`. -/
structure Capped (s : History) : Prop where
  count : s.rx.incoming.keys.length ≤ maxConcurrentIncoming
  memory : ∀ k inc buf, s.rx.incoming.lookup k = some inc → inc.sink = .memory buf → buf.length ≤ maxMemBlob
  written : ∀ k inc, s.rx.incoming.lookup k = some inc → inc.written = (accepted k s.log).flatten.length
  hasher : ∀ k inc, s.rx.incoming.lookup k = some inc → inc.hasher = (accepted k s.log).flatten

/-- What the caps ask of one entry. -/
private structure EntryCapped (log : Log) (k : XferKey) (inc : Incoming) : Prop where
  memory : ∀ buf, inc.sink = .memory buf → buf.length ≤ maxMemBlob
  written : inc.written = (accepted k log).flatten.length
  hasher : inc.hasher = (accepted k log).flatten

theorem capped_start (fs : FileSys PathBuf) : Capped (History.start fs) where
  count := Nat.zero_le _
  memory k inc buf h := by cases h
  written k inc h := by cases h
  hasher k inc h := by cases h

private theorem Capped.entry {s : History} (hc : Capped s) {k : XferKey} {inc : Incoming}
    (hk : s.rx.incoming.lookup k = some inc) : EntryCapped s.log k inc :=
  ⟨fun buf => hc.memory k inc buf hk, hc.written k inc hk, hc.hasher k inc hk⟩

/-- A step that changes at most the entry of `key` keeps the caps when it keeps the number of entries and the entry
of `key` is capped. -/
private theorem Capped.update {s : History} (hc : Capped s) {rx : Rx} {h : Frame × List Effect} (key : XferKey)
    (hother : ∀ k, k ≠ key → rx.incoming.lookup k = s.rx.incoming.lookup k)
    (hlog : ∀ k, k ≠ key → acceptedStep k (accepted k s.log) h = accepted k s.log)
    (hcount : rx.incoming.keys.length ≤ maxConcurrentIncoming)
    (hkey : ∀ inc, rx.incoming.lookup key = some inc → EntryCapped (s.log ++ [h]) key inc) :
    Capped ⟨rx, s.log ++ [h]⟩ := by
  have hall : ∀ k inc, rx.incoming.lookup k = some inc → EntryCapped (s.log ++ [h]) k inc := by
    intro k inc hk
    by_cases hkk : k = key
    · subst hkk
      exact hkey inc hk
    · rw [hother k hkk] at hk
      obtain ⟨hmem, hw, hh⟩ := hc.entry hk
      exact ⟨hmem, by rw [accepted_snoc, hlog k hkk, hw], by rw [accepted_snoc, hlog k hkk, hh]⟩
  exact ⟨hcount, fun k inc buf hk => (hall k inc hk).memory buf, fun k inc hk => (hall k inc hk).written,
    fun k inc hk => (hall k inc hk).hasher⟩

/-- The entry of `key` is gone. -/
private theorem Capped.drop {s : History} (hc : Capped s) {fs : FileSys PathBuf} {h : Frame × List Effect}
    {key : XferKey} (hlog : ∀ k, k ≠ key → acceptedStep k (accepted k s.log) h = accepted k s.log) :
    Capped ⟨⟨s.rx.incoming.erase key, fs⟩, s.log ++ [h]⟩ := by
  refine hc.update key (fun k hk => AList.lookup_erase_ne hk) hlog ?_ fun inc hk => ?_
  · exact le_trans (length_keys_erase_le s.rx.incoming key) hc.count
  · rw [AList.lookup_erase] at hk
    cases hk

/-- The entries and what was accepted for them stay as they are. -/
private theorem Capped.keep {s : History} (hc : Capped s) {fs : FileSys PathBuf} {h : Frame × List Effect}
    (hlog : ∀ k, (s.rx.incoming.lookup k).isSome → acceptedStep k (accepted k s.log) h = accepted k s.log) :
    Capped ⟨⟨s.rx.incoming, fs⟩, s.log ++ [h]⟩ := by
  have hall : ∀ k inc, s.rx.incoming.lookup k = some inc → EntryCapped (s.log ++ [h]) k inc := by
    intro k inc hk
    obtain ⟨hmem, hw, hh⟩ := hc.entry hk
    have hlog := hlog k (by rw [hk]; rfl)
    exact ⟨hmem, by rw [accepted_snoc, hlog, hw], by rw [accepted_snoc, hlog, hh]⟩
  exact ⟨hc.count, fun k inc buf hk => (hall k inc hk).memory buf, fun k inc hk => (hall k inc hk).written,
    fun k inc hk => (hall k inc hk).hasher⟩

section CapStep

variable {sha256 : Bytes → Digest} {cfg : XferConfig} {s : History} {f : Frame}

private theorem capped_blobStart {id size : Nat} {name : String} {purpose : BlobPurpose} (hc : Capped s)
    (hm : f.msg = .blobStart id name size purpose) : Capped (receive sha256 cfg s f) := by
  have hout : handled sha256 cfg s f = onStart cfg f.registry f.io s.rx f.peer id name size purpose := by
    simp only [handled, hm, handleBlob]
  have hlog : ∀ k effs, k ≠ (f.peer, id) → acceptedStep k (accepted k s.log) (f, effs) = accepted k s.log := by
    intro k effs hne
    simp only [acceptedStep, hm]
    exact if_neg (fun h => hne h.1.symm)
  have hrefused : ∀ k effs, effs.any Effect.isSend = true →
      acceptedStep k (accepted k s.log) (f, effs) = accepted k s.log := by
    intro k effs hsend
    simp only [acceptedStep, hm, hsend]
    exact if_neg (fun h => by cases h.2)
  -- an accepted start opens an empty entry below the cap
  have hopen : ∀ name sink fs effs, s.rx.incoming.keys.length < maxConcurrentIncoming →
      effs.any Effect.isSend = false → (∀ buf, sink = .memory buf → buf.length ≤ maxMemBlob) →
      Capped ⟨⟨s.rx.incoming.insert (f.peer, id) ⟨name, sink, [], 0, size⟩, fs⟩, s.log ++ [(f, effs)]⟩ := by
    intro name sink fs effs hlen hsend hmem
    refine hc.update (f.peer, id) (fun k hk => AList.lookup_insert_ne hk) (fun k hk => hlog k _ hk) ?_ ?_
    · have hle := length_keys_insert_le s.rx.incoming (f.peer, id) ⟨name, sink, [], 0, size⟩
      have hgoal : (s.rx.incoming.insert (f.peer, id) ⟨name, sink, [], 0, size⟩).keys.length ≤
        maxConcurrentIncoming := by omega
      exact hgoal
    · intro inc hk
      rw [AList.lookup_insert] at hk
      cases hk
      have hnil : accepted (f.peer, id) (s.log ++ [(f, effs)]) = [] := by
        simp [accepted_snoc, acceptedStep, hm, hsend]
      exact ⟨hmem, by rw [hnil]; rfl, by rw [hnil]; rfl⟩
  unfold receive
  rw [hout]
  rcases onStart_cases cfg f.registry f.io s.rx f.peer id name size purpose with
    ⟨detail, h⟩ | ⟨fs, detail, -, h⟩ | ⟨-, hlen, -, h⟩ | ⟨safe, fs, fs', handle, -, -, hlen, -, -, h⟩
  · rw [h]
    exact hc.keep fun k _ => hrefused k _ rfl
  · rw [h]
    exact hc.keep fun k _ => hrefused k _ rfl
  · rw [h]
    refine hopen _ _ _ _ hlen rfl fun buf hbuf => ?_
    cases hbuf
    exact Nat.zero_le _
  · rw [h]
    exact hopen _ _ _ _ hlen rfl (fun buf hbuf => by cases hbuf)

private theorem capped_blobChunk {id : Nat} {data : Bytes} (hc : Capped s) (hm : f.msg = .blobChunk id data) :
    Capped (receive sha256 cfg s f) := by
  have hout : handled sha256 cfg s f = onChunk f.io s.rx f.peer id data := by
    simp only [handled, hm, handleBlob]
  have hlog : ∀ k effs, k ≠ (f.peer, id) → acceptedStep k (accepted k s.log) (f, effs) = accepted k s.log := by
    intro k effs hne
    simp only [acceptedStep, hm]
    exact if_neg (fun h => hne h.1.symm)
  -- an accepted chunk is counted and hashed
  have hpush : ∀ inc sink fs effs, s.rx.incoming.lookup (f.peer, id) = some inc → effs.any Effect.isSend = false →
      (∀ buf, sink = .memory buf → buf.length ≤ maxMemBlob) →
      Capped ⟨⟨s.rx.incoming.insert (f.peer, id) (inc.push sink data), fs⟩, s.log ++ [(f, effs)]⟩ := by
    intro inc sink fs effs hl hsend hmem
    refine hc.update (f.peer, id) (fun k hk => AList.lookup_insert_ne hk) (fun k hk => hlog k _ hk) ?_ ?_
    · exact le_of_eq_of_le (length_keys_replace hl _) hc.count
    · intro inc' hk
      rw [AList.lookup_insert] at hk
      cases hk
      have hsnoc : accepted (f.peer, id) (s.log ++ [(f, effs)]) = accepted (f.peer, id) s.log ++ [data] := by
        simp [accepted_snoc, acceptedStep, hm, hsend]
      refine ⟨hmem, ?_, ?_⟩
      · rw [hsnoc, Incoming.push, hc.written _ inc hl]
        simp
      · rw [hsnoc, Incoming.push, hc.hasher _ inc hl]
        simp
  unfold receive
  rw [hout]
  rcases onChunk_cases f.io s.rx f.peer id data with
    ⟨hl, h⟩ | ⟨inc, tmp, dir, file, fs, file', hl, hs, -, h⟩ | ⟨inc, tmp, dir, file, fs, file', -, -, -, h⟩ |
    ⟨inc, buf, hl, hs, hlen, h⟩ | ⟨inc, buf, -, -, h⟩
  · rw [h]
    refine hc.keep fun k hk => hlog k _ ?_
    rintro rfl
    rw [hl] at hk
    cases hk
  · rw [h]
    exact hpush inc _ _ _ hl rfl (fun buf hbuf => by cases hbuf)
  · rw [h]
    exact hc.drop fun k hk => hlog k _ hk
  · rw [h]
    refine hpush inc _ _ _ hl rfl fun buf' hbuf => ?_
    cases hbuf
    rw [List.length_append]
    exact hlen
  · rw [h]
    exact hc.drop fun k hk => hlog k _ hk

private theorem capped_blobEnd {id : Nat} {sha : Digest} (hc : Capped s) (hm : f.msg = .blobEnd id sha) :
    Capped (receive sha256 cfg s f) := by
  have hout : handled sha256 cfg s f = onEnd sha256 cfg f.registry f.io s.rx f.peer id sha := by
    simp only [handled, hm, handleBlob]
  have hlog : ∀ k effs, acceptedStep k (accepted k s.log) (f, effs) = accepted k s.log := by
    intro k effs
    simp only [acceptedStep, hm]
  unfold receive
  rw [hout]
  rcases onEnd_cases sha256 cfg f.registry f.io s.rx f.peer id sha with
    ⟨-, h⟩ | ⟨inc, detail, -, h⟩ | ⟨inc, bytes, -, -, -, h⟩ | ⟨inc, tmp, dir, file, fs, shown, -, -, -, -, h⟩ |
    ⟨inc, tmp, dir, file, detail, -, -, h⟩
  · rw [h]
    exact hc.keep fun k _ => hlog k _
  all_goals
    rw [h]
    exact hc.drop fun k _ => hlog k _

/-- The step lemma: every frame keeps the caps. -/
theorem capped_receive (hc : Capped s) : Capped (receive sha256 cfg s f) := by
  cases hm : f.msg with
  | blobStart id name size purpose => exact capped_blobStart hc hm
  | blobChunk id data => exact capped_blobChunk hc hm
  | blobEnd id sha => exact capped_blobEnd hc hm
  | _ =>
    have hout : handled sha256 cfg s f = (s.rx, []) := by simp only [handled, hm, handleBlob]
    unfold receive
    rw [hout]
    exact hc.keep fun k _ => by simp only [acceptedStep, hm]

end CapStep

/-- For every run, whatever the peers send and whatever fails: at most sixteen transfers are open, an image in memory
is within the cap whatever size was declared, and each entry has counted and hashed the chunks accepted for it. -/
theorem blob_caps_hold (sha256 : Bytes → Digest) (cfg : XferConfig) (fs : FileSys PathBuf)
    (es : List (FileSys PathBuf × Frame)) (s : History)
    (hr : Run (fun s e => some (receiveOn sha256 cfg s e)) Always (History.start fs) es s) : Capped s := by
  refine hr.invariant (capped_start fs) ?_
  intro s e t hs _ ht
  cases ht
  have hs' : Capped ⟨⟨s.rx.incoming, e.1⟩, s.log⟩ := ⟨hs.count, hs.memory, hs.written, hs.hasher⟩
  exact capped_receive hs'

theorem blob_caps_hold_hostile :
    Capped (hostileFrames.foldl (receiveOn (fun _ => Vector.replicate 32 0) ⟨"d", .always, false⟩)
      (History.start FileSys.empty)) :=
  blob_caps_hold _ _ FileSys.empty hostileFrames _
    (run_of_total (receiveOn _ _) (fun _ => True) _ hostileFrames fun _ _ => trivial)

end Qdrop
