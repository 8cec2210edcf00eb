import Qdrop.FileXfer.Temps

/-!
# The verdict on one transfer

One transfer is a `BlobStart`, its chunks and a `BlobEnd`, between arbitrary frames of other transfers.  Without
faults the receiver accepts it exactly when the name is safe, the digest fits and the declared size is zero or right
(`transfer_verdict`): a declared size of zero is not compared.
-/

namespace Qdrop

open Lib

/-- `k` was answered with `ok`. -/
def Answered (k : XferKey) (ok : Bool) (log : Log) : Prop :=
  ∃ h ∈ log, ∃ detail, Effect.send k.1 (.blobAck k.2 ok detail) ∈ h.2

/-- What a frame carries for `k`. -/
def Frame.bytesFor (k : XferKey) (f : Frame) : Bytes :=
  match f.msg with
  | .blobChunk id data => if (f.peer, id) = k then data else []
  | _ => []

/-- The concatenated chunks of `k`. -/
def chunksFor (k : XferKey) (frames : List Frame) : Bytes := frames.flatMap (Frame.bytesFor k)

/-- The temp path of the transfer `k` of a file `name`, if the name is accepted. -/
def tempPath? (cfg : XferConfig) (registry : PeersFile) (k : XferKey) (name : String) : Option PathBuf :=
  (safeBlobName name).map fun safe => tmpPathFor (finalDirFor cfg registry k.1) safe k.2

/-- The frame does not open the temp file `p`. -/
def OpensOther (cfg : XferConfig) (s : History) (f : Frame) (p : Option PathBuf) : Prop :=
  ∀ q, OpensTemp cfg s f q → p ≠ some q

/-- A frame of another transfer, with another temp path. -/
def Foreign (cfg : XferConfig) (k : XferKey) (p : Option PathBuf) (s : History) (f : Frame) : Prop :=
  f.key? ≠ some k ∧ OpensOther cfg s f p

/-- A frame of another transfer, with another temp path, or a chunk of `k` that is written without a fault. -/
def Amid (cfg : XferConfig) (k : XferKey) (p : Option PathBuf) (s : History) (f : Frame) : Prop :=
  Foreign cfg k p s f ∨ (f.peer = k.1 ∧ f.io = Io.ok ∧ ∃ data, f.msg = .blobChunk k.2 data)

/-- The transfer `k` has put a file under its name. -/
def InPlace (k : XferKey) (s : History) : Prop :=
  ∃ h ∈ s.log, h.1.key? = some k ∧ ∃ tmp dest, Effect.rename tmp dest ∈ h.2 ∧ HasFile s.rx.fs dest

/-- The transfer `k` has put no file under a name, and the temp files it created are gone. -/
def LeftNothing (k : XferKey) (s : History) : Prop :=
  ∀ h ∈ s.log, h.1.key? = some k → (∀ tmp dest, Effect.rename tmp dest ∉ h.2) ∧
    ∀ p, Effect.create p ∈ h.2 → ¬ HasFile s.rx.fs p

/-- The verdict on `k` is `accept`, and the file is in place or nothing is left accordingly. -/
structure Decided (k : XferKey) (accept : Prop) (s : History) : Prop where
  accepted : accept → Answered k true s.log ∧ ¬ Answered k false s.log ∧ InPlace k s
  refused : ¬ accept → Answered k false s.log ∧ ¬ Answered k true s.log ∧ LeftNothing k s

section Others

variable {sha256 : Bytes → Digest} {cfg : XferConfig} {s : History} {f : Frame} {k : XferKey}

/-- A frame answers its own transfer only. -/
private theorem key_of_ack {p : DeviceId} {id : Nat} {ok : Bool} {detail : String}
    (h : Effect.send p (.blobAck id ok detail) ∈ (handled sha256 cfg s f).2) : f.key? = some (p, id) := by
  have hremove : ∀ (fs : FileSys PathBuf) (q : PathBuf), Effect.send p (.blobAck id ok detail) ∉
      (tryRemove f.io fs q).2 := by
    intro fs q h
    cases mem_tryRemove h
  cases hm : f.msg with
  | blobStart id' name size purpose =>
    simp only [handled, hm, handleBlob] at h
    rcases onStart_cases cfg f.registry f.io s.rx f.peer id' name size purpose with
      ⟨d, heq⟩ | ⟨fs, d, -, heq⟩ | ⟨-, -, -, heq⟩ | ⟨safe, fs, fs', handle, -, -, -, -, -, heq⟩
    all_goals
      rw [heq] at h
      simp only [reject, List.mem_cons, Effect.send.injEq, Message.blobAck.injEq, reduceCtorEq, List.not_mem_nil,
        or_false, false_or] at h
    · simp only [Frame.key?, hm, h]
    · simp only [Frame.key?, hm, h]
  | blobChunk id' data =>
    simp only [handled, hm, handleBlob] at h
    rcases onChunk_cases f.io s.rx f.peer id' data with
      ⟨-, heq⟩ | ⟨inc, tmp, dir, file, fs, file', -, -, -, heq⟩ | ⟨inc, tmp, dir, file, fs, file', -, -, -, heq⟩ |
      ⟨inc, buf, -, -, -, heq⟩ | ⟨inc, buf, -, -, heq⟩
    all_goals
      rw [heq] at h
      simp only [reject, List.cons_append, List.mem_cons, List.mem_append, hremove, Effect.send.injEq,
        Message.blobAck.injEq, reduceCtorEq, List.not_mem_nil, or_false, false_or] at h
    · simp only [Frame.key?, hm, h]
    · simp only [Frame.key?, hm, h]
  | blobEnd id' sha =>
    simp only [handled, hm, handleBlob] at h
    rcases onEnd_cases sha256 cfg f.registry f.io s.rx f.peer id' sha with
      ⟨-, heq⟩ | ⟨inc, d, -, heq⟩ | ⟨inc, bytes, -, -, -, heq⟩ | ⟨inc, tmp, dir, file, fs, shown, -, -, -, -, heq⟩ |
      ⟨inc, tmp, dir, file, d, -, -, heq⟩
    · rw [heq] at h
      cases h
    · rw [heq] at h
      have hclean : Effect.send p (.blobAck id ok detail) ∉ (cleanup f.io s.rx.fs inc.sink).2 := by
        intro h
        obtain ⟨_, h⟩ := mem_cleanup h
        cases h
      simp only [reject, List.mem_append, hclean, List.mem_singleton, Effect.send.injEq, Message.blobAck.injEq,
        false_or] at h
      simp only [Frame.key?, hm, h]
    · rw [heq] at h
      simp only [List.mem_append, List.mem_singleton, Effect.send.injEq, Message.blobAck.injEq] at h
      rcases h with h | h
      · split at h <;> simp at h
      · simp only [Frame.key?, hm, h]
    · rw [heq] at h
      simp only [List.mem_cons, Effect.send.injEq, Message.blobAck.injEq, reduceCtorEq, List.not_mem_nil, or_false,
        false_or] at h
      simp only [Frame.key?, hm, h]
    · rw [heq] at h
      simp only [reject, List.mem_append, hremove, List.mem_singleton, Effect.send.injEq, Message.blobAck.injEq,
        false_or] at h
      simp only [Frame.key?, hm, h]
  | _ =>
    simp only [handled, hm, handleBlob] at h
    cases h

/-- A frame of another transfer leaves the entry of `k` alone. -/
private theorem lookup_of_foreign (hkey : f.key? ≠ some k) {out : Rx × List Effect}
    (ho : FrameOutcome sha256 cfg s f out) : out.1.incoming.lookup k = s.rx.incoming.lookup k := by
  have hne : ∀ {k₀}, f.key? = some k₀ → k ≠ k₀ := by
    rintro k₀ hk rfl
    exact hkey hk
  cases ho with
  | idle => rfl
  | image hk => exact AList.lookup_insert_ne (hne hk)
  | opened hk => exact AList.lookup_insert_ne (hne hk)
  | written hk => exact AList.lookup_insert_ne (hne hk)
  | buffered hk => exact AList.lookup_insert_ne (hne hk)
  | dropped hk => exact AList.lookup_erase_ne (hne hk)
  | forgotten hk => exact AList.lookup_erase_ne (hne hk)
  | placed hk => exact AList.lookup_erase_ne (hne hk)

/-- No transfer but `k` has the temp file `p`. -/
def OnlyOf (st : Rx) (k : XferKey) (p : PathBuf) : Prop := ∀ k', k' ≠ k → ¬ TempOf st k' p

private theorem onlyOf_outcome {p : PathBuf} (h : OnlyOf s.rx k p) (hopen : f.key? ≠ some k → ¬ OpensTemp cfg s f p)
    {out : Rx × List Effect} (ho : FrameOutcome sha256 cfg s f out) : OnlyOf out.1 k p := by
  intro k' hk' hp
  rcases tempOf_outcome ho hp with hp | ⟨hkey, hp⟩
  · exact h k' hk' hp
  · refine hopen ?_ hp
    rw [hkey]
    exact fun he => hk' (Option.some.inj he)

/-- A frame of another transfer leaves a file at the temp path of `k`. -/
private theorem hasFile_of_foreign {p : PathBuf} (hkey : f.key? ≠ some k) (hopen : ¬ OpensTemp cfg s f p)
    (honly : OnlyOf s.rx k p) (hfile : HasFile s.rx.fs p) {out : Rx × List Effect}
    (ho : FrameOutcome sha256 cfg s f out) : HasFile out.1.fs p := by
  -- the temp file of another transfer is at another path
  have hne : ∀ {k₀ inc q dir file}, f.key? = some k₀ → s.rx.incoming.lookup k₀ = some inc →
      inc.sink = .file q dir file → p ≠ q := by
    rintro k₀ inc q dir file hk hl hs rfl
    refine honly k₀ ?_ ⟨inc, dir, file, hl, hs⟩
    rintro rfl
    exact hkey hk
  obtain ⟨i, hi⟩ := hfile
  cases ho with
  | idle hsame => exact ⟨i, (hsame p i).2 hi⟩
  | image => exact ⟨i, hi⟩
  | @opened k₀ inc q dir fs handle hk hq hs hnode hother hino hdata =>
    refine ⟨i, (hother p i ?_).2 hi⟩
    rintro rfl
    exact hopen hq
  | written hk hl hs hs' hino hnode hdata => exact ⟨i, by rw [hnode]; exact hi⟩
  | buffered => exact ⟨i, hi⟩
  | @dropped k₀ inc q dir file fs before after hk hl hs hnode hdata hbefore hafter =>
    refine ⟨i, ?_⟩
    rw [(tryRemove_frame f.io fs q).1 p (hne hk hl hs), hnode]
    exact hi
  | forgotten => exact ⟨i, hi⟩
  | @placed k₀ inc q dir file fs after hk hl hs hfin hren hafter =>
    obtain ⟨⟨j, -, hdest⟩, -, hother, -⟩ := FileSys.rename_spec hren
    by_cases hp : p = uniqueDest s.rx.fs dir inc.name
    · exact ⟨j, by rw [hp]; exact hdest⟩
    · exact ⟨i, by rw [hother p (hne hk hl hs) hp]; exact hi⟩

end Others

/-! ### While the chunks arrive -/

/-- The transfer `k` is open, and `bytes` have been received and hashed for it. -/
structure Midway (s : History) (k : XferKey) (tmp dir : PathBuf) (safe : String) (size : Nat) (bytes : Bytes) :
    Prop where
  entry : ∃ inc file, s.rx.incoming.lookup k = some inc ∧ inc.sink = .file tmp dir file ∧ file.deferred = false ∧
    inc.name = safe ∧ inc.declared = size ∧ inc.hasher = bytes ∧ inc.written = bytes.length
  onDisk : HasFile s.rx.fs tmp
  only : OnlyOf s.rx k tmp

/-- The frames of `k` in the log have made the directory, created the temp file or written to it, and no more. -/
def Unfinished (k : XferKey) (tmp dir : PathBuf) (log : Log) : Prop :=
  ∀ h ∈ log, h.1.key? = some k → ∀ eff ∈ h.2, eff = .mkdir dir ∨ eff = .create tmp ∨ eff = .write tmp

/-- The transfer `k` is not open, and its frames in the log have done no more than be refused. -/
structure Absent (s : History) (k : XferKey) : Prop where
  entry : s.rx.incoming.lookup k = none
  quiet : ∀ h ∈ s.log, h.1.key? = some k → ∀ eff ∈ h.2, ∃ detail, eff = reject k.1 k.2 detail

/-- Only frames of `k` answer `k`. -/
def AnswersOwn (log : Log) : Prop :=
  ∀ h ∈ log, ∀ p id ok detail, Effect.send p (.blobAck id ok detail) ∈ h.2 → h.1.key? = some (p, id)

section Stages

variable {sha256 : Bytes → Digest} {cfg : XferConfig} {s : History} {f : Frame} {k : XferKey}

theorem chunksFor_snoc (k : XferKey) (frames : List Frame) (f : Frame) :
    chunksFor k (frames ++ [f]) = chunksFor k frames ++ f.bytesFor k := by
  simp [chunksFor, List.flatMap_append]

private theorem bytesFor_of_foreign (h : f.key? ≠ some k) : f.bytesFor k = [] := by
  unfold Frame.bytesFor
  split
  · rename_i id data hm
    refine if_neg ?_
    rintro rfl
    exact h (by simp only [Frame.key?, hm])
  · rfl

private theorem answersOwn_receive (h : AnswersOwn s.log) : AnswersOwn (receive sha256 cfg s f).log := by
  intro h' hmem p id ok detail hsend
  rcases List.mem_append.1 hmem with hmem | hmem
  · exact h h' hmem p id ok detail hsend
  · rw [List.mem_singleton.1 hmem] at hsend ⊢
    exact key_of_ack hsend

/-- A frame of another transfer keeps an open transfer as it is. -/
private theorem midway_foreign {tmp dir : PathBuf} {safe : String} {size : Nat} {bytes : Bytes}
    (h : Midway s k tmp dir safe size bytes) (hf : Foreign cfg k (some tmp) s f) :
    Midway (receive sha256 cfg s f) k tmp dir safe size bytes := by
  have hopen : ¬ OpensTemp cfg s f tmp := fun hopen => hf.2 tmp hopen rfl
  obtain ⟨inc, file, hl, hrest⟩ := h.entry
  refine ⟨⟨inc, file, ?_, hrest⟩, ?_, ?_⟩
  · exact (lookup_of_foreign hf.1 (frameOutcome sha256 cfg s f)).trans hl
  · exact hasFile_of_foreign hf.1 hopen h.only h.onDisk (frameOutcome sha256 cfg s f)
  · exact onlyOf_outcome h.only (fun _ => hopen) (frameOutcome sha256 cfg s f)

/-- A chunk that is written without a fault is counted and hashed. -/
private theorem midway_chunk (sha256 : Bytes → Digest) (cfg : XferConfig) {tmp dir : PathBuf}
    {safe : String} {size : Nat} {bytes data : Bytes}
    (h : Midway s k tmp dir safe size bytes) (hpeer : f.peer = k.1) (hio : f.io = Io.ok)
    (hm : f.msg = .blobChunk k.2 data) :
    Midway (receive sha256 cfg s f) k tmp dir safe size (bytes ++ data) ∧
      (handled sha256 cfg s f).2 = [.write tmp] := by
  obtain ⟨peer, id⟩ := k
  obtain rfl : f.peer = peer := hpeer
  have hm : f.msg = .blobChunk id data := hm
  obtain ⟨inc, file, hl, hs, hdef, hname, hdecl, hhash, hwritten⟩ := h.entry
  obtain ⟨fs, file', hw, hdef'⟩ : ∃ fs file', writeAll s.rx.fs file data none = (fs, file', true) ∧
      file'.deferred = false := by
    by_cases hd : data = []
    · exact ⟨s.rx.fs, file, by simp [writeAll, hd], hdef⟩
    · refine ⟨(s.rx.fs.write file.handle data).1, ⟨(s.rx.fs.write file.handle data).2, false⟩, ?_, rfl⟩
      simp only [writeAll, hd, hdef, if_false, Bool.false_eq_true]
  have hout : handled sha256 cfg s f = (⟨s.rx.incoming.insert (f.peer, id)
      (inc.push (.file tmp dir file') data), fs⟩, [.write tmp]) := by
    simp only [handled, hm, handleBlob, onChunk, hl, hs, hio, Io.ok, hw]
  have hnode := (writeAll_frame hw).1
  refine ⟨⟨?_, ?_, ?_⟩, by rw [hout]⟩
  · refine ⟨inc.push (.file tmp dir file') data, file', ?_, rfl, hdef', hname, hdecl, ?_, ?_⟩
    · simp only [receive, hout, AList.lookup_insert]
    · simp only [Incoming.push, hhash]
    · simp only [Incoming.push, hwritten, List.length_append]
  · obtain ⟨i, hi⟩ := h.onDisk
    refine ⟨i, ?_⟩
    simp only [receive, hout, hnode]
    exact hi
  · refine onlyOf_outcome h.only (fun hne => (hne ?_).elim) (frameOutcome sha256 cfg s f)
    simp only [Frame.key?, hm]

/-- A frame that belongs to no open transfer leaves it so. -/
private theorem absent_receive {p : Option PathBuf} (h : Absent s k) (hf : Amid cfg k p s f) :
    Absent (receive sha256 cfg s f) k := by
  rcases hf with ⟨hkey, -⟩ | ⟨hpeer, -, data, hm⟩
  · refine ⟨(lookup_of_foreign hkey (frameOutcome sha256 cfg s f)).trans h.entry, ?_⟩
    intro h' hmem hk'
    rcases List.mem_append.1 hmem with hmem | hmem
    · exact h.quiet h' hmem hk'
    · rw [List.mem_singleton.1 hmem] at hk'
      exact absurd hk' hkey
  · obtain ⟨peer, id⟩ := k
    obtain rfl : f.peer = peer := hpeer
    have hm : f.msg = .blobChunk id data := hm
    have hout : handled sha256 cfg s f = (s.rx, []) := by
      simp only [handled, hm, handleBlob, onChunk, h.entry]
    refine ⟨by simp only [receive, hout]; exact h.entry, ?_⟩
    intro h' hmem hk' eff he
    rcases List.mem_append.1 hmem with hmem | hmem
    · exact h.quiet h' hmem hk' eff he
    · rw [List.mem_singleton.1 hmem, hout] at he
      cases he

/-- The run lemma for an accepted transfer: after every frame the chunks so far have been counted and hashed. -/
private theorem midway_run {tmp dir : PathBuf} {safe : String} {size : Nat} {mid : List Frame} {t : History}
    (hr : Run (fun s f => some (receive sha256 cfg s f)) (Amid cfg k (some tmp)) s mid t)
    (h : Midway s k tmp dir safe size []) (hq : Unfinished k tmp dir s.log) :
    Midway t k tmp dir safe size (chunksFor k mid) ∧ Unfinished k tmp dir t.log := by
  induction hr with
  | nil => exact ⟨h, hq⟩
  | @snoc t u mid f _ hok ht ih =>
    cases ht
    obtain ⟨hm, hquiet⟩ := ih
    rw [chunksFor_snoc]
    rcases hok with hf | ⟨hpeer, hio, data, hmsg⟩
    · rw [bytesFor_of_foreign hf.1, List.append_nil]
      refine ⟨midway_foreign hm hf, ?_⟩
      intro h' hmem hk'
      rcases List.mem_append.1 hmem with hmem | hmem
      · exact hquiet h' hmem hk'
      · rw [List.mem_singleton.1 hmem] at hk'
        exact absurd hk' hf.1
    · obtain ⟨hnext, heffs⟩ := midway_chunk sha256 cfg hm hpeer hio hmsg
      have hbytes : f.bytesFor k = data := by
        have hkey : (f.peer, k.2) = k := by rw [hpeer]
        simp only [Frame.bytesFor, hmsg, hkey, if_true]
      rw [hbytes]
      refine ⟨hnext, ?_⟩
      intro h' hmem hk' eff he
      rcases List.mem_append.1 hmem with hmem | hmem
      · exact hquiet h' hmem hk' eff he
      · rw [List.mem_singleton.1 hmem, heffs, List.mem_singleton] at he
        exact Or.inr (Or.inr he)

/-- Frames of other transfers leave a transfer that is not open as it is. -/
private theorem absent_run {p : Option PathBuf} {mid : List Frame} {t : History}
    (hr : Run (fun s f => some (receive sha256 cfg s f)) (Amid cfg k p) s mid t) (h : Absent s k) : Absent t k := by
  refine hr.invariant (I := fun s => Absent s k) h ?_
  rintro s f t hs hok ht
  cases ht
  exact absent_receive hs hok

private theorem answersOwn_run {ok : History → Frame → Prop} {frames : List Frame} {t : History}
    (hr : Run (fun s f => some (receive sha256 cfg s f)) ok s frames t) (h : AnswersOwn s.log) :
    AnswersOwn t.log := by
  refine hr.invariant (I := fun s => AnswersOwn s.log) h ?_
  rintro s f t hs - ht
  cases ht
  exact answersOwn_receive hs

/-- What has been logged stays logged. -/
private theorem log_run {ok : History → Frame → Prop} {frames : List Frame} {t : History} {h : Frame × List Effect}
    (hr : Run (fun s f => some (receive sha256 cfg s f)) ok s frames t) (hmem : h ∈ s.log) : h ∈ t.log := by
  refine hr.invariant (I := fun s => h ∈ s.log) hmem ?_
  rintro s f t hs - ht
  cases ht
  exact List.mem_append_left _ hs

/-- Before its `BlobStart` a transfer is not open, no other has its temp file, and the log has no frame of it. -/
private theorem before_start {fs : FileSys PathBuf} {p : Option PathBuf} {pre : List Frame}
    (hr : Run (fun s f => some (receive sha256 cfg s f)) (Foreign cfg k p) (History.start fs) pre s) :
    s.rx.incoming.lookup k = none ∧ (∀ q, p = some q → OnlyOf s.rx k q) ∧ ∀ h ∈ s.log, h.1.key? ≠ some k := by
  refine hr.invariant (I := fun s => s.rx.incoming.lookup k = none ∧ (∀ q, p = some q → OnlyOf s.rx k q) ∧
    ∀ h ∈ s.log, h.1.key? ≠ some k) ⟨rfl, ?_, fun h hmem => by cases hmem⟩ ?_
  · rintro q - k' - ⟨inc, dir, file, hl, -⟩
    cases hl
  · rintro s f t ⟨hl, honly, hlog⟩ hok ht
    cases ht
    refine ⟨(lookup_of_foreign hok.1 (frameOutcome sha256 cfg s f)).trans hl, fun q hq => ?_, fun h hmem => ?_⟩
    · exact onlyOf_outcome (honly q hq) (fun _ hopen => hok.2 q hopen hq) (frameOutcome sha256 cfg s f)
    · rcases List.mem_append.1 hmem with hmem | hmem
      · exact hlog h hmem
      · rw [List.mem_singleton.1 hmem]
        exact hok.1

/-- The end of a transfer that was refused at its start. -/
private theorem decided_absent {accept : Prop} {sha : Digest} (ha : ¬ accept) (hown : AnswersOwn s.log)
    (habsent : Absent s k) {h : Frame × List Effect} {detail : String} (hmem : h ∈ s.log)
    (hsent : reject k.1 k.2 detail ∈ h.2) (hpeer : f.peer = k.1) (hm : f.msg = .blobEnd k.2 sha) :
    Decided k accept (receive sha256 cfg s f) := by
  have hown' : AnswersOwn (receive sha256 cfg s f).log := answersOwn_receive hown
  -- the `BlobEnd` finds no entry
  have hquiet : ∀ h ∈ (receive sha256 cfg s f).log, h.1.key? = some k →
      ∀ eff ∈ h.2, ∃ detail, eff = reject k.1 k.2 detail := by
    obtain ⟨peer, id⟩ := k
    obtain rfl : f.peer = peer := hpeer
    have hm : f.msg = .blobEnd id sha := hm
    have hout : handled sha256 cfg s f = (s.rx, []) := by simp only [handled, hm, handleBlob, onEnd, habsent.entry]
    intro h' hmem' hk' eff he
    rcases List.mem_append.1 hmem' with hmem' | hmem'
    · exact habsent.quiet h' hmem' hk' eff he
    · rw [List.mem_singleton.1 hmem', hout] at he
      cases he
  refine ⟨fun h => absurd h ha, fun _ => ⟨⟨h, List.mem_append_left _ hmem, detail, hsent⟩, ?_, ?_⟩⟩
  · rintro ⟨h', hmem', detail', hsend⟩
    obtain ⟨d, hd⟩ := hquiet h' hmem' (hown' h' hmem' _ _ _ _ hsend) _ hsend
    cases hd
  · intro h' hmem' hk'
    constructor
    · intro tmp dest hren
      obtain ⟨d, hd⟩ := hquiet h' hmem' hk' _ hren
      cases hd
    · intro p hcreate
      obtain ⟨d, hd⟩ := hquiet h' hmem' hk' _ hcreate
      cases hd

/-- The end of a transfer that was accepted at its start. -/
private theorem decided_midway (sha256 : Bytes → Digest) (cfg : XferConfig) {tmp dir : PathBuf}
    {safe : String} {size : Nat} {bytes : Bytes} {sha : Digest}
    (h : Midway s k tmp dir safe size bytes) (hquiet : Unfinished k tmp dir s.log) (hown : AnswersOwn s.log)
    (hpeer : f.peer = k.1) (hio : f.io = Io.ok) (hm : f.msg = .blobEnd k.2 sha)
    (hdest : s.rx.fs.node (uniqueDest s.rx.fs dir safe) ≠ some .dir) :
    Decided k (sha256 bytes = sha ∧ (size = 0 ∨ bytes.length = size)) (receive sha256 cfg s f) := by
  obtain ⟨peer, id⟩ := k
  obtain rfl : f.peer = peer := hpeer
  have hm : f.msg = .blobEnd id sha := hm
  obtain ⟨inc, file, hl, hs, -, rfl, rfl, rfl, hwritten⟩ := h.entry
  have hown' : AnswersOwn (receive sha256 cfg s f).log := answersOwn_receive hown
  obtain ⟨i, hi⟩ := h.onDisk
  have hend : handled sha256 cfg s f = onEnd sha256 cfg f.registry f.io s.rx f.peer id sha := by
    simp only [handled, hm, handleBlob]
  -- the frames before the end have not answered
  have hsilent : ∀ h ∈ s.log, h.1.key? = some (f.peer, id) → ∀ p ok detail,
      Effect.send f.peer (.blobAck p ok detail) ∉ h.2 := by
    intro h' hmem hk' p ok detail hsend
    rcases hquiet h' hmem hk' _ hsend with he | he | he <;> cases he
  have hanswer : ∀ {ok}, Answered (f.peer, id) ok (receive sha256 cfg s f).log →
      ∃ detail, Effect.send f.peer (.blobAck id ok detail) ∈ (handled sha256 cfg s f).2 := by
    rintro ok ⟨h', hmem, detail, hsend⟩
    have hk' := hown' h' hmem _ _ _ _ hsend
    rcases List.mem_append.1 hmem with hmem | hmem
    · exact absurd hsend (hsilent h' hmem hk' id ok detail)
    · rw [List.mem_singleton.1 hmem] at hsend
      exact ⟨detail, hsend⟩
  have hlast : (f, (handled sha256 cfg s f).2) ∈ (receive sha256 cfg s f).log :=
    List.mem_append_right _ (List.mem_singleton.2 rfl)
  have hkey : f.key? = some (f.peer, id) := by simp only [Frame.key?, hm]
  constructor
  · rintro ⟨hsha, hsize⟩
    obtain ⟨fs, hren⟩ := FileSys.rename_of_not_dir hi hdest
    obtain ⟨shown, hout⟩ := onEnd_place sha256 cfg f.registry f.io hl hsha
      (hsize.imp_right fun h => hwritten.trans h) hs (by rw [hio]; rfl) hren
    rw [← hend] at hout
    refine ⟨⟨_, hlast, inc.name, by rw [hout]; simp⟩, ?_,
      ⟨_, hlast, hkey, tmp, uniqueDest s.rx.fs dir inc.name, by rw [hout]; simp, ?_⟩⟩
    · intro hno
      obtain ⟨detail, hsend⟩ := hanswer hno
      rw [hout] at hsend
      simp at hsend
    · obtain ⟨⟨j, -, hplaced⟩, -⟩ := FileSys.rename_spec hren
      refine ⟨j, ?_⟩
      simp only [receive, hout]
      exact hplaced
  · intro hno
    obtain ⟨fs, detail, hrm, hout⟩ := onEnd_refuse sha256 cfg f.registry f.io hl hs hi (by rw [hio]; rfl)
      (fun h => hno ⟨h.1, h.2.1.imp_right fun h => hwritten.symm.trans h⟩)
    rw [← hend] at hout
    refine ⟨⟨_, hlast, detail, by rw [hout]; simp [reject]⟩, ?_, ?_⟩
    · intro hyes
      obtain ⟨detail', hsend⟩ := hanswer hyes
      rw [hout] at hsend
      simp [reject] at hsend
    · have hgone : ¬ HasFile (receive sha256 cfg s f).rx.fs tmp := by
        rintro ⟨j, hj⟩
        simp only [receive, hout] at hj
        rw [(FileSys.removeFile_spec hrm).1] at hj
        cases hj
      intro h' hmem hk'
      rcases List.mem_append.1 hmem with hmem | hmem
      · refine ⟨fun src dest hren => ?_, fun p hcreate => ?_⟩
        · rcases hquiet h' hmem hk' _ hren with he | he | he <;> cases he
        · rcases hquiet h' hmem hk' _ hcreate with he | he | he
          · cases he
          · cases he
            exact hgone
          · cases he
      · rw [List.mem_singleton.1 hmem, hout]
        simp [reject]

end Stages

/-- For every name, size, digest, list of chunks and interleaving with other transfers that use other temp paths, with
a free slot and no faults: the file is accepted and in place exactly when the name is safe, the digest is that of the
chunks, and the declared size is zero or their length; otherwise it is refused and nothing is left of it. -/
theorem transfer_verdict (sha256 : Bytes → Digest) (cfg : XferConfig) (fs : FileSys PathBuf) (k : XferKey)
    (name : String) (size : Nat) (sha : Digest) (registry registry' : PeersFile) (pre mid : List Frame)
    (s₁ s₂ : History)
    (hpre : Run (fun s f => some (receive sha256 cfg s f)) (Foreign cfg k (tempPath? cfg registry k name))
      (History.start fs) pre s₁)
    (hslot : s₁.rx.incoming.keys.length < maxConcurrentIncoming)
    (hdir : ¬ HasFile s₁.rx.fs (finalDirFor cfg registry k.1))
    (htmp : ∀ p, tempPath? cfg registry k name = some p → s₁.rx.fs.node p ≠ some .dir)
    (hmid : Run (fun s f => some (receive sha256 cfg s f)) (Amid cfg k (tempPath? cfg registry k name))
      (receive sha256 cfg s₁ ⟨k.1, .blobStart k.2 name size .file, registry, Io.ok⟩) mid s₂)
    (hdest : ∀ safe, safeBlobName name = some safe →
      s₂.rx.fs.node (uniqueDest s₂.rx.fs (finalDirFor cfg registry k.1) safe) ≠ some .dir) :
    Decided k (safeBlobName name ≠ none ∧ sha256 (chunksFor k mid) = sha ∧
        (size = 0 ∨ (chunksFor k mid).length = size))
      (receive sha256 cfg s₂ ⟨k.1, .blobEnd k.2 sha, registry', Io.ok⟩) := by
  obtain ⟨hnone, honly, hlog⟩ := before_start hpre
  have hown₁ : AnswersOwn s₁.log := answersOwn_run hpre fun h hmem => by cases hmem
  have hown₂ : AnswersOwn s₂.log := answersOwn_run hmid (answersOwn_receive hown₁)
  have hslot' : ¬ maxConcurrentIncoming ≤ s₁.rx.incoming.keys.length := by omega
  cases hsafe : safeBlobName name with
  | none =>
    have hout : handled sha256 cfg s₁ ⟨k.1, .blobStart k.2 name size .file, registry, Io.ok⟩ =
        (s₁.rx, [reject k.1 k.2 "unsafe filename"]) := by
      simp only [handled, handleBlob, onStart, hslot', hsafe, if_false]
    have hlast : (⟨k.1, .blobStart k.2 name size .file, registry, Io.ok⟩, [reject k.1 k.2 "unsafe filename"]) ∈
        (receive sha256 cfg s₁ ⟨k.1, .blobStart k.2 name size .file, registry, Io.ok⟩).log := by
      simp [receive, hout]
    have habsent : Absent (receive sha256 cfg s₁ ⟨k.1, .blobStart k.2 name size .file, registry, Io.ok⟩) k := by
      refine ⟨by simp only [receive, hout]; exact hnone, fun h hmem hk eff he => ?_⟩
      rcases List.mem_append.1 hmem with hmem | hmem
      · exact absurd hk (hlog h hmem)
      · rw [List.mem_singleton.1 hmem, hout] at he
        exact ⟨_, List.mem_singleton.1 he⟩
    exact decided_absent (fun h => h.1 rfl) hown₂ (absent_run hmid habsent) (log_run hmid hlast)
      (List.mem_singleton.2 rfl) rfl rfl
  | some safe =>
    have hpath : tempPath? cfg registry k name = some (tmpPathFor (finalDirFor cfg registry k.1) safe k.2) := by
      simp only [tempPath?, hsafe, Option.map_some]
    rw [hpath] at hmid
    obtain ⟨handle, fs', hfile, -, -, hout⟩ := handled_opens (s := s₁)
      (f := ⟨k.1, .blobStart k.2 name size .file, registry, Io.ok⟩) sha256 cfg rfl hslot hsafe rfl rfl hdir
      (htmp _ hpath)
    have hmidway : Midway (receive sha256 cfg s₁ ⟨k.1, .blobStart k.2 name size .file, registry, Io.ok⟩) k
        (tmpPathFor (finalDirFor cfg registry k.1) safe k.2) (finalDirFor cfg registry k.1) safe size [] := by
      refine ⟨⟨⟨safe, .file (tmpPathFor (finalDirFor cfg registry k.1) safe k.2) (finalDirFor cfg registry k.1)
        ⟨handle, false⟩, [], 0, size⟩, ⟨handle, false⟩, ?_, rfl, rfl, rfl, rfl, rfl, rfl⟩, ?_, ?_⟩
      · simp only [receive, hout, AList.lookup_insert]
      · simp only [receive, hout]
        exact ⟨_, hfile⟩
      · exact onlyOf_outcome (honly _ hpath) (fun hne => (hne rfl).elim) (frameOutcome sha256 cfg s₁ _)
    have hquiet : Unfinished k (tmpPathFor (finalDirFor cfg registry k.1) safe k.2) (finalDirFor cfg registry k.1)
        (receive sha256 cfg s₁ ⟨k.1, .blobStart k.2 name size .file, registry, Io.ok⟩).log := by
      intro h hmem hk eff he
      rcases List.mem_append.1 hmem with hmem | hmem
      · exact absurd hk (hlog h hmem)
      · rw [List.mem_singleton.1 hmem, hout] at he
        simp only [List.mem_cons, List.not_mem_nil, or_false] at he
        exact he.imp_right Or.inl
    obtain ⟨hend, hquiet'⟩ := midway_run hmid hmidway hquiet
    have hdecided := decided_midway (f := ⟨k.1, .blobEnd k.2 sha, registry', Io.ok⟩)
      sha256 cfg hend hquiet' hown₂ rfl rfl rfl (hdest safe hsafe)
    -- the name is safe, so the two checks at the end decide
    exact ⟨fun h => hdecided.accepted h.2, fun h => hdecided.refused fun h' => h ⟨by simp, h'⟩⟩

private def flatSha (_ : Bytes) : Digest := Vector.replicate 32 0

private def verdictConfig : XferConfig := ⟨"d", .never, false⟩

private def frameBy (peer : DeviceId) (msg : Message) : Frame := ⟨peer, msg, .absent, Io.ok⟩

/-- A file of two chunks, with a transfer of another peer in between. -/
theorem transfer_verdict_two_chunks :
    Decided ("a", 1) (safeBlobName "x" ≠ none ∧ flatSha [1, 2] = Vector.replicate 32 0 ∧ (2 = 0 ∨ 2 = 2))
      ([frameBy "a" (.blobStart 1 "x" 2 .file), frameBy "a" (.blobChunk 1 [1]),
        frameBy "b" (.blobStart 1 "y" 1 .file), frameBy "a" (.blobChunk 1 [2]),
        frameBy "a" (.blobEnd 1 (Vector.replicate 32 0))].foldl (receive flatSha verdictConfig)
          (History.start FileSys.empty)) := by
  refine transfer_verdict flatSha verdictConfig FileSys.empty ("a", 1) "x" 2 (Vector.replicate 32 0) .absent .absent
    [] [frameBy "a" (.blobChunk 1 [1]), frameBy "b" (.blobStart 1 "y" 1 .file), frameBy "a" (.blobChunk 1 [2])]
    (History.start FileSys.empty) _ (Run.nil _) (by decide) ?_ ?_ ?_ ?_
  · rintro ⟨i, hi⟩
    cases hi
  · intro p _ hp
    cases hp
  · refine (((Run.nil _).snoc (e := frameBy "a" (.blobChunk 1 [1])) (Or.inr ⟨rfl, rfl, [1], rfl⟩) rfl).snoc
      (e := frameBy "b" (.blobStart 1 "y" 1 .file)) (Or.inl ⟨by decide, ?_⟩) rfl).snoc
      (e := frameBy "a" (.blobChunk 1 [2])) (Or.inr ⟨rfl, rfl, [2], rfl⟩) rfl
    rintro q ⟨id, name, size, safe, hm, -, hsafe, -, -, -, -, rfl⟩
    cases hm
    have hy : safe = "y" := Option.some.inj (hsafe.symm.trans (by decide))
    rw [hy]
    decide
  · intro safe hsafe
    have hx : safe = "x" := Option.some.inj (hsafe.symm.trans (by decide))
    rw [hx]
    decide

/-- A file whose declared size is zero is accepted with any length. -/
theorem undeclared_size_accepted :
    ¬ Decided ("a", 1) (safeBlobName "x" ≠ none ∧ flatSha [1] = Vector.replicate 32 0 ∧ [1].length = 0)
      ([frameBy "a" (.blobStart 1 "x" 0 .file), frameBy "a" (.blobChunk 1 [1]),
        frameBy "a" (.blobEnd 1 (Vector.replicate 32 0))].foldl (receive flatSha verdictConfig)
          (History.start FileSys.empty)) := by
  intro h
  obtain ⟨-, hno, -⟩ := h.refused (by decide)
  exact hno ⟨_, List.mem_append_right _ (List.mem_singleton.2 rfl), "x", by decide⟩

end Qdrop
