import Qdrop.FileXfer.Carriage

/-!
# The round trip of a file

One sender, one receiver with an empty download directory, and files with different names: whatever way the reads split
and the frames of concurrent calls interleave, every transfer whose frames were handled is acknowledged with
`ok = true`, and the receiver's file holds the bytes of the source (`DuoCarried`).

Beside the transfers the proof follows what was asked for, the transfers that are open on the way, and the disk: a name
that was not delivered yet is free, so the destination is the name itself.
-/

namespace Qdrop

open Lib

/-! ### What was asked for -/

/-- Every file has a plain name of its own and is sent at most once, and every call sends a file that was asked for. -/
structure Requested (one : Option PeersFile) (s : Duo) : Prop where
  named : ∀ r ∈ s.retries, ∃ name ∈ fileName r.path, Plain name ∧ (one.isNone = true → name ≠ "pending")
  different : (s.retries.map fun r => fileName r.path).Nodup
  untried : ∀ r ∈ s.retries, r.attempt = 0 → r.current = none ∧ r.outcome = none
  tried : ∀ r ∈ s.retries, r.attempt ≠ 0 → ∃ id o, s.a.calls.lookup id = some o ∧ o.call.source = .file r.path
  called : ∀ id o, s.a.calls.lookup id = some o → ∃ r ∈ s.retries, r.attempt ≠ 0 ∧ fileName r.path = some o.call.name

section Requested

variable {sha256 : Bytes → Digest} {cfg : XferConfig} {ida idb : DeviceId} {content : PathBuf → Bytes}
  {one : Option PeersFile} {s s' : Duo} {e : DuoEvent}

/-- The calls go on with the same names and files. -/
structure CallsStay (s s' : Duo) : Prop where
  stays : ∀ id o, s.a.calls.lookup id = some o → ∃ o', s'.a.calls.lookup id = some o' ∧
    o'.call.name = o.call.name ∧ ∀ path, o.call.source = .file path → o'.call.source = .file path
  old : ∀ id o', s'.a.calls.lookup id = some o' → id ≠ s.a.nextId → ∃ o, s.a.calls.lookup id = some o ∧
    o'.call.name = o.call.name ∧ ∀ path, o'.call.source = .file path → o.call.source = .file path

theorem requested_start (fs : FileSys PathBuf) : Requested one (Duo.start fs) where
  named r h := by cases h
  different := List.nodup_nil
  untried r h := by cases h
  tried r h := by cases h
  called id o h := by cases h

/-- Two requests for files of one name are the same. -/
private theorem Requested.eq_of_name (h : Requested one s) {r r' : RetryCall} (hr : r ∈ s.retries)
    (hr' : r' ∈ s.retries) (hname : fileName r.path = fileName r'.path) : r = r' :=
  List.inj_on_of_nodup_map h.different hr hr' hname

/-- The calls go on, none begins, and the requests stay. -/
private theorem Requested.mono (h : Requested one s) (hretries : s'.retries = s.retries) (hc : CallsStay s s')
    (hnone : s'.a.calls.lookup s.a.nextId = none) : Requested one s' where
  named := by rw [hretries]; exact h.named
  different := by rw [hretries]; exact h.different
  untried := by rw [hretries]; exact h.untried
  tried r hr hne := by
    rw [hretries] at hr
    obtain ⟨id, o, hl, hsource⟩ := h.tried r hr hne
    obtain ⟨o', hl', -, hsource'⟩ := hc.stays id o hl
    exact ⟨id, o', hl', hsource' _ hsource⟩
  called id o' hl' := by
    rw [hretries]
    have hne : id ≠ s.a.nextId := by
      rintro rfl
      rw [hnone] at hl'
      cases hl'
    obtain ⟨o, hl, hname, -⟩ := hc.old id o' hl' hne
    rw [hname]
    exact h.called id o hl

/-- Replacing an element by one with the same image changes no image. -/
theorem map_set_eq {α β : Type} {f : α → β} {l : List α} {j : Nat} {x y : α} (h : l[j]? = some x) (hf : f y = f x) :
    (l.set j y).map f = l.map f := by
  refine List.ext_getElem? fun i => ?_
  rw [List.getElem?_map, List.getElem?_map, List.getElem?_set]
  split
  · rename_i hij
    subst hij
    obtain ⟨hj, rfl⟩ := List.getElem?_eq_some_iff.1 h
    simp [hj, hf]
  · rfl

/-- A request begins its attempt or has it settled. -/
private theorem Requested.set (h : Requested one s) {j : Nat} {r r' : RetryCall} (hr : s.retries[j]? = some r)
    (hset : s'.retries = s.retries.set j r') (hpath : r'.path = r.path) (htried : r'.attempt ≠ 0)
    (hc : CallsStay s s') (hnew : ∃ id o, s'.a.calls.lookup id = some o ∧ o.call.source = .file r.path)
    (hcalled : ∀ o', s'.a.calls.lookup s.a.nextId = some o' → fileName r.path = some o'.call.name) :
    Requested one s' := by
  obtain ⟨hj, hget⟩ := List.getElem?_eq_some_iff.1 hr
  have hmem : r ∈ s.retries := List.mem_of_getElem? hr
  have hmem' : r' ∈ s'.retries := by
    rw [hset]
    exact List.mem_set hj r'
  -- a request is the new one, or an old one
  have hcases : ∀ q ∈ s'.retries, q = r' ∨ q ∈ s.retries := by
    intro q hq
    rw [hset] at hq
    exact (List.mem_or_eq_of_mem_set hq).symm
  refine ⟨fun q hq => ?_, ?_, fun q hq hzero => ?_, fun q hq hne => ?_, fun id o' hl' => ?_⟩
  · rcases hcases q hq with rfl | hq
    · rw [hpath]
      exact h.named r hmem
    · exact h.named q hq
  · rw [hset, map_set_eq hr (by rw [hpath])]
    exact h.different
  · rcases hcases q hq with rfl | hq
    · exact absurd hzero htried
    · exact h.untried q hq hzero
  · rcases hcases q hq with rfl | hq
    · rw [hpath]
      exact hnew
    · obtain ⟨id, o, hl, hsource⟩ := h.tried q hq hne
      obtain ⟨o', hl', -, hsource'⟩ := hc.stays id o hl
      exact ⟨id, o', hl', hsource' _ hsource⟩
  · by_cases hid : id = s.a.nextId
    · subst hid
      exact ⟨r', hmem', htried, by rw [hpath]; exact hcalled o' hl'⟩
    · obtain ⟨o, hl, hname, -⟩ := hc.old id o' hl' hid
      rw [hname]
      obtain ⟨q, hq, hne, hq'⟩ := h.called id o hl
      by_cases hsame : q = r
      · subst hsame
        exact ⟨r', hmem', htried, by rw [hpath]; exact hq'⟩
      · refine ⟨q, ?_, hne, hq'⟩
        obtain ⟨i, hi, rfl⟩ := List.getElem_of_mem hq
        rw [hset]
        have hij : j ≠ i := by
          rintro rfl
          exact hsame hget
        exact List.mem_of_getElem? (i := i) (by simp [hij, hi])

/-- The attempt of a request succeeds in beginning a call for its file. -/
theorem Requested.begins (h : Requested one s) {j : Nat} {r : RetryCall} {stat : Except String (Bool × Nat)}
    (hr : s.retries[j]? = some r) (hstat : statOf content r.path stat = true) :
    ∃ c, sendOne (some 0) r.path stat = .ok c ∧ Faithful content c r.path ∧ fileName r.path = some c.name := by
  obtain ⟨name, hname, hplain, -⟩ := h.named r (List.mem_of_getElem? hr)
  have hok : ∃ c, sendOne (some 0) r.path stat = .ok c := by
    cases stat with
    | error err => cases hstat
    | ok st =>
      obtain ⟨isFile, len⟩ := st
      obtain ⟨rfl, -⟩ : isFile = true ∧ len = (content r.path).length := by simpa [statOf] using hstat
      rw [Option.mem_def] at hname
      exact ⟨_, by simp [sendOne, hname]; rfl⟩
  obtain ⟨c, hc⟩ := hok
  obtain ⟨hf, hcname⟩ := faithful_sendOne hc hstat fun n hn => Option.mem_unique hname hn ▸ hplain
  exact ⟨c, hc, hf, hcname⟩

/-- No call has the name of a file that was not tried. -/
theorem Requested.fresh (h : Requested one s) {r : RetryCall} (hr : r ∈ s.retries) (hzero : r.attempt = 0) (id : Nat)
    (o : Outgoing) (hl : s.a.calls.lookup id = some o) : fileName r.path ≠ some o.call.name := by
  intro hname
  obtain ⟨q, hq, hne, hq'⟩ := h.called id o hl
  obtain rfl := h.eq_of_name hq hr (hq'.trans hname.symm)
  exact hne hzero

/-- Every step of the setting keeps what was asked for in order. -/
theorem requested_step (h : Requested one s) (hsmooth : Smooth cfg ida content one s e)
    (hs : duoStep sha256 cfg ida idb s e = some s') (hc : CallsStay s s')
    (hnone : (∀ j stat, e ≠ .attempt j stat) → s'.a.calls.lookup s.a.nextId = none) : Requested one s' := by
  cases e with
  | sendWithRetry path =>
    obtain ⟨name, hname, hplain, hother, hnew⟩ := hsmooth
    rw [Option.mem_def] at hname
    cases hs
    refine ⟨fun r hr => ?_, ?_, fun r hr hzero => ?_, fun r hr hne => ?_, fun id o hl => ?_⟩
    · rcases List.mem_append.1 hr with hr | hr
      · exact h.named r hr
      · rw [List.mem_singleton.1 hr]
        exact ⟨name, hname, hplain, hother⟩
    · rw [List.map_append, List.nodup_append]
      refine ⟨h.different, List.nodup_singleton _, ?_⟩
      rintro n hn n' hn' rfl
      obtain ⟨r, hr, rfl⟩ := List.mem_map.1 hn
      exact hnew r hr ((List.mem_singleton.1 hn').trans hname)
    · rcases List.mem_append.1 hr with hr | hr
      · exact h.untried r hr hzero
      · rw [List.mem_singleton.1 hr]
        exact ⟨rfl, rfl⟩
    · rcases List.mem_append.1 hr with hr | hr
      · exact h.tried r hr hne
      · rw [List.mem_singleton.1 hr] at hne
        exact absurd rfl hne
    · obtain ⟨r, hr, hne, hname⟩ := h.called id o hl
      exact ⟨r, List.mem_append_left _ hr, hne, hname⟩
  | attempt j stat =>
    simp only [duoStep] at hs
    split at hs
    · cases hs
    · rename_i r hr
      split at hs
      · obtain ⟨c, hcall, hf, hname⟩ := h.begins hr (hsmooth r hr).2
        cases hs
        simp only [Duo.beginAttempt, hcall] at hc ⊢
        refine h.set hr rfl rfl (Nat.succ_ne_zero _) hc ⟨s.a.nextId, _, AList.lookup_insert _, hf.source⟩ ?_
        intro o' hl'
        have hl' : (s.a.calls.insert s.a.nextId ⟨idb, c, none, none⟩).lookup s.a.nextId = some o' := hl'
        rw [AList.lookup_insert] at hl'
        cases hl'
        exact hname
      · cases hs
  | settle j =>
    simp only [duoStep] at hs
    split at hs
    · cases hs
    · rename_i r hr
      have hmem := List.mem_of_getElem? hr
      split at hs
      · cases hs
      · rename_i id hid
        have htried : r.attempt ≠ 0 := by
          intro hzero
          rw [(h.untried r hmem hzero).1] at hid
          cases hid
        split at hs
        · cases hs
        · split at hs
          · rename_i result _
            cases hs
            have hkeep : (r.settle id result).path = r.path ∧ (r.settle id result).attempt = r.attempt := by
              cases result <;> exact ⟨rfl, rfl⟩
            refine h.set hr rfl hkeep.1 (by rw [hkeep.2]; exact htried) hc (h.tried r hmem htried) fun o' hl' => ?_
            rw [hnone (fun _ _ h => by cases h)] at hl'
            cases hl'
          · cases hs
  | sendClipImage png => exact False.elim hsmooth
  | foreign f => exact False.elim hsmooth
  | elsewhere =>
    have hnone := hnone fun _ _ h => by cases h
    cases hs
    exact h.mono rfl hc hnone
  | queue k | openFile k err | read k res | nextChunk k | answer k | timeout k =>
    have hnone := hnone fun _ _ h => by cases h
    obtain ⟨out, -, rfl⟩ := Option.map_eq_some_iff.1 hs
    exact h.mono rfl hc hnone
  | chatA msg | process io registry | chatB msg | transmit | receive =>
    have hnone := hnone fun _ _ h => by cases h
    simp only [duoStep] at hs
    split at hs
    all_goals cases hs
    exact h.mono rfl hc hnone

end Requested

/-! ### Open transfers -/

/-- The transfers of `p` that are open after one more frame. -/
def afterFrame (p : DeviceId) (ks : Finset XferKey) : Message → Finset XferKey
  | .blobStart id _ _ _ => insert (p, id) ks
  | .blobEnd id _ => ks.erase (p, id)
  | _ => ks

/-- Fewer than 16 transfers are open at every `BlobStart` among the frames. -/
def FitsOpen (p : DeviceId) (ks : Finset XferKey) : List Message → Prop
  | [] => True
  | m :: rest => (m.isStart = true → ks.card < maxConcurrentIncoming) ∧ FitsOpen p (afterFrame p ks m) rest

/-- The receiver has room for the transfers on the way, and once it has handled their frames it has the transfers open
that the sender has. -/
structure Room (ida : DeviceId) (s : Duo) : Prop where
  fits : FitsOpen ida s.b.rx.incoming.keys.toFinset s.toB
  same : s.toB.foldl (afterFrame ida) s.b.rx.incoming.keys.toFinset = s.openIds.image (Prod.mk ida)

section Room

variable {sha256 : Bytes → Digest} {cfg : XferConfig} {ida idb : DeviceId} {content : PathBuf → Bytes}
  {one : Option PeersFile} {s s' : Duo} {e : DuoEvent} {ks : Finset XferKey} {m : Message}

theorem mem_openIds {id : Nat} :
    id ∈ s.openIds ↔ ∃ o, s.a.calls.lookup id = some o ∧ o.call.isStreaming = true := by
  simp only [Duo.openIds, Finset.mem_filter, List.mem_toFinset, Option.any_eq_true, and_iff_right_iff_imp]
  rintro ⟨o, hl, -⟩
  exact AList.mem_keys.1 (AList.lookup_isSome.1 (by rw [hl]; rfl))

private theorem fitsOpen_snoc (frames : List Message) :
    FitsOpen ida ks (frames ++ [m]) ↔ FitsOpen ida ks frames ∧
      (m.isStart = true → (frames.foldl (afterFrame ida) ks).card < maxConcurrentIncoming) := by
  induction frames generalizing ks with
  | nil => simp [FitsOpen]
  | cons m' frames ih => simp [FitsOpen, ih, and_assoc]

private theorem afterFrame_none (h : blobId m = none) : afterFrame ida ks m = ks := by
  cases m with
  | blobStart | blobEnd => cases h
  | _ => rfl

private theorem isStart_none (h : blobId m = none) : m.isStart = false := by
  cases m with
  | blobStart => cases h
  | _ => rfl

theorem room_start (fs : FileSys PathBuf) : Room ida (Duo.start fs) where
  fits := trivial
  same := by
    have hnone : (Duo.start fs).openIds = ∅ := rfl
    rw [hnone]
    rfl

/-- The open transfers depend on where the calls stand. -/
private theorem Room.of_same (h : Room ida s) (hb : s'.b.rx.incoming = s.b.rx.incoming) (hto : s'.toB = s.toB)
    (hopen : s'.openIds = s.openIds) : Room ida s' := by
  refine ⟨?_, ?_⟩
  · rw [hb, hto]
    exact h.fits
  · rw [hb, hto, hopen]
    exact h.same

/-- A frame joins the others. -/
private theorem Room.queue (h : Room ida s) (hb : s'.b.rx.incoming = s.b.rx.incoming) (hto : s'.toB = s.toB ++ [m])
    (hfits : m.isStart = true → s.openIds.card < maxConcurrentIncoming)
    (hopen : s'.openIds.image (Prod.mk ida) = afterFrame ida (s.openIds.image (Prod.mk ida)) m) : Room ida s' := by
  refine ⟨?_, ?_⟩
  · rw [hb, hto, fitsOpen_snoc, h.same]
    exact ⟨h.fits, fun hm => lt_of_le_of_lt Finset.card_image_le (hfits hm)⟩
  · rw [hb, hto, List.foldl_append, h.same, hopen]
    rfl

/-- The receiver handles the first frame. -/
theorem Room.handle (h : Room ida s) {rest : List Message} (hq : s.toB = m :: rest) (hto : s'.toB = rest)
    (hb : s'.b.rx.incoming.keys.toFinset = afterFrame ida s.b.rx.incoming.keys.toFinset m)
    (hopen : s'.openIds = s.openIds) : Room ida s' := by
  obtain ⟨hfits, hsame⟩ := h
  rw [hq] at hfits hsame
  refine ⟨?_, ?_⟩
  · rw [hb, hto]
    exact hfits.2
  · rw [hb, hto, hopen]
    exact hsame

/-- There is room for the next transfer. -/
theorem Room.first (h : Room ida s) {rest : List Message} (hq : s.toB = m :: rest) (hm : m.isStart = true) :
    s.b.rx.incoming.keys.length < maxConcurrentIncoming := by
  have hfits := h.fits
  rw [hq] at hfits
  have hlt := hfits.1 hm
  rwa [List.toFinset_card_of_nodup (AList.keys_nodup _)] at hlt

/-- A step of a transfer that queues no frame neither opens nor closes a stream. -/
private theorem TransferStep.isStreaming {peer : DeviceId} {id : Nat} {mv : Move} {t t' : Transfer}
    (hs : TransferStep sha256 peer id mv t t') (hmv : mv ≠ .queue) (hsmooth : mv.Smooth content id t)
    (hf : ∀ o, t.call = some o → ∃ path, Faithful content o.call path) :
    (∃ o, t'.call = some o ∧ o.call.isStreaming = true) ↔ ∃ o, t.call = some o ∧ o.call.isStreaming = true := by
  -- a call that goes on as another one
  have hput : ∀ {o : Outgoing} {c : SendCall}, t.call = some o → c.isStreaming = o.call.isStreaming →
      ((∃ o', some { o with call := c } = some o' ∧ o'.call.isStreaming = true) ↔
        ∃ o, t.call = some o ∧ o.call.isStreaming = true) := by
    intro o c hl hc
    simp [hl, hc]
  cases hs with
  | begin _ c hnone hc => simp [hnone, SendCall.isStreaming_of_isStarting hc]
  | queue => exact absurd rfl hmv
  | goOn _ o l c hl hc =>
    obtain ⟨path, hf⟩ := hf o hl
    obtain ⟨hst, -⟩ := SendCall.goOn_readsOn hc
    exact hput hl ((goOn_content hl hc hf hsmooth).2.2.2.1.trans hst.symm)
  | answer _ o ok detail c hl hack hc =>
    obtain ⟨hphase, -, -, -, hst⟩ := SendCall.answered_awaiting hc
    exact hput hl (by rw [hst, SendCall.isStreaming, hphase])
  | timeout _ o c hl hack hc =>
    obtain ⟨hphase, -, -, -, hst⟩ := SendCall.answered_awaiting hc
    exact hput hl (by rw [hst, SendCall.isStreaming, hphase])
  | handle => exact Iff.rfl
  | hear _ ok detail rest ha =>
    by_cases hw : t.waiter = true
    · cases t.call <;> simp [hw]
    · simp [hw]

/-- A queued frame opens a stream, goes on with it or closes it. -/
private theorem openIds_queue {k : Nat} {o : Outgoing} (hl : s.a.calls.lookup k = some o)
    (hm : o.call.frame sha256 k = some m) (hcalls : s'.a.calls = s.a.calls.insert k { o with call := o.call.queued }) :
    s'.openIds.image (Prod.mk ida) = afterFrame ida (s.openIds.image (Prod.mk ida)) m := by
  have hmem : ∀ id, id ∈ s'.openIds ↔ id = k ∧ o.call.queued.isStreaming = true ∨ id ≠ k ∧ id ∈ s.openIds := by
    intro id
    rw [mem_openIds, mem_openIds, hcalls]
    simp only [lookup_insert_eq_some]
    by_cases hid : id = k <;> simp [hid]
  have himage : ∀ (ids : Finset Nat) (p : DeviceId) (id : Nat),
      (p, id) ∈ ids.image (Prod.mk ida) ↔ p = ida ∧ id ∈ ids := by
    intro ids p id
    simp only [Finset.mem_image, Prod.mk.injEq]
    constructor
    · rintro ⟨_, hid, rfl, rfl⟩
      exact ⟨rfl, hid⟩
    · rintro ⟨rfl, hid⟩
      exact ⟨id, hid, rfl, rfl⟩
  ext ⟨p, id⟩
  rw [himage, hmem]
  rcases SendCall.frame_cases hm with ⟨hst, rfl, -⟩ | ⟨data, -, rfl, hst, hst', -⟩ | ⟨sha, -, rfl, -⟩
  · have hst' := (SendCall.of_frame hm).2.2 hst
    by_cases hid : id = k
    · simp only [afterFrame, Finset.mem_insert, himage, Prod.mk.injEq, hid, hst']
      tauto
    · simp [afterFrame, himage, hid]
  · have hk : k ∈ s.openIds := mem_openIds.2 ⟨o, hl, hst⟩
    by_cases hid : id = k <;> simp [afterFrame, himage, hid, hst', hk]
  · obtain ⟨-, -, -, ⟨-, hm'⟩ | ⟨-, -, hend⟩⟩ := SendCall.queued_cases hm
    · cases hm'
    · have hst' := hend rfl
      by_cases hid : id = k
      · simp only [afterFrame, Finset.mem_erase, himage, ne_eq, Prod.mk.injEq, hid, hst']
        tauto
      · simp [afterFrame, himage, hid]

/-- Every step of the setting but those of the receiver keeps the room. -/
theorem room_step (h : Room ida s) (hsmooth : Smooth cfg ida content one s e)
    (hs : duoStep sha256 cfg ida idb s e = some s') (hopen : (∀ k, e ≠ .queue k) → s'.openIds = s.openIds)
    (he : ∀ io registry, e ≠ .process io registry) : Room ida s' := by
  cases e with
  | process io registry => exact absurd rfl (he io registry)
  | sendClipImage png => exact False.elim hsmooth
  | foreign f => exact False.elim hsmooth
  | queue k =>
    obtain ⟨out, hq, rfl⟩ := Option.map_eq_some_iff.1 hs
    obtain ⟨o, m, hl, hm, rfl⟩ := Sender.queue_cases hq
    refine h.queue rfl rfl (fun hstart => hsmooth o hl ?_) (openIds_queue hl hm rfl)
    rcases SendCall.queued_cases hm with ⟨-, -, -, ⟨hst, -⟩ | ⟨-, hno, -⟩⟩
    · exact hst
    · rw [hno] at hstart
      cases hstart
  | chatA msg =>
    have hopen := hopen fun _ h => by cases h
    simp only [duoStep] at hs
    split at hs
    · rename_i hnone
      cases hs
      exact h.queue rfl rfl (fun hm => by rw [isStart_none hnone] at hm; cases hm)
        (by rw [hopen, afterFrame_none hnone])
    · cases hs
  | sendWithRetry path | elsewhere =>
    have hopen := hopen fun _ h => by cases h
    cases hs
    exact h.of_same rfl rfl hopen
  | attempt j stat =>
    have hopen := hopen fun _ h => by cases h
    simp only [duoStep] at hs
    repeat' split at hs
    all_goals cases hs
    refine h.of_same ?_ ?_ hopen
    all_goals
      unfold Duo.beginAttempt
      split <;> rfl
  | settle j =>
    have hopen := hopen fun _ h => by cases h
    simp only [duoStep] at hs
    repeat' split at hs
    all_goals cases hs
    exact h.of_same rfl rfl hopen
  | openFile k err | read k res | nextChunk k | answer k | timeout k =>
    have hopen := hopen fun _ h => by cases h
    obtain ⟨out, -, rfl⟩ := Option.map_eq_some_iff.1 hs
    exact h.of_same rfl rfl hopen
  | chatB msg | transmit | receive =>
    have hopen := hopen fun _ h => by cases h
    simp only [duoStep] at hs
    split at hs
    all_goals cases hs
    exact h.of_same rfl rfl hopen

end Room

/-! ### The disk -/

/-- A directory the sender's files may go to. -/
def Usable (cfg : XferConfig) (ida : DeviceId) (one : Option PeersFile) (dir : PathBuf) : Prop :=
  (dir = cfg.downloadDir ∨ dir = join cfg.downloadDir "pending") ∧ ∀ r ∈ one, dir = finalDirFor cfg r ida

/-- The name of a file of the setting. -/
structure Sendable (one : Option PeersFile) (n : String) : Prop where
  bare : Bare n
  undotted : n.toList.head? ≠ some '.'
  other : one.isNone = true → n ≠ "pending"

/-- Nothing stands where the directories and the temp files belong. -/
structure Tidy (cfg : XferConfig) (ida : DeviceId) (one : Option PeersFile) (fs : FileSys PathBuf) : Prop where
  directory : ∀ dir, Usable cfg ida one dir → ∀ i, fs.node dir ≠ some (.file i)
  temps : ∀ dir, Usable cfg ida one dir → ∀ n id, '/' ∉ n.toList → fs.node (tmpPathFor dir n id) ≠ some .dir

/-- The destinations other than those of `name` are left alone. -/
def Undisturbed (cfg : XferConfig) (ida : DeviceId) (one : Option PeersFile) (fs fs' : FileSys PathBuf)
    (name : Option String) : Prop :=
  ∀ dir n, Usable cfg ida one dir → Sendable one n → some n ≠ name → FileSys.Keeps fs fs' (join dir n)

section Disk

variable {sha256 : Bytes → Digest} {cfg : XferConfig} {registry : PeersFile} {one : Option PeersFile} {rx : Rx}
  {ida : DeviceId} {id : Nat} {dir dir' : PathBuf} {n : String}

/-- A file of the setting does not stand where a directory belongs. -/
private theorem Usable.join_ne (hdir : Usable cfg ida one dir) (hdir' : Usable cfg ida one dir')
    (hn : Sendable one n) : join dir n ≠ dir' := by
  intro h
  obtain ⟨hne, hpending⟩ := child_eq_dir hdir.1 hdir'.1 hn.bare.2.2.2 hn.bare.1 h
  cases one with
  | none => exact hn.other rfl hpending
  | some r => exact hne ((hdir.2 r rfl).trans (hdir'.2 r rfl).symm)

private theorem Usable.tmp_ne_join (hdir : Usable cfg ida one dir) (hdir' : Usable cfg ida one dir') {name : String}
    (hname : '/' ∉ name.toList) (hn : Sendable one n) : tmpPathFor dir name id ≠ join dir' n :=
  tmpPathFor_ne_child hdir.1 hdir'.1 hname hn.bare.2.2.2 hn.undotted

private theorem Usable.tmp_ne (hdir : Usable cfg ida one dir) (hdir' : Usable cfg ida one dir') {name : String}
    (hname : '/' ∉ name.toList) : tmpPathFor dir name id ≠ dir' :=
  tmpPathFor_ne_dir hdir.1 hdir'.1 hname

/-- A `BlobStart` of a plain name is accepted. -/
private theorem onStart_accepts (id : Nat) {name : String} (size : Nat) (ht : Tidy cfg ida one rx.fs)
    (hname : Plain name) (hdir : Usable cfg ida one (finalDirFor cfg registry ida))
    (hlen : rx.incoming.keys.length < maxConcurrentIncoming) :
    ∃ tmp fs handle, onStart cfg registry Io.ok rx ida id name size .file =
      (⟨rx.incoming.insert (ida, id) ⟨name, .file tmp (finalDirFor cfg registry ida) ⟨handle, false⟩, [], 0, size⟩, fs⟩,
        [.mkdir (finalDirFor cfg registry ida), .create tmp]) ∧
      Tidy cfg ida one fs ∧ Undisturbed cfg ida one rx.fs fs none := by
  generalize hd : finalDirFor cfg registry ida = dir at hdir
  have hbare := safeBlobName_bare hname.1
  obtain ⟨fs₁, hmk⟩ := FileSys.createDirAll_some (ht.directory dir hdir)
  obtain ⟨hdir₁, hnode₁, hdata₁, -⟩ := FileSys.createDirAll_spec hmk
  obtain ⟨fs₂, handle, hcr⟩ := FileSys.create_some (p := tmpPathFor dir name id)
    (by rw [hnode₁ _ (hdir.tmp_ne hdir hbare.2.2.2)]; exact ht.temps dir hdir name id hbare.2.2.2)
  obtain ⟨htmp₂, -, -, hothers, hdata₂⟩ := FileSys.create_spec hcr
  refine ⟨tmpPathFor dir name id, fs₂, handle, ?_, ⟨?_, ?_⟩, ?_⟩
  · have hlen' : ¬ maxConcurrentIncoming ≤ rx.incoming.keys.length := by omega
    simp [onStart, openTemp, hlen', hname.1, hd, hmk, hcr, Io.ok]
  · intro dir' hdir' i
    rw [(hothers dir' (hdir.tmp_ne hdir' hbare.2.2.2).symm).1]
    by_cases hsame : dir' = dir
    · rw [hsame, hdir₁]
      simp
    · rw [hnode₁ _ hsame]
      exact ht.directory dir' hdir' i
  · intro dir' hdir' n id' hn
    by_cases hsame : tmpPathFor dir' n id' = tmpPathFor dir name id
    · rw [hsame, htmp₂]
      simp
    · rw [(hothers _ hsame).1, hnode₁ _ (hdir'.tmp_ne hdir hn)]
      exact ht.temps dir' hdir' n id' hn
  · intro dir' n hdir' hn _
    have hne : join dir' n ≠ dir := hdir'.join_ne hdir hn
    have hne' : join dir' n ≠ tmpPathFor dir name id := (hdir.tmp_ne_join hdir' hbare.2.2.2 hn).symm
    refine ⟨((hothers _ hne').1).trans (hnode₁ _ hne), fun i hi => ?_⟩
    have hino : i ≠ handle.ino := by
      rintro rfl
      exact (hothers _ hne').2 ((hnode₁ _ hne).trans hi)
    rw [hdata₂ i hino, hdata₁]

/-- A chunk of an open file is written to its temp file. -/
private theorem onChunk_accepts {inc : Incoming} {tmp : PathBuf} {file : OpenFile} (data : Bytes)
    (ht : Tidy cfg ida one rx.fs) (hdir : Usable cfg ida one dir) (hl : rx.incoming.lookup (ida, id) = some inc)
    (hs : inc.sink = .file tmp dir file) (hok : FileOk cfg rx.fs (ida, id) inc tmp dir file) :
    ∃ fs file', onChunk Io.ok rx ida id data =
      (⟨rx.incoming.insert (ida, id) (inc.push (.file tmp dir file') data), fs⟩, [.write tmp]) ∧
      Tidy cfg ida one fs ∧ Undisturbed cfg ida one rx.fs fs none := by
  obtain ⟨fs, file', hw, hn, -, -, -, -, hframe⟩ :=
    writeAll_append data (by rw [hok.data]; exact hok.pos) hok.reported
  refine ⟨fs, file', ?_, ⟨fun dir' h i => by rw [hn]; exact ht.directory dir' h i,
    fun dir' hdir' n id' h => by rw [hn]; exact ht.temps dir' hdir' n id' h⟩, ?_⟩
  · simp only [onChunk, hl, hs, Io.ok, hw]
  · intro dir' n hdir' hsend _
    refine ⟨by rw [hn], fun i hi => hframe i ?_⟩
    rintro rfl
    have hsame : join dir' n = tmp := rx.fs.sole _ _ _ hi hok.node
    rw [hok.path] at hsame
    exact hdir.tmp_ne_join hdir' hok.bare.2.2.2 hsend hsame.symm

/-- The end of a file that came through whole puts it at its destination. -/
private theorem onEnd_accepts (registry : PeersFile) {inc : Incoming} {tmp : PathBuf} {file : OpenFile} {sha : Digest}
    (ht : Tidy cfg ida one rx.fs) (hdir : Usable cfg ida one dir) (hl : rx.incoming.lookup (ida, id) = some inc)
    (hs : inc.sink = .file tmp dir file) (hok : FileOk cfg rx.fs (ida, id) inc tmp dir file)
    (hsend : Sendable one inc.name) (hsha : sha256 inc.hasher = sha) (hsize : inc.written = inc.declared)
    (hfree : rx.fs.node (join dir inc.name) = none) :
    ∃ fs shown, onEnd sha256 cfg registry Io.ok rx ida id sha = (⟨rx.incoming.erase (ida, id), fs⟩,
        [.rename tmp (join dir inc.name), .send ida (.blobAck id true inc.name),
          .notify s!"Received {inc.name}" shown]) ∧
      Tidy cfg ida one fs ∧ Undisturbed cfg ida one rx.fs fs (some inc.name) ∧
      fs.read (join dir inc.name) = some inc.hasher := by
  have hdest : uniqueDest rx.fs dir inc.name = join dir inc.name := by
    unfold uniqueDest
    rw [if_pos (FileSys.present_eq_false.2 hfree)]
  obtain ⟨fs, hren⟩ := FileSys.rename_some hok.node hfree
  obtain ⟨shown, hout⟩ := onEnd_place sha256 cfg registry Io.ok hl hsha (Or.inr hsize) hs rfl
    (by rw [hdest]; exact hren)
  rw [hdest] at hout
  obtain ⟨⟨i, hi, hi'⟩, hgone, hothers, hdata⟩ := FileSys.rename_spec hren
  refine ⟨fs, shown, hout, ⟨fun dir' hdir' j => ?_, fun dir' hdir' n id' hn => ?_⟩,
    fun dir' n hdir' hn hne => ?_, ?_⟩
  · have htmp : dir' ≠ tmp := by
      rw [hok.path]
      exact (hdir.tmp_ne hdir' hok.bare.2.2.2).symm
    rw [hothers dir' htmp (hdir.join_ne hdir' hsend).symm]
    exact ht.directory dir' hdir' j
  · by_cases h₁ : tmpPathFor dir' n id' = tmp
    · by_cases h₂ : tmp = join dir inc.name
      · rw [h₁, h₂, hi']; simp
      · rw [h₁, hgone h₂]; simp
    · by_cases h₂ : tmpPathFor dir' n id' = join dir inc.name
      · rw [h₂, hi']; simp
      · rw [hothers _ h₁ h₂]
        exact ht.temps dir' hdir' n id' hn
  · have h₁ : join dir' n ≠ tmp := by
      rw [hok.path]
      exact (hdir.tmp_ne_join hdir' hok.bare.2.2.2 hn).symm
    have h₂ : join dir' n ≠ join dir inc.name := by
      intro h
      exact hne (congrArg some (child_inj hdir'.1 hdir.1 hn.bare.2.2.2 hok.bare.2.2.2 h).2)
    exact ⟨hothers _ h₁ h₂, fun j _ => by rw [hdata]⟩
  · rw [rename_read hren hok.node, hok.data]

end Disk

/-! ### The whole system -/

/-- An entry of the receiver belongs to a transfer of `ida`, and its file goes to the directory of its `BlobStart`. -/
def OwnEntry (cfg : XferConfig) (ida : DeviceId) (one : Option PeersFile) (log : Log) (k : XferKey) (inc : Incoming) :
    Prop :=
  k.1 = ida ∧ ∀ tmp dir file, inc.sink = .file tmp dir file → Usable cfg ida one dir ∧ StartedIn cfg ida log k.2 dir

/-- Every transfer is carried on, the receiver's files are whole, a name that was not delivered yet is free, and a
delivered one has the bytes of its source. -/
structure DuoCarried (sha256 : Bytes → Digest) (cfg : XferConfig) (ida : DeviceId) (content : PathBuf → Bytes)
    (one : Option PeersFile) (s : Duo) : Prop where
  waiting : Waiting s.a
  transfers : ∀ id, TransferCarried sha256 content id (s.transfer ida id)
  requested : Requested one s
  room : Room ida s
  whole : Whole cfg s.b
  own : ∀ k inc, s.b.rx.incoming.lookup k = some inc → OwnEntry cfg ida one s.b.log k inc
  names : ∀ id id' o o', s.a.calls.lookup id = some o → s.a.calls.lookup id' = some o' →
    o.call.name = o'.call.name → id = id'
  tidy : Tidy cfg ida one s.b.rx.fs
  free : ∀ dir n, Usable cfg ida one dir → Sendable one n →
    (∀ id o, s.a.calls.lookup id = some o → o.call.name = n → id ∉ placedIds ida s.b.log) →
    s.b.rx.fs.node (join dir n) = none
  arrived : ∀ id o path, s.a.calls.lookup id = some o → o.call.source = .file path → id ∈ placedIds ida s.b.log →
    ∃ dir, Usable cfg ida one dir ∧ StartedIn cfg ida s.b.log id dir ∧
      s.b.rx.fs.read (join dir o.call.name) = some (content path)

section System

variable {sha256 : Bytes → Digest} {cfg : XferConfig} {ida idb : DeviceId} {content : PathBuf → Bytes}
  {one : Option PeersFile} {dir : PathBuf} {s s' : Duo} {e : DuoEvent} {id : Nat}

/-- A call after a step is an old one with the same name and source, or a new one. -/
private theorem TransferStep.call_back {peer : DeviceId} {mv : Move} {t t' : Transfer} {o' : Outgoing}
    (hs : TransferStep sha256 peer id mv t t') (hl : t'.call = some o') :
    (∃ o, t.call = some o ∧ o'.call.name = o.call.name ∧
      ∀ path, o'.call.source = .file path → o.call.source = .file path) ∨ (t.call = none ∧ mv = .begin o'.call) := by
  cases hs with
  | begin _ c hnone hc => cases hl; exact Or.inr ⟨hnone, rfl⟩
  | queue _ o m hl' hm =>
    cases hl
    refine Or.inl ⟨o, hl', ?_, ?_⟩
    · unfold SendCall.queued
      split <;> rfl
    · unfold SendCall.queued
      split <;> exact fun _ h => h
  | goOn _ o l c hl' hc =>
    cases hl
    have hon : o.call.ReadsOn c := SendCall.goOn_readsOn hc
    exact Or.inl ⟨o, hl', hon.name, hon.file⟩
  | answer _ o ok detail c hl' hack hc | timeout _ o c hl' hack hc =>
    cases hl
    refine Or.inl ⟨o, hl', ?_⟩
    unfold SendCall.answered at hc
    repeat' split at hc
    all_goals cases hc
    all_goals exact ⟨rfl, fun _ h => h⟩
  | handle => exact Or.inl ⟨o', hl, rfl, fun _ h => h⟩
  | hear _ ok detail rest ha =>
    by_cases hw : t.waiter = true
    · simp only [hw, if_true] at hl
      obtain ⟨o, ho, rfl⟩ := Option.map_eq_some_iff.1 hl
      exact Or.inl ⟨o, ho, rfl, fun _ h => h⟩
    · simp only [hw] at hl
      exact Or.inl ⟨o', hl, rfl, fun _ h => h⟩

theorem duoCarried_start {fs : FileSys PathBuf} (hempty : EmptyDownload cfg fs) :
    DuoCarried sha256 cfg ida content one (Duo.start fs) where
  waiting := ⟨fun _ _ => rfl, fun _ h => by cases h⟩
  transfers id := ⟨fun _ => ⟨rfl, rfl, rfl, rfl, rfl⟩, fun o hl => by cases hl⟩
  requested := requested_start fs
  room := room_start fs
  whole := whole_start cfg fs
  own k inc h := by cases h
  names id id' o o' h := by cases h
  tidy := by
    refine ⟨fun dir hdir i => ?_, fun dir hdir n id hn => ?_⟩
    · show fs.node dir ≠ some (.file i)
      rcases hdir.1 with rfl | rfl
      · exact hempty.directory i
      · rw [hempty.children "pending" (by decide)]
        simp
    · obtain ⟨n', hn', heq⟩ := tmpPathFor_child dir hn id
      show fs.node (tmpPathFor dir n id) ≠ some .dir
      rw [heq, hempty.free hdir.1 hn']
      simp
  free dir n hdir hn _ := hempty.free hdir.1 hn.bare
  arrived id o path h := by cases h

private theorem unsent_of_done {c : SendCall} (h₁ : c.isStarting = false) (h₂ : c.isStreaming = false) :
    c.unsent = [] ∧ c.isDone = true := by
  cases hphase : c.phase with
  | starting => simp [SendCall.isStarting, hphase] at h₁
  | opening | reading | sending | ending => simp [SendCall.isStreaming, hphase] at h₂
  | awaiting | returned => simp [SendCall.unsent, SendCall.isDone, hphase]

theorem StartedIn.mono {log : Log} (h : StartedIn cfg ida log id dir) (x : Frame × List Effect) :
    StartedIn cfg ida (log ++ [x]) id dir := by
  obtain ⟨y, hy, h⟩ := h
  exact ⟨y, List.mem_append_left _ hy, h⟩

private theorem OwnEntry.mono {log : Log} {k : XferKey} {inc : Incoming} (h : OwnEntry cfg ida one log k inc)
    (x : Frame × List Effect) : OwnEntry cfg ida one (log ++ [x]) k inc := by
  obtain ⟨hp, hsink⟩ := h
  refine ⟨hp, fun tmp dir file hs => ?_⟩
  obtain ⟨husable, hstarted⟩ := hsink tmp dir file hs
  exact ⟨husable, hstarted.mono x⟩

theorem Requested.sendable (h : Requested one s) {o : Outgoing} (hl : s.a.calls.lookup id = some o) :
    Sendable one o.call.name := by
  obtain ⟨r, hr, -, hname⟩ := h.called id o hl
  obtain ⟨name, hname', hplain, hother⟩ := h.named r hr
  obtain rfl : name = o.call.name := Option.mem_unique hname' hname
  exact ⟨safeBlobName_bare hplain.1, hplain.2, hother⟩

/-- What the receiver does with a frame of transfer `id`: everything but the end leaves the destinations alone and is
not answered; the end puts the file at its destination and is acknowledged. -/
structure Accepted (cfg : XferConfig) (ida : DeviceId) (content : PathBuf → Bytes) (one : Option PeersFile) (s : Duo)
    (id : Nat) (o : Outgoing) (f : Frame) (out : Rx × List Effect) : Prop where
  tidy : Tidy cfg ida one out.1.fs
  own : ∀ k inc, out.1.incoming.lookup k = some inc → OwnEntry cfg ida one (s.b.log ++ [(f, out.2)]) k inc
  opened : out.1.incoming.keys.toFinset = afterFrame ida s.b.rx.incoming.keys.toFinset f.msg
  apart : KeepsApart cfg s.b f
  result : (f.msg.isEnd = false ∧ sentTo ida out.2 = [] ∧ out.2.any Effect.isRename = false ∧
      Undisturbed cfg ida one s.b.rx.fs out.1.fs none) ∨
    (f.msg.isEnd = true ∧ sentTo ida out.2 = [.blobAck id true o.call.name] ∧ out.2.any Effect.isRename = true ∧
      Undisturbed cfg ida one s.b.rx.fs out.1.fs (some o.call.name) ∧
      ∀ path, o.call.source = .file path → ∃ dir, Usable cfg ida one dir ∧ StartedIn cfg ida s.b.log id dir ∧
        out.1.fs.read (join dir o.call.name) = some (content path))

/-- The destination of a transfer that is open is free. -/
private theorem DuoCarried.dest_free (h : DuoCarried sha256 cfg ida content one s) {o : Outgoing}
    (hl : s.a.calls.lookup id = some o) (hdir : Usable cfg ida one dir) (hp : (s.transfer ida id).placed = 0) :
    s.b.rx.fs.node (join dir o.call.name) = none := by
  refine h.free _ _ hdir (h.requested.sendable hl) fun id' o' hl' hname => ?_
  obtain rfl := h.names id' id o' o hl' hl hname
  rw [mem_placedIds]
  exact not_not.2 hp

section Entries

variable {m : AList fun _ : XferKey => Incoming} {inc : Incoming} {log : Log}

/-- An entry for `ida` joins others of this kind. -/
private theorem own_insert (h : ∀ k inc, m.lookup k = some inc → OwnEntry cfg ida one log k inc)
    (x : Frame × List Effect) (hinc : OwnEntry cfg ida one (log ++ [x]) (ida, id) inc) (k : XferKey) (inc' : Incoming)
    (hk : (m.insert (ida, id) inc).lookup k = some inc') : OwnEntry cfg ida one (log ++ [x]) k inc' := by
  rcases lookup_insert_eq_some.1 hk with ⟨rfl, rfl⟩ | ⟨-, hk⟩
  · exact hinc
  · exact (h k inc' hk).mono x

private theorem own_erase (h : ∀ k inc, m.lookup k = some inc → OwnEntry cfg ida one log k inc)
    (x : Frame × List Effect) (k : XferKey) (inc' : Incoming) (hk : (m.erase (ida, id)).lookup k = some inc') :
    OwnEntry cfg ida one (log ++ [x]) k inc' := by
  obtain ⟨-, hk⟩ := lookup_erase_eq_some.1 hk
  exact (h k inc' hk).mono x

end Entries

private theorem DuoCarried.accepts_start (h : DuoCarried sha256 cfg ida content one s) {o : Outgoing}
    {registry : PeersFile} (hplain : Plain o.call.name) (hdir : Usable cfg ida one (finalDirFor cfg registry ida))
    (hlen : s.b.rx.incoming.keys.length < maxConcurrentIncoming) :
    Accepted cfg ida content one s id o ⟨ida, .blobStart id o.call.name o.call.size .file, registry, Io.ok⟩
      (handled sha256 cfg s.b ⟨ida, .blobStart id o.call.name o.call.size .file, registry, Io.ok⟩) := by
  obtain ⟨tmp, fs, handle, hout, htidy, hkeep⟩ := onStart_accepts id o.call.size h.tidy hplain hdir hlen
  have hout : handled sha256 cfg s.b ⟨ida, .blobStart id o.call.name o.call.size .file, registry, Io.ok⟩ = _ := hout
  rw [hout]
  refine ⟨htidy, own_insert h.own _ ⟨rfl, ?_⟩, toFinset_keys_insert .., ?_, Or.inl ⟨rfl, rfl, rfl, hkeep⟩⟩
  · intro tmp' dir file hsink
    cases hsink
    exact ⟨hdir, _, List.mem_append_right _ (List.mem_singleton_self _), rfl, rfl, rfl, rfl⟩
  · exact fun safe k inc tmp file _ hk _ _ _ => (h.own k inc hk).1

private theorem DuoCarried.accepts_chunk (h : DuoCarried sha256 cfg ida content one s) {inc : Incoming} {tmp : PathBuf}
    {file : OpenFile} (hl : s.b.rx.incoming.lookup (ida, id) = some inc) (hs : inc.sink = .file tmp dir file)
    (o : Outgoing) (data : Bytes) (registry : PeersFile) :
    Accepted cfg ida content one s id o ⟨ida, .blobChunk id data, registry, Io.ok⟩
      (handled sha256 cfg s.b ⟨ida, .blobChunk id data, registry, Io.ok⟩) := by
  have hok := h.whole.files _ inc tmp dir file hl hs
  obtain ⟨hdir, hstarted⟩ := (h.own _ inc hl).2 tmp dir file hs
  obtain ⟨fs, file', hout, htidy, hkeep⟩ := onChunk_accepts data h.tidy hdir hl hs hok
  have hout : handled sha256 cfg s.b ⟨ida, .blobChunk id data, registry, Io.ok⟩ = _ := hout
  rw [hout]
  refine ⟨htidy, own_insert h.own _ ⟨rfl, ?_⟩, ?_, trivial, Or.inl ⟨rfl, rfl, rfl, hkeep⟩⟩
  · intro tmp' d' file' hs'
    cases hs'
    exact ⟨hdir, hstarted.mono _⟩
  · rw [toFinset_keys_insert]
    exact Finset.insert_eq_of_mem
      (List.mem_toFinset.2 (AList.mem_keys.1 (AList.lookup_isSome.1 (by rw [hl]; rfl))))

private theorem DuoCarried.accepts_end (h : DuoCarried sha256 cfg ida content one s) {inc : Incoming} {tmp : PathBuf}
    {file : OpenFile} {o : Outgoing} {sha : Digest} (registry : PeersFile)
    (hl : s.b.rx.incoming.lookup (ida, id) = some inc) (hs : inc.sink = .file tmp dir file)
    (hname : inc.name = o.call.name) (hsend : Sendable one o.call.name) (hsha : sha256 inc.hasher = sha)
    (hsize : inc.written = inc.declared) (hfree : s.b.rx.fs.node (join dir o.call.name) = none)
    (hcontent : ∀ path, o.call.source = .file path → inc.hasher = content path) :
    Accepted cfg ida content one s id o ⟨ida, .blobEnd id sha, registry, Io.ok⟩
      (handled sha256 cfg s.b ⟨ida, .blobEnd id sha, registry, Io.ok⟩) := by
  have hok := h.whole.files _ inc tmp dir file hl hs
  obtain ⟨hdir, hstarted⟩ := (h.own _ inc hl).2 tmp dir file hs
  rw [← hname] at hfree hsend
  obtain ⟨fs, shown, hout, htidy, hkeep, hread⟩ :=
    onEnd_accepts registry h.tidy hdir hl hs hok hsend hsha hsize hfree
  have hout : handled sha256 cfg s.b ⟨ida, .blobEnd id sha, registry, Io.ok⟩ = _ := hout
  rw [hout]
  refine ⟨htidy, own_erase h.own _, toFinset_keys_erase .., ?_, Or.inr ⟨rfl, ?_, rfl, ?_, fun path hpath => ?_⟩⟩
  · -- the first candidate name is free
    intro inc' tmp' d' file' hk hs' htaken
    rw [hl] at hk
    cases hk
    rw [hs] at hs'
    cases hs'
    have htaken := htaken inc.name (List.mem_cons_self ..)
    rw [FileSys.present, hfree] at htaken
    cases htaken
  · rw [← hname, sentTo_rename, sentTo_send, if_pos rfl]
    rfl
  · rw [← hname]
    exact hkeep
  · refine ⟨dir, hdir, hstarted, ?_⟩
    rw [← hname, ← hcontent path hpath]
    exact hread

/-- The receiver accepts the first frame of a transfer that is on its way. -/
theorem DuoCarried.accepts (h : DuoCarried sha256 cfg ida content one s) {m : Message} {rest : List Message}
    {registry : PeersFile} (hq : s.toB = m :: rest) (hid : blobId m = some id)
    (hdir : Usable cfg ida one (finalDirFor cfg registry ida)) :
    ∃ o, s.a.calls.lookup id = some o ∧ Accepted cfg ida content one s id o ⟨ida, m, registry, Io.ok⟩
      (handled sha256 cfg s.b ⟨ida, m, registry, Io.ok⟩) := by
  have hframes : (s.transfer ida id).frames = m :: rest.filter (blobId · = some id) := by
    simp [Duo.transfer, hq, hid]
  obtain ⟨o, hl⟩ : ∃ o, s.a.calls.lookup id = some o := by
    refine Option.ne_none_iff_exists'.1 fun hnone => ?_
    rw [((h.transfers id).unused hnone).1] at hframes
    cases hframes
  refine ⟨o, hl, ?_⟩
  have hcall := (h.transfers id).call o hl
  obtain ⟨path, hf⟩ := hcall.faithful
  cases hcall.carriage with
  | fresh _ hfr => rw [hfr] at hframes; cases hframes
  | placed _ _ hfr => rw [hfr] at hframes; cases hframes
  | sent rest' hc hfr he hu hb =>
    rw [hfr, List.cons.injEq] at hframes
    obtain ⟨rfl, -⟩ := hframes
    exact h.accepts_start hf.plain hdir (h.room.first hq rfl)
  | opened inc hc hfr he hu hfile hname hsize hw hb =>
    have hentry : s.b.rx.incoming.lookup (ida, id) = some inc := he
    obtain ⟨tmp, dir, file, hsink⟩ : ∃ tmp dir file, inc.sink = .file tmp dir file := by
      unfold Incoming.isFile at hfile
      split at hfile
      · rename_i tmp dir file hsink
        exact ⟨tmp, dir, file, hsink⟩
      · cases hfile
    have hmstart : m.isStart = false := hfr m (by rw [hframes]; exact List.mem_cons_self ..)
    cases m with
    | blobStart => cases hmstart
    | blobChunk id' data =>
      obtain rfl : id' = id := Option.some.inj hid
      exact h.accepts_chunk hentry hsink o data registry
    | blobEnd id' sha =>
      obtain rfl : id' = id := Option.some.inj hid
      have hmem : Message.blobEnd id' sha ∈ (s.transfer ida id').frames := by rw [hframes]; exact List.mem_cons_self ..
      obtain ⟨hst, hstr⟩ := hcall.ended ⟨_, hmem, rfl⟩
      obtain ⟨hunsent, hdone⟩ := unsent_of_done hst hstr
      -- nothing is on its way after the end
      have hlast : rest.filter (blobId · = some id') = [] := by
        have horder := hcall.order
        rw [hframes, List.pairwise_cons] at horder
        refine List.eq_nil_iff_forall_not_mem.2 fun m' hm' => ?_
        have hend : (Message.blobEnd id' sha).isEnd = false := (horder.1 m' hm').1
        cases hend
      have hbytes : inc.hasher = o.call.hasher := by
        rw [hframes, hlast, hunsent] at hb
        simpa [Message.payload] using hb
      have husable := ((h.own _ inc hentry).2 tmp dir file hsink).1
      refine h.accepts_end registry hentry hsink hname (h.requested.sendable hl) ?_ ?_
        (h.dest_free hl husable hu.placed) fun path' hpath' => ?_
      · rw [hbytes, hcall.digest sha hmem]
      · rw [hw, hsize, hf.size, hbytes, hf.whole hdone]
      · rw [hf.source] at hpath'
        cases hpath'
        rw [hbytes, hf.whole hdone]
    | _ => cases hid

/-- The directory of a step of the setting. -/
theorem usable_of_smooth {registry : PeersFile}
    (h : ∀ r ∈ one, finalDirFor cfg registry ida = finalDirFor cfg r ida) :
    Usable cfg ida one (finalDirFor cfg registry ida) :=
  ⟨finalDirFor_cases cfg registry ida, h⟩

/-- The setting gives what a step of a transfer needs. -/
private theorem smooth_move {mv : Move} (h : DuoCarried sha256 cfg ida content one s)
    (hsmooth : Smooth cfg ida content one s e) (hc : mv.Caused sha256 cfg ida s e id) :
    mv.Smooth content id (s.transfer ida id) := by
  cases mv with
  | begin c =>
    obtain ⟨-, ⟨j, r, stat, rfl, hr, hc⟩ | ⟨png, rfl, -⟩⟩ := hc
    · obtain ⟨c', hc', hf, -⟩ := h.requested.begins hr (hsmooth r hr).2
      rw [hc] at hc'
      cases hc'
      exact ⟨r.path, hf⟩
    · exact False.elim hsmooth
  | goOn l =>
    cases l with
    | opened err =>
      obtain rfl : e = .openFile id err := hc
      exact hsmooth
    | read res =>
      obtain rfl : e = .read id res := hc
      exact hsmooth
    | nextChunk => trivial
  | handle acks renamed room =>
    obtain ⟨io, registry, m, rest, rfl, hq, hid, rfl, rfl, rfl⟩ := hc
    obtain ⟨rfl, hdir, hroom⟩ := hsmooth
    obtain ⟨o, -, hacc⟩ := h.accepts hq hid (usable_of_smooth hdir)
    rcases hacc.result with ⟨-, hsent, -⟩ | ⟨hend, hsent, -⟩
    · rw [hsent]
      exact ⟨fun _ => List.not_mem_nil, fun h => absurd rfl h⟩
    · rw [hsent]
      exact ⟨fun _ h => by simp at h, fun _ => decide_eq_true (hroom m (by rw [hq]; rfl) hend)⟩
  | queue | answer | timeout | hear => trivial

/-- A call after a step is an old one or has the name of a request that was not tried. -/
private theorem DuoCarried.calls (h : DuoCarried sha256 cfg ida content one s)
    (hsmooth : Smooth cfg ida content one s e) (hs : duoStep sha256 cfg ida idb s e = some s')
    (htransfers : ∀ id, TransferCarried sha256 content id (s'.transfer ida id)) :
    CallsStay s s' ∧ ∀ o', s'.a.calls.lookup s.a.nextId = some o' →
      (∃ j stat, e = .attempt j stat) ∧ ∀ id o, s.a.calls.lookup id = some o → o.call.name ≠ o'.call.name := by
  have hmoves : ∀ id, Moves sha256 cfg ida idb s e s' id := transfer_step h.waiting.fresh hs
  refine ⟨⟨fun id o hl => ?_, fun id o' hl' hne => ?_⟩, fun o' hl' => ?_⟩
  · rcases hmoves id with heq | ⟨mv, hmv, -⟩
    · exact ⟨o, (congrArg Transfer.call heq).trans hl, rfl, fun _ h => h⟩
    · obtain ⟨o', hl', -⟩ := hmv.call_stays hl
      refine ⟨o', hl', ?_⟩
      rcases hmv.call_back hl' with ⟨o₀, hl₀, hname, hsource⟩ | ⟨hnone, -⟩
      · rw [show s.a.calls.lookup id = some o₀ from hl₀] at hl
        cases hl
        refine ⟨hname, fun path hpath => ?_⟩
        obtain ⟨path', hf⟩ := ((htransfers id).call o' hl').faithful
        rw [hsource path' hf.source] at hpath
        cases hpath
        exact hf.source
      · rw [show s.a.calls.lookup id = none from hnone] at hl
        cases hl
  · rcases hmoves id with heq | ⟨mv, hmv, hcaused⟩
    · exact ⟨o', (congrArg Transfer.call heq).symm.trans hl', rfl, fun _ h => h⟩
    · rcases hmv.call_back hl' with hold | ⟨-, rfl⟩
      · exact hold
      · exact absurd hcaused.1 hne
  · have hnone : (s.transfer ida s.a.nextId).call = none := h.waiting.fresh _ le_rfl
    rcases hmoves s.a.nextId with heq | ⟨mv, hmv, hcaused⟩
    · rw [show s'.a.calls.lookup s.a.nextId = s.a.calls.lookup s.a.nextId from congrArg Transfer.call heq,
        show s.a.calls.lookup s.a.nextId = none from hnone] at hl'
      cases hl'
    · rcases hmv.call_back hl' with ⟨o, hl, -⟩ | ⟨-, rfl⟩
      · rw [hnone] at hl
        cases hl
      · obtain ⟨-, ⟨j, r, stat, rfl, hr, hc⟩ | ⟨png, rfl, -⟩⟩ := hcaused
        · refine ⟨⟨j, stat, rfl⟩, fun id o hl hname => ?_⟩
          obtain ⟨hzero, hstat⟩ := hsmooth r hr
          obtain ⟨c, hc', -, hcname⟩ := h.requested.begins hr hstat
          rw [hc] at hc'
          cases hc'
          exact h.requested.fresh (List.mem_of_getElem? hr) hzero id o hl (by rw [hname]; exact hcname)
        · exact False.elim hsmooth

/-- No step but the queueing of a frame opens or closes a stream. -/
private theorem DuoCarried.openIds_step (h : DuoCarried sha256 cfg ida content one s)
    (hsmooth : Smooth cfg ida content one s e) (hs : duoStep sha256 cfg ida idb s e = some s')
    (he : ∀ k, e ≠ .queue k) : s'.openIds = s.openIds := by
  ext id
  rw [mem_openIds, mem_openIds]
  have hmoves : Moves sha256 cfg ida idb s e s' id := transfer_step h.waiting.fresh hs id
  rcases hmoves with heq | ⟨mv, hmv, hcaused⟩
  · rw [show s'.a.calls.lookup id = s.a.calls.lookup id from congrArg Transfer.call heq]
  · refine hmv.isStreaming ?_ (smooth_move h hsmooth hcaused) fun o hl => ((h.transfers id).call o hl).faithful
    rintro rfl
    exact he id hcaused

/-- Only its router changes the receiver. -/
private theorem duoStep_receiver (hs : duoStep sha256 cfg ida idb s e = some s')
    (hprocess : ∀ io registry, e ≠ .process io registry) (hforeign : ∀ f, e ≠ .foreign f) : s'.b = s.b := by
  cases e with
  | process io registry => exact absurd rfl (hprocess io registry)
  | foreign f => exact absurd rfl (hforeign f)
  | sendWithRetry path | elsewhere | sendClipImage png =>
    cases hs
    rfl
  | attempt j stat =>
    simp only [duoStep] at hs
    repeat' split at hs
    all_goals cases hs
    unfold Duo.beginAttempt
    split <;> rfl
  | settle j =>
    simp only [duoStep] at hs
    repeat' split at hs
    all_goals cases hs
    rfl
  | queue k | openFile k err | read k res | nextChunk k | answer k | timeout k =>
    obtain ⟨out, -, rfl⟩ := Option.map_eq_some_iff.1 hs
    rfl
  | chatA msg | chatB msg | transmit | receive =>
    simp only [duoStep] at hs
    split at hs
    all_goals cases hs
    rfl

/-- What a step leaves to be shown when it leaves the receiver alone. -/
private theorem DuoCarried.of_b (h : DuoCarried sha256 cfg ida content one s) (hb : s'.b = s.b)
    (hwaiting : Waiting s'.a) (htransfers : ∀ id, TransferCarried sha256 content id (s'.transfer ida id))
    (hrequested : Requested one s') (hroom : Room ida s') (hstay : CallsStay s s')
    (hnew : ∀ o', s'.a.calls.lookup s.a.nextId = some o' →
      ∀ id o, s.a.calls.lookup id = some o → o.call.name ≠ o'.call.name) :
    DuoCarried sha256 cfg ida content one s' := by
  refine ⟨hwaiting, htransfers, hrequested, hroom, by rw [hb]; exact h.whole, by rw [hb]; exact h.own, ?_,
    by rw [hb]; exact h.tidy, ?_, ?_⟩
  · intro id id' o o' hl hl' hname
    by_cases hid : id = s.a.nextId <;> by_cases hid' : id' = s.a.nextId
    · rw [hid, hid']
    · subst hid
      obtain ⟨p', hp', hpn', -⟩ := hstay.old id' o' hl' hid'
      exact absurd (hpn'.symm.trans hname.symm) (hnew o hl id' p' hp')
    · subst hid'
      obtain ⟨p, hp, hpn, -⟩ := hstay.old id o hl hid
      exact absurd (hpn.symm.trans hname) (hnew o' hl' id p hp)
    · obtain ⟨p, hp, hpn, -⟩ := hstay.old id o hl hid
      obtain ⟨p', hp', hpn', -⟩ := hstay.old id' o' hl' hid'
      exact h.names id id' p p' hp hp' (by rw [← hpn, hname, hpn'])
  · intro dir n hdir hn hnot
    rw [hb] at hnot ⊢
    refine h.free dir n hdir hn fun id o hl hname => ?_
    obtain ⟨o', hl', hname', -⟩ := hstay.stays id o hl
    exact hnot id o' hl' (hname'.trans hname)
  · intro id o' path hl' hsource hplaced
    rw [hb] at hplaced ⊢
    by_cases hid : id = s.a.nextId
    · -- an id that was not taken has nothing in place
      subst hid
      have hnone := ((h.transfers s.a.nextId).unused (h.waiting.fresh _ le_rfl)).2.2.placed
      exact absurd hnone ((mem_placedIds _).1 hplaced)
    · obtain ⟨o, hl, hname, hsrc⟩ := hstay.old id o' hl' hid
      rw [hname]
      exact h.arrived id o path hl (hsrc path hsource) hplaced

section Process

variable {m : Message} {rest : List Message} {registry : PeersFile}

/-- The receiver handles a frame that is not about a transfer. -/
private theorem DuoCarried.process_other (h : DuoCarried sha256 cfg ida content one s) (hq : s.toB = m :: rest)
    (hid : blobId m = none) (hs : s' = { s with toB := rest }.handle sha256 cfg ida ⟨ida, m, registry, Io.ok⟩)
    (htransfers : ∀ id, TransferCarried sha256 content id (s'.transfer ida id)) (hrequested : Requested one s') :
    DuoCarried sha256 cfg ida content one s' := by
  subst hs
  have hout : handled sha256 cfg s.b ⟨ida, m, registry, Io.ok⟩ = (s.b.rx, []) := by
    rcases handleBlob_handles sha256 cfg registry Io.ok s.b.rx ida m with ⟨id, hid', -⟩ | ⟨-, hout⟩
    · rw [hid] at hid'; cases hid'
    · exact hout
  have hrx : (receive sha256 cfg s.b ⟨ida, m, registry, Io.ok⟩).rx = s.b.rx := by simp [receive, hout]
  have hlog : (receive sha256 cfg s.b ⟨ida, m, registry, Io.ok⟩).log =
      s.b.log ++ [(⟨ida, m, registry, Io.ok⟩, [])] := by simp [receive, hout]
  have hplaced : placedIds ida (receive sha256 cfg s.b ⟨ida, m, registry, Io.ok⟩).log = placedIds ida s.b.log := by
    rw [placedIds_receive, hout, placedId_none rfl]
    simp
  have hapart : KeepsApart cfg s.b ⟨ida, m, registry, Io.ok⟩ := by
    unfold KeepsApart
    cases m <;> trivial
  have hroom : Room ida ({ s with toB := rest }.handle sha256 cfg ida ⟨ida, m, registry, Io.ok⟩) :=
    h.room.handle hq rfl (by rw [afterFrame_none hid, Duo.handle, hrx]) rfl
  refine ⟨h.waiting, htransfers, hrequested, hroom, whole_receive h.whole rfl hapart, fun k inc hk => ?_, h.names,
    by simpa [Duo.handle, hrx] using h.tidy, by simpa [Duo.handle, hrx, hplaced] using h.free,
    fun id o path hl hsource hin => ?_⟩
  · simp only [Duo.handle, hrx, hlog] at hk ⊢
    exact (h.own k inc hk).mono _
  · simp only [Duo.handle, hplaced] at hin
    obtain ⟨dir, husable, hstarted, hread⟩ := h.arrived id o path hl hsource hin
    simp only [Duo.handle, hrx, hlog]
    exact ⟨dir, husable, hstarted.mono _, hread⟩

/-- A file delivered earlier stays what it is when its destination is left alone. -/
private theorem DuoCarried.stays_delivered (h : DuoCarried sha256 cfg ida content one s) {f : Frame}
    {name : Option String} (hkeep : Undisturbed cfg ida one s.b.rx.fs (handled sha256 cfg s.b f).1.fs name)
    {o : Outgoing} {path : PathBuf} (hl : s.a.calls.lookup id = some o) (hsource : o.call.source = .file path)
    (hin : id ∈ placedIds ida s.b.log) (hne : some o.call.name ≠ name) :
    ∃ dir, Usable cfg ida one dir ∧ StartedIn cfg ida (receive sha256 cfg s.b f).log id dir ∧
      (receive sha256 cfg s.b f).rx.fs.read (join dir o.call.name) = some (content path) := by
  obtain ⟨dir, husable, hstarted, hread⟩ := h.arrived id o path hl hsource hin
  exact ⟨dir, husable, hstarted.mono _, ((hkeep dir _ husable (h.requested.sendable hl) hne).read).trans hread⟩

/-- The receiver handles a frame of transfer `id`. -/
private theorem DuoCarried.process_blob (h : DuoCarried sha256 cfg ida content one s) (hq : s.toB = m :: rest)
    (hid : blobId m = some id) (hdir : Usable cfg ida one (finalDirFor cfg registry ida))
    (hs : s' = { s with toB := rest }.handle sha256 cfg ida ⟨ida, m, registry, Io.ok⟩)
    (htransfers : ∀ id, TransferCarried sha256 content id (s'.transfer ida id)) (hrequested : Requested one s') :
    DuoCarried sha256 cfg ida content one s' := by
  subst hs
  obtain ⟨o, hl, hacc⟩ := h.accepts hq hid hdir
  have hwhole : Whole cfg (receive sha256 cfg s.b ⟨ida, m, registry, Io.ok⟩) :=
    whole_receive h.whole rfl hacc.apart
  have hroom : Room ida ({ s with toB := rest }.handle sha256 cfg ida ⟨ida, m, registry, Io.ok⟩) :=
    h.room.handle hq rfl hacc.opened rfl
  have hplaced : ∀ (f : Frame), placedIds ida (receive sha256 cfg s.b f).log = placedIds ida s.b.log ++
    (placedId ida (f, (handled sha256 cfg s.b f).2)).toList := placedIds_receive
  rcases hacc.result with ⟨-, -, hren, hkeep⟩ | ⟨hend, -, hren, hkeep, hread⟩
  · have hsame : placedIds ida (receive sha256 cfg s.b ⟨ida, m, registry, Io.ok⟩).log = placedIds ida s.b.log := by
      rw [hplaced, placedId_none hren]
      simp
    refine ⟨h.waiting, htransfers, hrequested, hroom, hwhole, hacc.own, h.names, hacc.tidy,
      fun dir n hdir' hn hnot => ?_, fun id' o' path hl' hsource hin => ?_⟩
    · simp only [Duo.handle, hsame] at hnot
      exact ((hkeep dir n hdir' hn (fun h => by cases h)).1).trans (h.free dir n hdir' hn hnot)
    · simp only [Duo.handle, hsame] at hin
      exact h.stays_delivered hkeep hl' hsource hin fun h => by cases h
  · obtain ⟨sha, rfl⟩ : ∃ sha, m = .blobEnd id sha := by
      cases m with
      | blobEnd id' sha => cases hid; exact ⟨sha, rfl⟩
      | _ => cases hend
    have hmore : placedIds ida (receive sha256 cfg s.b ⟨ida, .blobEnd id sha, registry, Io.ok⟩).log =
        placedIds ida s.b.log ++ [id] := by
      rw [hplaced]
      simp [placedId, hren]
    refine ⟨h.waiting, htransfers, hrequested, hroom, hwhole, hacc.own, h.names, hacc.tidy,
      fun dir n hdir' hn hnot => ?_, fun id' o' path hl' hsource hin => ?_⟩
    · simp only [Duo.handle, hmore, List.mem_append, not_or] at hnot
      have hne : some n ≠ some o.call.name := by
        rintro ⟨rfl⟩
        exact (hnot id o hl rfl).2 (List.mem_singleton.2 rfl)
      exact ((hkeep dir n hdir' hn hne).1).trans
        (h.free dir n hdir' hn fun id' o' hl' hname => (hnot id' o' hl' hname).1)
    · simp only [Duo.handle, hmore, List.mem_append, List.mem_singleton] at hin
      by_cases hsame : id' = id
      · subst hsame
        rw [show s.a.calls.lookup id' = some o' from hl'] at hl
        cases hl
        obtain ⟨dir, husable, hstarted, hread⟩ := hread path hsource
        exact ⟨dir, husable, hstarted.mono _, hread⟩
      · refine h.stays_delivered hkeep hl' hsource (hin.resolve_right hsame) fun heq => ?_
        exact hsame (h.names id' id o' o hl' hl (Option.some.inj heq))

/-- The receiver handles a frame. -/
private theorem DuoCarried.process (h : DuoCarried sha256 cfg ida content one s) {io : Io}
    (hsmooth : Smooth cfg ida content one s (.process io registry))
    (hs : duoStep sha256 cfg ida idb s (.process io registry) = some s')
    (htransfers : ∀ id, TransferCarried sha256 content id (s'.transfer ida id)) (hrequested : Requested one s') :
    DuoCarried sha256 cfg ida content one s' := by
  obtain ⟨rfl, hdir, -⟩ := hsmooth
  simp only [duoStep] at hs
  split at hs
  · cases hs
  · rename_i m rest hq
    cases hid : blobId m with
    | none => exact h.process_other hq hid (Option.some.inj hs).symm htransfers hrequested
    | some id =>
      exact h.process_blob hq hid (usable_of_smooth hdir) (Option.some.inj hs).symm htransfers hrequested

end Process

/-- The step lemma: every step of the setting keeps the invariant. -/
theorem duoCarried_step (h : DuoCarried sha256 cfg ida content one s) (hsmooth : Smooth cfg ida content one s e)
    (hs : duoStep sha256 cfg ida idb s e = some s') : DuoCarried sha256 cfg ida content one s' := by
  have htransfers : ∀ id, TransferCarried sha256 content id (s'.transfer ida id) := by
    intro id
    rcases transfer_step h.waiting.fresh hs id with heq | ⟨mv, hmv, hcaused⟩
    · rw [heq]
      exact h.transfers id
    · exact transferCarried_step (h.transfers id) hmv (smooth_move h hsmooth hcaused)
  obtain ⟨hstay, hnew⟩ := h.calls hsmooth hs htransfers
  have hrequested : Requested one s' := by
    refine requested_step h.requested hsmooth hs hstay fun he => ?_
    refine Option.eq_none_iff_forall_not_mem.2 fun o' hl' => ?_
    obtain ⟨⟨j, stat, rfl⟩, -⟩ := hnew o' hl'
    exact he j stat rfl
  by_cases he : ∃ io registry, e = .process io registry
  · obtain ⟨io, registry, rfl⟩ := he
    exact h.process hsmooth hs htransfers hrequested
  · have hroom : Room ida s' :=
      room_step h.room hsmooth hs (h.openIds_step hsmooth hs) fun io registry heq => he ⟨io, registry, heq⟩
    refine h.of_b ?_ (duo_waiting h.waiting hs) htransfers hrequested hroom hstay fun o' hl' => (hnew o' hl').2
    exact duoStep_receiver hs (fun io registry heq => he ⟨io, registry, heq⟩) fun f heq => by
      subst heq
      exact hsmooth

/-- A transfer whose frames were all handled was acknowledged with `ok = true`, and the file at its destination has the
bytes of the source. -/
theorem DuoCarried.delivered (h : DuoCarried sha256 cfg ida content one s) {o : Outgoing} {path : PathBuf}
    (hl : s.a.calls.lookup id = some o) (hsource : o.call.source = .file path) (hdone : Carried ida s id o) :
    AckedOk ida s id ∧ ∃ dir, Usable cfg ida one dir ∧ StartedIn cfg ida s.b.log id dir ∧
      s.b.rx.fs.read (join dir o.call.name) = some (content path) := by
  obtain ⟨hst, hstr, hfr⟩ := hdone
  cases ((h.transfers id).call o hl).carriage with
  | fresh hc => rw [hst] at hc; cases hc
  | sent rest _ hfr' => rw [hfr] at hfr'; cases hfr'
  | opened _ _ _ _ _ _ _ _ _ _ hend =>
    obtain ⟨m, hm, -⟩ := hend hstr
    rw [hfr] at hm
    cases hm
  | placed _ _ _ _ hp hacked =>
    exact ⟨hacked, h.arrived id o path hl hsource ((mem_placedIds id).2 (by rw [hp]; exact one_ne_zero))⟩

end System

end Qdrop
