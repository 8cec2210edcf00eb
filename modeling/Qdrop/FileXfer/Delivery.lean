import Mathlib.Algebra.BigOperators.Group.Finset.Basic
import Qdrop.FileXfer.RoundTrip

/-!
# Every file arrives

The setting of the round trip never gets stuck: as long as a file that was asked for has not been sent, or a frame or an
acknowledgement is on its way, some step of the setting leaves less to do (`Duo.todo`).  So every run can be carried on
until all transfers are over, and then every file is at its destination (`round_trip`).
-/

namespace Qdrop

open Lib

/-! ### What is left to do -/

/-- The steps left to a call and, for each of its frames, those of the frame and its answer on the way. -/
def SendCall.todo (c : SendCall) : Nat :=
  let left := c.size - c.hasher.length
  match c.phase with
  | .starting => 10 + 5 * left
  | .opening => 6 + 5 * left
  | .reading => 5 + 5 * left
  | .sending _ => 9 + 5 * left
  | .ending => 4
  | .awaiting | .returned _ => 0

/-- A file that was not tried yet has its whole call before it. -/
def RetryCall.todo (content : PathBuf → Bytes) (r : RetryCall) : Nat :=
  if r.attempt = 0 then 11 + 5 * (content r.path).length else 0

def Sender.todo (a : Sender) : Nat := ∑ id ∈ Finset.range a.nextId, (a.calls.lookup id).elim 0 (·.call.todo)

def Duo.todo (content : PathBuf → Bytes) (s : Duo) : Nat :=
  (s.retries.map (RetryCall.todo content)).sum + s.a.todo + 3 * s.toB.length + 2 * s.out.length + s.toA.length

section Todo

variable {a a' : Sender} {id : Nat} {o : Outgoing} {c : SendCall}

/-- Replacing an element of a list changes a sum over it by what the two contribute. -/
private theorem sum_map_set {α : Type} (w : α → Nat) {l : List α} {j : Nat} {x : α} (h : l[j]? = some x) (y : α) :
    ((l.set j y).map w).sum + w x = (l.map w).sum + w y := by
  induction l generalizing j with
  | nil => cases h
  | cons z l ih =>
    cases j with
    | zero =>
      obtain rfl : z = x := by simpa using h
      simp only [List.set_cons_zero, List.map_cons, List.sum_cons]
      omega
    | succ j =>
      have h' := ih (j := j) (by simpa using h)
      simp only [List.set_cons_succ, List.map_cons, List.sum_cons]
      omega

private theorem todo_of_isStarting (h : c.isStarting = true) : c.todo = 10 + 5 * (c.size - c.hasher.length) := by
  unfold SendCall.isStarting at h
  split at h
  · rename_i hphase
    simp only [SendCall.todo, hphase]
  · cases h

/-- A sum in which one summand changes. -/
private theorem sum_change {f g : Nat → Nat} {t : Finset Nat} {i : Nat} (hi : i ∈ t) (h : ∀ j, j ≠ i → g j = f j) :
    ∑ j ∈ t, g j + f i = ∑ j ∈ t, f j + g i := by
  have hf := Finset.add_sum_erase t f hi
  have hg := Finset.add_sum_erase t g hi
  have hrest : ∑ j ∈ t.erase i, g j = ∑ j ∈ t.erase i, f j :=
    Finset.sum_congr rfl fun j hj => h j (Finset.ne_of_mem_erase hj)
  omega

/-- A call goes on, the others stay. -/
private theorem todo_put (hl : a.calls.lookup id = some o) (hid : id < a.nextId) :
    (a.put id o c).todo + o.call.todo = a.todo + c.todo := by
  have hother : ∀ id', id' ≠ id →
      ((a.put id o c).calls.lookup id').elim 0 (·.call.todo) = (a.calls.lookup id').elim 0 (·.call.todo) := by
    intro id' hne
    rw [show (a.put id o c).calls = a.calls.insert id { o with call := c } from rfl, AList.lookup_insert_ne hne]
  have hnew : ((a.put id o c).calls.lookup id).elim 0 (·.call.todo) = c.todo := by
    rw [show (a.put id o c).calls = a.calls.insert id { o with call := c } from rfl, AList.lookup_insert]
    rfl
  have hsum := sum_change (Finset.mem_range.2 hid) hother
  rw [hnew, hl] at hsum
  exact hsum

private theorem todo_begin (peer : DeviceId) (c : SendCall) : (a.begin peer c).todo = a.todo + c.todo := by
  unfold Sender.todo
  rw [show (a.begin peer c).nextId = a.nextId + 1 from rfl, Finset.sum_range_succ]
  congr 1
  · refine Finset.sum_congr rfl fun id hid => ?_
    rw [show (a.begin peer c).calls = a.calls.insert a.nextId ⟨peer, c, none, none⟩ from rfl,
      AList.lookup_insert_ne (Finset.mem_range.1 hid).ne]
  · rw [show (a.begin peer c).calls = a.calls.insert a.nextId ⟨peer, c, none, none⟩ from rfl, AList.lookup_insert]
    rfl

/-- An incoming frame leaves the calls where they are. -/
private theorem todo_inbound (peer : DeviceId) (m : Message) : (a.inbound peer m).todo = a.todo := by
  have hcalls : ∀ (b : Sender) (k : Nat) (ok : Bool) (detail : String) (id : Nat),
      ((b.onAck peer k ok detail).calls.lookup id).elim 0 (·.call.todo) =
        (b.calls.lookup id).elim 0 (·.call.todo) := by
    intro b k ok detail id
    unfold Sender.onAck
    split
    · cases hl : b.calls.lookup k with
      | none => rfl
      | some o =>
        by_cases hid : id = k
        · subst hid
          rw [hl]
          simp [AList.lookup_insert]
        · simp [AList.lookup_insert_ne hid]
    · rfl
  have hnext : ∀ (b : Sender) (k : Nat) (ok : Bool) (detail : String),
      (b.onAck peer k ok detail).nextId = b.nextId := by
    intro b k ok detail
    unfold Sender.onAck
    split <;> rfl
  cases m with
  | blobAck k ok detail =>
    simp only [Sender.inbound, Sender.todo, hnext, hcalls]
  | _ => rfl

end Todo

/-! ### There is always a next step -/

/-- Every file that was asked for has been sent, every transfer is over, and the acknowledgements have come in. -/
structure Completed (ida : DeviceId) (s : Duo) : Prop where
  sent : ∀ r ∈ s.retries, ∃ id o, s.a.calls.lookup id = some o ∧ o.call.source = .file r.path
  carried : ∀ id o, s.a.calls.lookup id = some o → Carried ida s id o
  heard : s.toA ++ s.out = []

section Advance

variable (sha256 : Bytes → Digest) (cfg : XferConfig) (ida idb : DeviceId) (content : PathBuf → Bytes)
  (one : Option PeersFile) (s : Duo)

/-- A step of the setting asks for no other file and leaves less to do. -/
def DuoAdvances : Prop :=
  ∃ e s', Smooth cfg ida content one s e ∧ duoStep sha256 cfg ida idb s e = some s' ∧
    s'.retries.map RetryCall.path = s.retries.map RetryCall.path ∧ s'.todo content < s.todo content

variable {sha256 cfg ida idb content one s} {id : Nat} {o : Outgoing} {m : Message} {rest : List Message}

private theorem advances_transmit (hout : s.out = m :: rest) : DuoAdvances sha256 cfg ida idb content one s := by
  refine ⟨.transmit, { s with out := rest, toA := s.toA ++ [m] }, trivial, ?_, rfl, ?_⟩
  · simp [duoStep, hout]
  · simp only [Duo.todo, hout, List.length_append, List.length_cons, List.length_nil]
    omega

private theorem advances_receive (hto : s.toA = m :: rest) : DuoAdvances sha256 cfg ida idb content one s := by
  refine ⟨.receive, { s with toA := rest, a := s.a.inbound idb m }, trivial, ?_, rfl, ?_⟩
  · simp [duoStep, hto]
  · simp only [Duo.todo, hto, todo_inbound, List.length_cons]
    omega

private theorem length_foldl_trySend (out msgs : List Message) :
    (msgs.foldl trySend out).length ≤ out.length + msgs.length := by
  induction msgs generalizing out with
  | nil => exact le_rfl
  | cons m msgs ih =>
    have hone : (trySend out m).length ≤ out.length + 1 := by
      unfold trySend
      split <;> simp
    have hle := ih (trySend out m)
    rw [List.foldl_cons, List.length_cons]
    omega

private theorem advances_process (hq : s.toB = m :: rest) (hroom : m.isEnd = true → s.out.length < outboundCap) :
    DuoAdvances sha256 cfg ida idb content one s := by
  let f : Frame := ⟨ida, m, one.getD .absent, Io.ok⟩
  refine ⟨.process Io.ok (one.getD .absent), { s with toB := rest }.handle sha256 cfg ida f, ⟨rfl, ?_, ?_⟩, ?_, rfl, ?_⟩
  · rintro r rfl
    rfl
  · rw [hq]
    rintro m' ⟨rfl⟩ hend
    exact hroom hend
  · simp only [duoStep, hq]
    rfl
  · -- a frame gives way to at most one answer
    have hone : (sentTo ida (handled sha256 cfg s.b f).2).length ≤ 1 := by
      rcases handleBlob_handles sha256 cfg f.registry Io.ok s.b.rx ida m with ⟨id, -, h⟩ | ⟨-, h⟩
      · exact h.entry.acks_length
      · rw [show handled sha256 cfg s.b f = (s.b.rx, []) from h]
        exact Nat.zero_le _
    have hle := length_foldl_trySend s.out (sentTo ida (handled sha256 cfg s.b f).2)
    simp only [Duo.todo, Duo.handle, hq, List.length_cons]
    omega

/-- A call goes on and leaves less to do, with the frame it may have queued. -/
private theorem todo_goesOn (h : DuoCarried sha256 cfg ida content one s) (hl : s.a.calls.lookup id = some o)
    {c : SendCall} {toB : List Message} (hlt : c.todo + 3 * toB.length < o.call.todo + 3 * s.toB.length) :
    { s with a := s.a.put id o c, toB := toB }.todo content < s.todo content := by
  have hid : id < s.a.nextId := by
    by_contra hge
    rw [h.waiting.fresh id (Nat.le_of_not_lt hge)] at hl
    cases hl
  have hput := todo_put (c := c) hl hid
  simp only [Duo.todo]
  omega

/-- A call that has a frame to queue queues it. -/
private theorem advances_queue (h : DuoCarried sha256 cfg ida content one s) (hl : s.a.calls.lookup id = some o)
    (hm : o.call.frame sha256 id = some m)
    (hfits : o.call.isStarting = true → s.openIds.card < maxConcurrentIncoming) :
    DuoAdvances sha256 cfg ida idb content one s := by
  refine ⟨.queue id, { s with a := s.a.put id o o.call.queued, toB := s.toB ++ [m] }, ?_, ?_, rfl, ?_⟩
  · intro o' hl'
    obtain rfl : o = o' := Option.mem_unique hl hl'
    exact hfits
  · simp [duoStep, Sender.queue, hl, hm]
  · refine todo_goesOn h hl ?_
    rw [List.length_append, List.length_singleton]
    obtain ⟨path, hf⟩ := ((h.transfers id).call o hl).faithful
    have hsource := hf.source
    obtain ⟨peer, ⟨conn, name, size, purpose, source, hasher, phase⟩, ack, resolvedBy⟩ := o
    cases hsource
    cases phase with
    | starting | sending | ending =>
      simp only [SendCall.queued, SendCall.todo]
      omega
    | opening | reading | awaiting | returned => cases hm

/-- The next piece of a file that was read so far. -/
private theorem nextPiece_drop {c : SendCall} {path : PathBuf} (hsource : c.source = .file path)
    (hsofar : c.hasher <+: content path) :
    nextPiece content c (.ok (((content path).drop c.hasher.length).take blobChunk)) = true := by
  obtain ⟨tail, htail⟩ := hsofar
  have hdrop : (content path).drop c.hasher.length = tail := by rw [← htail, List.drop_left]
  rw [hdrop]
  simp only [nextPiece, hsource, Bool.and_eq_true, decide_eq_true_eq, Bool.or_eq_true, bne_iff_ne, ne_eq, beq_iff_eq]
  refine ⟨?_, ?_⟩
  · rw [← htail]
    exact (List.prefix_append_right_inj _).2 (List.take_prefix ..)
  · cases tail with
    | nil =>
      right
      rw [← htail, List.append_nil]
    | cons b tail =>
      left
      simp [blobChunk]

/-- A call that is streaming its file goes on. -/
private theorem advances_stream (h : DuoCarried sha256 cfg ida content one s) (hl : s.a.calls.lookup id = some o)
    (hst : o.call.isStreaming = true) : DuoAdvances sha256 cfg ida idb content one s := by
  obtain ⟨path, hf⟩ := ((h.transfers id).call o hl).faithful
  have hnostart : o.call.isStarting = false := by
    by_contra hs
    rw [SendCall.isStreaming_of_isStarting (by simpa using hs)] at hst
    cases hst
  have hqueue : ∀ {m : Message}, o.call.frame sha256 id = some m → DuoAdvances sha256 cfg ida idb content one s :=
    fun hm => advances_queue h hl hm fun hs => by rw [hnostart] at hs; cases hs
  cases hphase : o.call.phase with
  | starting | awaiting | returned => simp [SendCall.isStreaming, hphase] at hst
  | sending data => exact hqueue (m := .blobChunk id data) (by simp [SendCall.frame, hphase])
  | ending => exact hqueue (m := .blobEnd id (sha256 o.call.hasher)) (by simp [SendCall.frame, hphase])
  | opening =>
    refine ⟨.openFile id none, { s with a := s.a.put id o { o.call with phase := .reading } }, rfl, ?_, rfl, ?_⟩
    · simp [duoStep, Sender.update, hl, SendCall.opened, hphase]
    · refine todo_goesOn h hl ?_
      simp only [SendCall.todo, hphase]
      omega
  | reading =>
    have hpiece := nextPiece_drop hf.source hf.sofar
    generalize hdata : ((content path).drop o.call.hasher.length).take blobChunk = data at hpiece
    have hlen : data.length ≤ blobChunk := by
      rw [← hdata]
      exact List.length_take_le ..
    have hsmooth : Smooth cfg ida content one s (.read id (.ok data)) := by
      intro o' hl'
      obtain rfl : o = o' := Option.mem_unique hl hl'
      exact hpiece
    by_cases hempty : data = []
    · refine ⟨.read id (.ok data), { s with a := s.a.put id o { o.call with phase := .ending } }, hsmooth, ?_, rfl, ?_⟩
      · simp [duoStep, Sender.update, hl, SendCall.read, hphase, hf.source, hempty]
      · refine todo_goesOn h hl ?_
        simp only [SendCall.todo, hphase]
        omega
    · let c := { o.call with phase := .sending data, hasher := o.call.hasher ++ data }
      refine ⟨.read id (.ok data), { s with a := s.a.put id o c }, hsmooth, ?_, rfl, ?_⟩
      · simp [c, duoStep, Sender.update, hl, SendCall.read, hphase, hf.source, hempty, hlen]
      · refine todo_goesOn h hl ?_
        -- a piece is not longer than what is left of the file
        have hpos : 0 < data.length := List.length_pos_of_ne_nil hempty
        have hleft : data.length ≤ o.call.size - o.call.hasher.length := by
          rw [hf.size, ← hdata, List.length_take, List.length_drop]
          exact Nat.min_le_right ..
        simp only [c, SendCall.todo, hphase, List.length_append]
        omega

/-- A file that was not tried yet is sent. -/
private theorem advances_attempt (h : DuoCarried sha256 cfg ida content one s) {r : RetryCall} (hr : r ∈ s.retries)
    (hzero : r.attempt = 0) : DuoAdvances sha256 cfg ida idb content one s := by
  obtain ⟨j, hj⟩ := List.getElem?_of_mem hr
  have hstat : statOf content r.path (.ok (true, (content r.path).length)) = true := by simp [statOf]
  obtain ⟨c, hc, hf, -⟩ := h.requested.begins hj hstat
  obtain ⟨hcurrent, houtcome⟩ := h.requested.untried r hr hzero
  refine ⟨.attempt j (.ok (true, (content r.path).length)), { s with
    a := s.a.begin idb c
    retries := s.retries.set j { r with attempt := 1, current := some s.a.nextId } }, ?_, ?_, ?_, ?_⟩
  · intro r' hr'
    obtain rfl : r = r' := Option.mem_unique hj hr'
    exact ⟨hzero, hstat⟩
  · simp [duoStep, hj, hcurrent, houtcome, hzero, sendAttempts, Duo.beginAttempt, hc]
  · exact map_set_eq hj rfl
  · have hset := sum_map_set (RetryCall.todo content) hj { r with attempt := 1, current := some s.a.nextId }
    have hcall : c.todo = 10 + 5 * (content r.path).length := by
      have hstart := (sendOne_starting hc).1
      rw [todo_of_isStarting hstart, hf.size, hf.new hstart]
      rfl
    simp only [RetryCall.todo, hzero, if_true, one_ne_zero, if_false] at hset
    simp only [Duo.todo, todo_begin]
    omega

/-- As long as something is left to do, some step of the setting leaves less. -/
private theorem DuoCarried.advances (h : DuoCarried sha256 cfg ida content one s) (hnot : ¬ Completed ida s) :
    DuoAdvances sha256 cfg ida idb content one s := by
  cases hq : s.toB with
  | cons m rest =>
    by_cases hfull : m.isEnd = true ∧ outboundCap ≤ s.out.length
    · -- the answer waits for room
      cases hout : s.out with
      | nil =>
        rw [hout] at hfull
        exact absurd hfull.2 (by decide)
      | cons m' rest' => exact advances_transmit hout
    · exact advances_process hq fun hend => not_le.1 fun hge => hfull ⟨hend, hge⟩
  | nil =>
    cases hout : s.out with
    | cons m rest => exact advances_transmit hout
    | nil =>
      cases hto : s.toA with
      | cons m rest => exact advances_receive hto
      | nil =>
        by_cases hst : ∃ id o, s.a.calls.lookup id = some o ∧ o.call.isStreaming = true
        · obtain ⟨id, o, hl, hst⟩ := hst
          exact advances_stream h hl hst
        by_cases hstart : ∃ id o, s.a.calls.lookup id = some o ∧ o.call.isStarting = true
        · obtain ⟨id, o, hl, hstart⟩ := hstart
          have hnone : s.openIds = ∅ := by
            refine Finset.eq_empty_iff_forall_notMem.2 fun id' hid' => ?_
            obtain ⟨o', hl', hst'⟩ := mem_openIds.1 hid'
            exact hst ⟨id', o', hl', hst'⟩
          have hm : o.call.frame sha256 id = some (.blobStart id o.call.name o.call.size o.call.purpose) := by
            unfold SendCall.isStarting at hstart
            split at hstart
            · rename_i hphase
              simp [SendCall.frame, hphase]
            · cases hstart
          exact advances_queue h hl hm fun _ => by rw [hnone]; decide
        by_cases hask : ∃ r ∈ s.retries, r.attempt = 0
        · obtain ⟨r, hr, hzero⟩ := hask
          exact advances_attempt h hr hzero
        refine absurd ⟨fun r hr => h.requested.tried r hr fun hzero => hask ⟨r, hr, hzero⟩, fun id o hl => ?_, ?_⟩ hnot
        · refine ⟨?_, ?_, by simp [Duo.transfer, hq]⟩
          · by_contra hs
            exact hstart ⟨id, o, hl, by simpa using hs⟩
          · by_contra hs
            exact hst ⟨id, o, hl, by simpa using hs⟩
        · rw [hto, hout]
          rfl

end Advance

/-! ### The round trip -/

/-- Whatever way reads split the files and the frames of concurrent calls interleave: a transfer whose frames were all
handled was acknowledged with `ok = true`, and the file at its destination has the bytes of the source; and from every
state the run can be carried on until every file that was asked for has been sent and every transfer is over. -/
theorem round_trip (sha256 : Bytes → Digest) (cfg : XferConfig) (ida idb : DeviceId) (content : PathBuf → Bytes)
    (one : Option PeersFile) (fs : FileSys PathBuf) (hempty : EmptyDownload cfg fs) (es : List DuoEvent) (s : Duo)
    (hr : Run (duoStep sha256 cfg ida idb) (Smooth cfg ida content one) (Duo.start fs) es s) :
    (∀ id o path, s.a.calls.lookup id = some o → o.call.source = .file path → Carried ida s id o →
      AckedOk ida s id ∧ ∃ dir, StartedIn cfg ida s.b.log id dir ∧ (∀ r ∈ one, dir = finalDirFor cfg r ida) ∧
        s.b.rx.fs.read (join dir o.call.name) = some (content path)) ∧
    ∃ es' s', Run (duoStep sha256 cfg ida idb) (Smooth cfg ida content one) s es' s' ∧
      s'.retries.map RetryCall.path = s.retries.map RetryCall.path ∧ Completed ida s' := by
  have h : DuoCarried sha256 cfg ida content one s :=
    hr.invariant (duoCarried_start hempty) fun _ _ _ h hsmooth hs => duoCarried_step h hsmooth hs
  refine ⟨fun id o path hl hsource hdone => ?_, ?_⟩
  · obtain ⟨hacked, dir, husable, hstarted, hread⟩ := h.delivered hl hsource hdone
    exact ⟨hacked, dir, hstarted, husable.2, hread⟩
  · let I : Duo → Prop := fun t => DuoCarried sha256 cfg ida content one t ∧
      t.retries.map RetryCall.path = s.retries.map RetryCall.path
    have hstep : ∀ t, I t → ¬ Completed ida t → ∃ e u, Smooth cfg ida content one t e ∧
        duoStep sha256 cfg ida idb t e = some u ∧ I u ∧ u.todo content < t.todo content := by
      rintro t ⟨ht, hpaths⟩ hnot
      have hnext : DuoAdvances sha256 cfg ida idb content one t := ht.advances hnot
      obtain ⟨e, u, hsmooth, hs, hsame, hlt⟩ := hnext
      exact ⟨e, u, hsmooth, hs, ⟨duoCarried_step ht hsmooth hs, hsame.trans hpaths⟩, hlt⟩
    obtain ⟨es', s', hr', ⟨-, hpaths⟩, hdone⟩ := exists_run_done (Duo.todo content) hstep ⟨h, rfl⟩
    exact ⟨es', s', hr', hpaths, hdone⟩

/-- `/x` has two bytes, `/y` is empty. -/
private def twoFiles : PathBuf → Bytes := fun path => if path = "/x" then [1, 2] else []

/-- The sender is authorized. -/
private def listed : PeersFile :=
  .document ⟨[{ Peer.new (fun _ => "") "mac" "a" (Vector.replicate 32 0) with authorized := true }]⟩

/-- Both files are sent at once; `/x` is read byte by byte.  The sender is authorized after the `BlobStart` of `/x`. -/
private def twoFilesEvents : List DuoEvent :=
  [.sendWithRetry "/x", .sendWithRetry "/y", .attempt 0 (.ok (true, 2)), .attempt 1 (.ok (true, 0)), .queue 1, .queue 2,
    .openFile 1 none, .read 1 (.ok [1]), .queue 1, .openFile 2 none, .read 1 (.ok [2]), .read 2 (.ok []), .queue 1,
    .queue 2, .read 1 (.ok []), .queue 1, .process Io.ok .absent] ++ List.replicate 5 (.process Io.ok listed)

theorem round_trip_two_files :
    ∃ s o, Run (duoStep (fun _ => Vector.replicate 32 0) ⟨"d", .unlisted, false⟩ "a" "b")
        (Smooth ⟨"d", .unlisted, false⟩ "a" twoFiles none) (Duo.start FileSys.empty) twoFilesEvents s ∧
      s.a.calls.lookup 1 = some o ∧ Carried "a" s 1 o ∧ AckedOk "a" s 1 ∧
      (∃ dir, StartedIn ⟨"d", .unlisted, false⟩ "a" s.b.log 1 dir ∧
        s.b.rx.fs.read (join dir o.call.name) = some [1, 2]) ∧
      ∃ es' s', Run (duoStep (fun _ => Vector.replicate 32 0) ⟨"d", .unlisted, false⟩ "a" "b")
          (Smooth ⟨"d", .unlisted, false⟩ "a" twoFiles none) s es' s' ∧
        s'.retries.map RetryCall.path = ["/x", "/y"] ∧ Completed "a" s' := by
  obtain ⟨s, hr, hv⟩ := run_of_exec_checked (duoStep (fun _ => Vector.replicate 32 0) ⟨"d", .unlisted, false⟩ "a" "b")
    (Smooth ⟨"d", .unlisted, false⟩ "a" twoFiles none) (Duo.start FileSys.empty) twoFilesEvents
    (fun s => (s.retries.map RetryCall.path, (s.a.calls.lookup 1).map fun o =>
      (o.call.source, o.call.isStarting, o.call.isStreaming, (s.transfer "a" 1).frames.length)))
    (["/x", "/y"], some (.file "/x", false, false, 0)) (by decide +kernel)
  obtain ⟨hpaths, hv⟩ := Prod.mk.inj hv
  obtain ⟨o, hl, ho⟩ := Option.map_eq_some_iff.1 hv
  simp only [Prod.mk.injEq, List.length_eq_zero_iff] at ho
  obtain ⟨hsource, hst, hstr, hfr⟩ := ho
  obtain ⟨hdelivered, es', s', hr', hpaths', hdone⟩ := round_trip _ _ "a" "b" twoFiles none FileSys.empty
    ⟨(fun _ h => by cases h), fun _ _ => rfl, fun _ _ => rfl⟩ _ s hr
  obtain ⟨hacked, dir, hstarted, -, hread⟩ := hdelivered 1 o "/x" hl hsource ⟨hst, hstr, hfr⟩
  exact ⟨s, o, hr, hl, ⟨hst, hstr, hfr⟩, hacked, ⟨dir, hstarted, hread⟩, es', s', hr', hpaths'.trans hpaths, hdone⟩

end Qdrop
