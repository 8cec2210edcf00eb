import Qdrop.Control
import Qdrop.FileXfer.Acks

/-!
# Requests at work at the same time (`FileXfer::send` and `FileXfer::send_clip_image`)

A `Send` request spawns one task for each peer, which sends its files one after the other and retries a failed one; a
large clipboard image or a `ClipSend` of one is served by a loop over the peers.  The tasks share the outbound channels
and nothing that would make one wait for another, so two of them can stream to the same peer
(`two_blobs_in_flight`).  `one_in_flight` says that nothing else goes wrong: within a task the transfers follow each
other.
-/

namespace Qdrop

open Lib

/-- What a task has left to do. -/
inductive Job where
  /-- The files still to be sent to a peer, and which attempt at the first of them this is. -/
  | files (peer : DeviceId) (paths : List PathBuf) (attempt : Nat)
  /-- The peers an image is still to be sent to. -/
  | image (png : Bytes) (peers : List DeviceId)

inductive JobPhase where
  /-- Between two transfers. -/
  | next
  /-- Inside `stream_blob`, for this transfer. -/
  | calling (id : Nat)
  /-- Waiting for the peer to come back. -/
  | waiting
deriving DecidableEq

structure SendTask where
  job : Job
  phase : JobPhase

/-- The sender side of one `FileXfer`, with the tasks that use it. -/
structure Jobs where
  sender : Sender
  tasks : List SendTask
  /-- The frames put into outbound channels, with their peers. -/
  queued : List (DeviceId × Message)

def Jobs.start : Jobs := ⟨Sender.start, [], []⟩

inductive JobEvent where
  /-- A `Send` request. -/
  | send (bus : Bus) (registry : PeersFile) (paths : List PathBuf) (dest : Option String)
  /-- A `ClipSend` of an image, or an image the sync loop does not send inline. -/
  | sendClipImage (bus : Bus) (png : Bytes)
  /-- A task takes up its next transfer, with what the bus and `metadata` say. -/
  | begin (j : Nat) (conn : Option Nat) (stat : Except String (Bool × Nat))
  /-- A transfer takes a step, or an acknowledgement comes in. -/
  | call (e : SenderEvent)
  /-- The transfer of a task has returned. -/
  | returned (j : Nat)
  /-- A task stops waiting for its peer. -/
  | resume (j : Nat) (connected : Bool)

namespace SendTask

/-- The task goes on with the next of its files or peers. -/
def advance (t : SendTask) : SendTask :=
  match t.job with
  | .files peer paths _ => ⟨.files peer paths.tail 1, .next⟩
  | .image png peers => ⟨.image png peers.tail, .next⟩

/-- After the transfer returned: a failed file is tried again later, a failed image is not. -/
def onReturn (t : SendTask) (result : Except String String) : SendTask :=
  match t.job, result with
  | .files .., .error _ => ⟨t.job, .waiting⟩
  | _, _ => t.advance

/-- After the wait: the next attempt at the same file, if there is one left and the peer is back. -/
def onResume (t : SendTask) (connected : Bool) : SendTask :=
  match t.job with
  | .files peer paths attempt =>
    if connected ∧ attempt < sendAttempts then ⟨.files peer paths (attempt + 1), .next⟩ else t.advance
  | .image .. => t

/-- The call the task makes next, with its peer; or how it goes on without one. -/
def nextCall (t : SendTask) (conn : Option Nat) (stat : Except String (Bool × Nat)) :
    Option (Except SendTask (DeviceId × SendCall)) :=
  match t.job with
  | .files peer (path :: _) _ =>
    match sendOne conn path stat with
    | .ok c => some (.ok (peer, c))
    | .error _ => some (.error ⟨t.job, .waiting⟩)
  | .image png (peer :: _) =>
    match conn with
    | some conn => some (.ok (peer, sendClipImage conn png))
    | none => some (.error t.advance)
  | .files _ [] _ | .image _ [] => none

end SendTask

/-- The tasks and their transfers take a step. -/
def jobStep (sha256 : Bytes → Digest) (s : Jobs) : JobEvent → Option Jobs
  | .send bus registry paths dest =>
    some { s with tasks := s.tasks ++ (bus.targets registry dest).map fun p => ⟨.files p paths 1, .next⟩ }
  | .sendClipImage bus png => some { s with tasks := s.tasks ++ [⟨.image png bus.connected, .next⟩] }
  | .begin j conn stat =>
    match s.tasks[j]? with
    | some ⟨job, .next⟩ =>
      match SendTask.nextCall ⟨job, .next⟩ conn stat with
      | some (.ok (peer, c)) =>
        some { s with sender := s.sender.begin peer c, tasks := s.tasks.set j ⟨job, .calling s.sender.nextId⟩ }
      | some (.error t) => some { s with tasks := s.tasks.set j t }
      | none => none
    | _ => none
  | .call e =>
    if e.isCallStep then
      (senderStep sha256 s.sender e).map fun sender =>
        { s with sender := sender, queued := s.queued ++ (s.sender.queues sha256 e).toList }
    else none
  | .returned j =>
    match s.tasks[j]? with
    | some ⟨job, .calling id⟩ =>
      match (s.sender.calls.lookup id).map (·.call.phase) with
      | some (SendPhase.returned result) =>
        some { s with tasks := s.tasks.set j (SendTask.onReturn ⟨job, .calling id⟩ result) }
      | _ => none
    | _ => none
  | .resume j connected =>
    match s.tasks[j]? with
    | some ⟨job, .waiting⟩ => some { s with tasks := s.tasks.set j (SendTask.onResume ⟨job, .waiting⟩ connected) }
    | _ => none

/-! ### The property and the condition -/

/-- The `BlobStart` of the transfer has been queued for the peer, its `BlobEnd` has not, and `stream_blob` has not
returned. -/
def InFlight (s : Jobs) (peer : DeviceId) (id : Nat) : Prop :=
  (∃ name size purpose, (peer, Message.blobStart id name size purpose) ∈ s.queued) ∧
    (∀ sha, (peer, Message.blobEnd id sha) ∉ s.queued) ∧
    ∃ o, s.sender.calls.lookup id = some o ∧ o.call.hasReturned = false

/-- At most one transfer to each peer is in flight. -/
def OneInFlight (s : Jobs) : Prop := ∀ peer i j, InFlight s peer i → InFlight s peer j → i = j

/-- A task queues the `BlobStart` of a transfer only while no other task streams to the same peer. -/
def TakesTurns (s : Jobs) : JobEvent → Prop
  | .call (.queue id) =>
    ∀ o, s.sender.calls.lookup id = some o → o.call.isStarting = true →
      ∀ t ∈ s.tasks, ∀ i o', t.phase = .calling i → i ≠ id → s.sender.calls.lookup i = some o' → o'.peer = o.peer →
        o'.call.isStreaming = false
  | _ => True

/-! ### What the log says of a call -/

/-- The frames of a call so far. -/
structure Logged (queued : List (DeviceId × Message)) (id : Nat) (o : Outgoing) : Prop where
  mine : ∀ p m, (p, m) ∈ queued → blobId m = some id → p = o.peer
  unstarted : o.call.isStarting = true → ∀ p m, (p, m) ∈ queued → blobId m ≠ some id
  started : o.call.isStreaming = true → ∃ name size purpose, (o.peer, .blobStart id name size purpose) ∈ queued
  unended : o.call.isStreaming = true → ∀ p sha, (p, .blobEnd id sha) ∉ queued
  ended : o.call.phase = .awaiting → ∃ sha, (o.peer, .blobEnd id sha) ∈ queued

namespace Logged

variable {sha256 : Bytes → Digest} {queued : List (DeviceId × Message)} {id : Nat} {o : Outgoing} {c : SendCall}

/-- A step without a frame. -/
theorem quiet (h : Logged queued id o) (hq : o.call.Quiet sha256 c) : Logged queued id { o with call := c } := by
  obtain ⟨-, hstart, hwait, hstream⟩ := hq.keeps
  exact {
    mine := h.mine
    unstarted := fun hc => absurd hc (by simp [hstart])
    started := fun hc => h.started (hstream hc)
    unended := fun hc => h.unended (hstream hc)
    ended := fun hc => absurd hc hwait }

/-- The frame of another call. -/
theorem other (h : Logged queued id o) {p : DeviceId} {m : Message} (hm : blobId m ≠ some id) :
    Logged (queued ++ [(p, m)]) id o where
  mine p' m' hmem hid := by
    rcases List.mem_append.1 hmem with hmem | hmem
    · exact h.mine p' m' hmem hid
    · cases List.mem_singleton.1 hmem
      exact absurd hid hm
  unstarted hc p' m' hmem hid := by
    rcases List.mem_append.1 hmem with hmem | hmem
    · exact h.unstarted hc p' m' hmem hid
    · cases List.mem_singleton.1 hmem
      exact absurd hid hm
  started hc := by
    obtain ⟨name, size, purpose, hmem⟩ := h.started hc
    exact ⟨name, size, purpose, List.mem_append_left _ hmem⟩
  unended hc p' sha hmem := by
    rcases List.mem_append.1 hmem with hmem | hmem
    · exact h.unended hc p' sha hmem
    · cases List.mem_singleton.1 hmem
      exact hm rfl
  ended hc := by
    obtain ⟨sha, hmem⟩ := h.ended hc
    exact ⟨sha, List.mem_append_left _ hmem⟩

/-- The next frame of the call itself. -/
theorem queue (h : Logged queued id o) {m : Message} (hm : o.call.frame sha256 id = some m) :
    Logged (queued ++ [(o.peer, m)]) id { o with call := o.call.queued } := by
  have hmine : ∀ p m', (p, m') ∈ queued ++ [(o.peer, m)] → blobId m' = some id → p = o.peer := by
    intro p m' hmem hid
    rcases List.mem_append.1 hmem with hmem | hmem
    · exact h.mine p m' hmem hid
    · cases List.mem_singleton.1 hmem
      rfl
  have hold : ∀ p sha, (p, Message.blobEnd id sha) ∈ queued ++ [(o.peer, m)] → m ≠ .blobEnd id sha →
      (p, Message.blobEnd id sha) ∈ queued := by
    intro p sha hmem hne
    rcases List.mem_append.1 hmem with hmem | hmem
    · exact hmem
    · cases List.mem_singleton.1 hmem
      exact absurd rfl hne
  obtain ⟨peer, ⟨conn, name, size, purpose, source, hasher, phase⟩, ack, p⟩ := o
  cases phase with
  | starting =>
    cases hm
    have hphase : (SendCall.queued ⟨conn, name, size, purpose, source, hasher, .starting⟩).isStarting = false ∧
        (SendCall.queued ⟨conn, name, size, purpose, source, hasher, .starting⟩).phase ≠ .awaiting := by
      cases source <;> exact ⟨rfl, (fun h => by cases h)⟩
    exact {
      mine := hmine
      unstarted := fun hc => absurd hc (by simp [hphase.1])
      started := fun _ => ⟨name, size, purpose, by simp⟩
      unended := fun _ p sha hmem => h.unstarted rfl p _ (hold p sha hmem (fun h => by cases h)) rfl
      ended := fun hc => absurd hc hphase.2 }
  | sending data =>
    cases hm
    obtain ⟨name', size', purpose', hmem⟩ := h.started rfl
    exact {
      mine := hmine
      unstarted := (fun h => by cases h)
      started := fun _ => ⟨name', size', purpose', List.mem_append_left _ hmem⟩
      unended := fun _ p sha hmem => h.unended rfl p sha (hold p sha hmem (fun h => by cases h))
      ended := (fun h => by cases h) }
  | ending =>
    cases hm
    exact {
      mine := hmine
      unstarted := (fun h => by cases h)
      started := (fun h => by cases h)
      unended := (fun h => by cases h)
      ended := fun _ => ⟨_, List.mem_append_right _ (List.mem_singleton_self _)⟩ }
  | opening | reading | awaiting | returned => cases hm

end Logged

/-! ### The invariant -/

/-- Every transfer that has not returned belongs to a task, and the log is the calls' own. -/
structure Working (s : Jobs) : Prop where
  waiting : Waiting s.sender
  known : ∀ p m id, (p, m) ∈ s.queued → blobId m = some id → id < s.sender.nextId
  logged : ∀ id o, s.sender.calls.lookup id = some o → Logged s.queued id o
  owner : ∀ id o, s.sender.calls.lookup id = some o → o.call.hasReturned = false →
    ∃ t ∈ s.tasks, t.phase = .calling id

/-- The transfer is between its `BlobStart` and its `BlobEnd`. -/
def Streams (s : Jobs) (peer : DeviceId) (id : Nat) : Prop :=
  ∃ o, s.sender.calls.lookup id = some o ∧ o.peer = peer ∧ o.call.isStreaming = true

section Invariant

variable {sha256 : Bytes → Digest} {s s' : Jobs} {e : JobEvent}

theorem Working.inFlight_iff (h : Working s) (peer : DeviceId) (id : Nat) :
    InFlight s peer id ↔ Streams s peer id := by
  constructor
  · rintro ⟨⟨name, size, purpose, hstart⟩, hend, o, hl, hret⟩
    have hlog := h.logged id o hl
    obtain rfl : peer = o.peer := hlog.mine peer _ hstart rfl
    refine ⟨o, hl, rfl, ?_⟩
    cases hphase : o.call.phase with
    | starting => exact absurd rfl (hlog.unstarted (by simp [SendCall.isStarting, hphase]) _ _ hstart)
    | awaiting =>
      obtain ⟨sha, hmem⟩ := hlog.ended hphase
      exact absurd hmem (hend sha)
    | returned result => simp [SendCall.hasReturned, hphase] at hret
    | opening | reading | sending | ending => simp [SendCall.isStreaming, hphase]
  · rintro ⟨o, hl, rfl, hs⟩
    have hlog := h.logged id o hl
    refine ⟨hlog.started hs, fun sha => hlog.unended hs o.peer sha, o, hl, ?_⟩
    cases hret : o.call.hasReturned with
    | false => rfl
    | true => simp [SendCall.isStreaming_of_hasReturned hret] at hs

private theorem mem_set_of_ne {l : List SendTask} {j : Nat} {t t₀ t' : SendTask} (ht : t ∈ l) (hj : l[j]? = some t₀)
    (hne : t ≠ t₀) : t ∈ l.set j t' := by
  obtain ⟨i, hi, rfl⟩ := List.mem_iff_getElem.1 ht
  have hij : j ≠ i := by
    rintro rfl
    rw [List.getElem?_eq_getElem hi] at hj
    exact hne (Option.some.inj hj)
  exact List.mem_iff_getElem.2 ⟨i, by simpa using hi, List.getElem_set_ne hij _⟩

/-- A task that is not inside a transfer, or whose transfer has returned, moves on. -/
private theorem Working.setTask (h : Working s) {j : Nat} {t t' : SendTask} (hj : s.tasks[j]? = some t)
    (ht : ∀ id o, t.phase = .calling id → s.sender.calls.lookup id = some o → o.call.hasReturned = true) :
    Working { s with tasks := s.tasks.set j t' } where
  waiting := h.waiting
  known := h.known
  logged := h.logged
  owner id o hl hret := by
    obtain ⟨u, hu, hphase⟩ := h.owner id o hl hret
    refine ⟨u, mem_set_of_ne hu hj ?_, hphase⟩
    rintro rfl
    rw [ht id o hphase hl] at hret
    cases hret

private theorem isStarting_of_nextCall {t : SendTask} {conn : Option Nat} {stat : Except String (Bool × Nat)}
    {peer : DeviceId} {c : SendCall} (h : t.nextCall conn stat = some (.ok (peer, c))) : c.isStarting = true := by
  unfold SendTask.nextCall at h
  split at h
  · split at h
    · rename_i hc
      cases h
      exact sendOne_isStarting hc
    · cases h
  · split at h
    · cases h
      rfl
    · cases h
  · cases h
  · cases h

/-- A task begins a call. -/
private theorem Working.begin (h : Working s) {j : Nat} {job : Job} (hj : s.tasks[j]? = some ⟨job, .next⟩)
    (peer : DeviceId) {c : SendCall} (hc : c.isStarting = true) :
    Working { s with
      sender := s.sender.begin peer c, tasks := s.tasks.set j ⟨job, .calling s.sender.nextId⟩ } where
  waiting := h.waiting.begin peer c
  known p m id hmem hid := Nat.lt_succ_of_lt (h.known p m id hmem hid)
  logged id o hl := by
    simp only [Sender.begin] at hl
    rcases lookup_insert_eq_some.1 hl with ⟨rfl, rfl⟩ | ⟨-, hl⟩
    · have hno : ∀ p m, (p, m) ∈ s.queued → blobId m ≠ some s.sender.nextId := fun p m hmem hm =>
        absurd (h.known p m _ hmem hm) (Nat.lt_irrefl _)
      have hstream : c.isStreaming = false := SendCall.isStreaming_of_isStarting hc
      exact {
        mine := fun p m hmem hm => absurd hm (hno p m hmem)
        unstarted := fun _ => hno
        started := fun hs => absurd hs (by simp [hstream])
        unended := fun hs => absurd hs (by simp [hstream])
        ended := fun (hs : c.phase = .awaiting) => by simp [SendCall.isStarting, hs] at hc }
    · exact h.logged id o hl
  owner id o hl hret := by
    have hlt : j < s.tasks.length := (List.getElem?_eq_some_iff.1 hj).1
    simp only [Sender.begin] at hl
    by_cases hid : id = s.sender.nextId
    · subst hid
      exact ⟨_, List.mem_set hlt _, rfl⟩
    · rw [AList.lookup_insert_ne hid] at hl
      obtain ⟨u, hu, hphase⟩ := h.owner id o hl hret
      refine ⟨u, mem_set_of_ne hu hj ?_, hphase⟩
      rintro rfl
      cases hphase

/-- A call takes a step. -/
private theorem Working.call (h : Working s) {e : SenderEvent} {sender : Sender} (he : e.isCallStep = true)
    (hs : senderStep sha256 s.sender e = some sender) :
    Working { s with sender := sender, queued := s.queued ++ (s.sender.queues sha256 e).toList } := by
  have hcalls := Sender.calls_step
    (R := fun id o => Logged s.queued id o ∧ (o.call.hasReturned = false → ∃ t ∈ s.tasks, t.phase = .calling id))
    (S := fun id o => Logged (s.queued ++ (s.sender.queues sha256 e).toList) id o ∧
      (o.call.hasReturned = false → ∃ t ∈ s.tasks, t.phase = .calling id)) hs ?_ ?_ ?_ ?_ ?_
    fun id o hl => ⟨h.logged id o hl, h.owner id o hl⟩
  · refine ⟨waiting_step h.waiting hs, ?_, fun id o hl => (hcalls id o hl).1, fun id o hl => (hcalls id o hl).2⟩
    intro p m id hmem hid
    refine Nat.lt_of_lt_of_le ?_ (Sender.nextId_le hs)
    rcases List.mem_append.1 hmem with hmem | hmem
    · exact h.known p m id hmem hid
    · cases e with
      | queue i =>
        obtain ⟨out, hq, -⟩ := Option.map_eq_some_iff.1 hs
        obtain ⟨o, m', hl, hm, -⟩ := Sender.queue_cases hq
        rw [Sender.queues_queue hl hm] at hmem
        cases List.mem_singleton.1 hmem
        obtain rfl : i = id := Option.some.inj ((SendCall.frame_blobId hm).symm.trans hid)
        by_contra hlt
        rw [h.waiting.fresh i (Nat.not_lt.1 hlt)] at hl
        cases hl
      | _ => cases hmem
  · intro peer c hcall
    rw [he] at hcall
    cases hcall
  · rintro id o hne ⟨hlog, howner⟩
    refine ⟨?_, howner⟩
    cases e with
    | queue i =>
      obtain ⟨out, hq, -⟩ := Option.map_eq_some_iff.1 hs
      obtain ⟨o', m, hl, hm, -⟩ := Sender.queue_cases hq
      rw [Sender.queues_queue hl hm]
      refine hlog.other ?_
      rw [SendCall.frame_blobId hm]
      simpa using (hne i rfl).symm
    | _ => simpa [Sender.queues] using hlog
  · rintro id o m rfl ⟨hlog, howner⟩ hl hm
    rw [Sender.queues_queue hl hm]
    exact ⟨hlog.queue hm, fun _ => howner (SendCall.of_frame hm).1⟩
  · rintro id o c hne ⟨hlog, howner⟩ hc
    rw [Sender.queues_eq_none hne, Option.toList_none, List.append_nil]
    exact ⟨hlog.quiet hc, fun _ => howner hc.keeps.1⟩
  · rintro id o ack p hne ⟨hlog, howner⟩
    rw [Sender.queues_eq_none hne, Option.toList_none, List.append_nil]
    exact ⟨⟨hlog.mine, hlog.unstarted, hlog.started, hlog.unended, hlog.ended⟩, howner⟩

theorem working_step (h : Working s) (hs : jobStep sha256 s e = some s') : Working s' := by
  cases e with
  | send bus registry paths dest =>
    cases hs
    refine ⟨h.waiting, h.known, h.logged, fun id o hl hret => ?_⟩
    obtain ⟨t, ht, hphase⟩ := h.owner id o hl hret
    exact ⟨t, List.mem_append_left _ ht, hphase⟩
  | sendClipImage bus png =>
    cases hs
    refine ⟨h.waiting, h.known, h.logged, fun id o hl hret => ?_⟩
    obtain ⟨t, ht, hphase⟩ := h.owner id o hl hret
    exact ⟨t, List.mem_append_left _ ht, hphase⟩
  | begin j conn stat =>
    simp only [jobStep] at hs
    split at hs
    · rename_i job hj
      split at hs
      · rename_i peer c hc
        cases hs
        exact h.begin hj peer (isStarting_of_nextCall hc)
      · cases hs
        exact h.setTask hj (fun _ _ h => by cases h)
      · cases hs
    · cases hs
  | call e =>
    simp only [jobStep] at hs
    split at hs
    · rename_i hcall
      obtain ⟨sender, hsender, rfl⟩ := Option.map_eq_some_iff.1 hs
      exact h.call hcall hsender
    · cases hs
  | returned j =>
    simp only [jobStep] at hs
    split at hs
    · rename_i job id hj
      split at hs
      · rename_i result hret
        cases hs
        refine h.setTask hj ?_
        rintro id' o hid hl
        cases hid
        rw [hl] at hret
        simp [SendCall.hasReturned, Option.some.inj hret]
      · cases hs
    · cases hs
  | resume j connected =>
    simp only [jobStep] at hs
    split at hs
    · rename_i job hj
      cases hs
      exact h.setTask hj (fun _ _ h => by cases h)
    · cases hs

/-! ### One step -/

/-- Queueing the `BlobStart` of a call adds its stream. -/
private theorem streams_started {id : Nat} {o : Outgoing} {m : Message} (hl : s.sender.calls.lookup id = some o)
    (hm : o.call.frame sha256 id = some m) (hst : o.call.isStarting = true) (p : DeviceId) (i : Nat) :
    Streams { s with sender := s.sender.put id o o.call.queued } p i ↔ Streams s p i ∨ i = id ∧ p = o.peer := by
  have hself : (s.sender.put id o o.call.queued).calls.lookup id = some { o with call := o.call.queued } :=
    AList.lookup_insert _
  by_cases hid : i = id
  · subst hid
    constructor
    · rintro ⟨o', hl', rfl, -⟩
      rw [hself] at hl'
      cases hl'
      exact Or.inr ⟨rfl, rfl⟩
    · rintro (⟨o', hl', -, hstream⟩ | ⟨-, rfl⟩)
      · obtain rfl : o = o' := Option.some.inj (hl.symm.trans hl')
        rw [SendCall.isStreaming_of_isStarting hst] at hstream
        cases hstream
      · exact ⟨_, hself, rfl, (SendCall.of_frame hm).2.2 hst⟩
  · have hother : (s.sender.put id o o.call.queued).calls.lookup i = s.sender.calls.lookup i :=
      AList.lookup_insert_ne hid
    simp only [Streams, hother, hid, false_and, or_false]

/-- Queueing another frame adds no stream. -/
private theorem streams_queued {id : Nat} {o : Outgoing} {m : Message} (hl : s.sender.calls.lookup id = some o)
    (hm : o.call.frame sha256 id = some m) (hst : o.call.isStarting = false) (p : DeviceId) (i : Nat)
    (h : Streams { s with sender := s.sender.put id o o.call.queued } p i) : Streams s p i := by
  obtain ⟨o', hl', hp, hstream⟩ := h
  simp only [Sender.put] at hl'
  rcases lookup_insert_eq_some.1 hl' with ⟨rfl, rfl⟩ | ⟨-, hl'⟩
  · exact ⟨o, hl, hp, (SendCall.of_frame hm).2.1 hst⟩
  · exact ⟨o', hl', hp, hstream⟩

/-- A step adds no stream, or it queues the `BlobStart` of one. -/
theorem streams_step (hs : jobStep sha256 s e = some s') :
    (TakesTurns s e ∧ ∀ p i, Streams s' p i → Streams s p i) ∨
    ∃ id o, e = .call (.queue id) ∧ s.sender.calls.lookup id = some o ∧ o.call.isStarting = true ∧
      ∀ p i, Streams s' p i ↔ Streams s p i ∨ i = id ∧ p = o.peer := by
  cases e with
  | send bus registry paths dest =>
    cases hs
    exact Or.inl ⟨trivial, fun _ _ h => h⟩
  | sendClipImage bus png =>
    cases hs
    exact Or.inl ⟨trivial, fun _ _ h => h⟩
  | begin j conn stat =>
    refine Or.inl ⟨trivial, ?_⟩
    simp only [jobStep] at hs
    split at hs
    · split at hs
      · rename_i peer c hc
        cases hs
        rintro p i ⟨o, hl, hp, hstream⟩
        simp only [Sender.begin] at hl
        rcases lookup_insert_eq_some.1 hl with ⟨rfl, rfl⟩ | ⟨-, hl⟩
        · have hnot : c.isStreaming = false := SendCall.isStreaming_of_isStarting (isStarting_of_nextCall hc)
          rw [hnot] at hstream
          cases hstream
        · exact ⟨o, hl, hp, hstream⟩
      · cases hs
        exact fun _ _ h => h
      · cases hs
    · cases hs
  | call e =>
    simp only [jobStep] at hs
    split at hs
    · rename_i hcall
      obtain ⟨sender, hsender, rfl⟩ := Option.map_eq_some_iff.1 hs
      cases e with
      | queue id =>
        obtain ⟨out, hq, rfl⟩ := Option.map_eq_some_iff.1 hsender
        obtain ⟨o, m, hl, hm, rfl⟩ := Sender.queue_cases hq
        cases hst : o.call.isStarting with
        | true => exact Or.inr ⟨id, o, rfl, hl, hst, streams_started hl hm hst⟩
        | false =>
          refine Or.inl ⟨fun o' hl' hst' => ?_, streams_queued hl hm hst⟩
          obtain rfl : o = o' := Option.some.inj (hl.symm.trans hl')
          rw [hst] at hst'
          cases hst'
      | sendOne | sendClipImage => cases hcall
      | closed | openFile | read | nextChunk | answer | timeout | inbound =>
        have hsub := Sender.calls_step (R := fun id o => s.sender.calls.lookup id = some o)
          (S := fun id o => o.call.isStreaming = true → Streams s o.peer id) hsender
          (fun _ _ h => by cases h) (fun id o _ hl hstream => ⟨o, hl, rfl, hstream⟩) (fun _ _ _ h => by cases h)
          (fun id o c _ hl hq hstream => ⟨o, hl, rfl, hq.keeps.2.2.2 hstream⟩)
          (fun id o ack p _ hl hstream => ⟨o, hl, rfl, hstream⟩) (fun _ _ hl => hl)
        refine Or.inl ⟨trivial, ?_⟩
        rintro p i ⟨o, hl, rfl, hstream⟩
        exact hsub i o hl hstream
    · cases hs
  | returned j =>
    refine Or.inl ⟨trivial, ?_⟩
    simp only [jobStep] at hs
    split at hs
    · split at hs
      · cases hs
        exact fun _ _ h => h
      · cases hs
    · cases hs
  | resume j connected =>
    refine Or.inl ⟨trivial, ?_⟩
    simp only [jobStep] at hs
    split at hs
    · cases hs
      exact fun _ _ h => h
    · cases hs

/-- From a state with at most one transfer in flight to each peer, a step leads to another one exactly if it takes
turns. -/
theorem oneInFlight_step (h : Working s) (hone : OneInFlight s) (hs : jobStep sha256 s e = some s') :
    OneInFlight s' ↔ TakesTurns s e := by
  have h' := working_step h hs
  rcases streams_step hs with ⟨hturn, hsub⟩ | ⟨id, o, rfl, hl, hstart, hiff⟩
  · refine iff_of_true ?_ hturn
    intro p i j hi hj
    rw [h'.inFlight_iff] at hi hj
    exact hone p i j ((h.inFlight_iff p i).2 (hsub p i hi)) ((h.inFlight_iff p j).2 (hsub p j hj))
  · constructor
    · intro hone' o₀ hl₀ _ t _ i o' _ hne hl' hpeer
      obtain rfl : o = o₀ := Option.some.inj (hl.symm.trans hl₀)
      by_contra hstream
      have hi : Streams s' o.peer i := (hiff _ _).2 (Or.inl ⟨o', hl', hpeer, by simpa using hstream⟩)
      have hid : Streams s' o.peer id := (hiff _ _).2 (Or.inr ⟨rfl, rfl⟩)
      exact hne (hone' o.peer i id ((h'.inFlight_iff _ _).2 hi) ((h'.inFlight_iff _ _).2 hid))
    · intro hturn
      -- no stream to the peer of the new one was there before
      have hfree : ∀ i, ¬ Streams s o.peer i := by
        rintro i ⟨o', hl', hpeer, hstream⟩
        have hret : o'.call.hasReturned = false := by
          cases hret : o'.call.hasReturned with
          | false => rfl
          | true => simp [SendCall.isStreaming_of_hasReturned hret] at hstream
        obtain ⟨t, ht, hphase⟩ := h.owner i o' hl' hret
        have hne : i ≠ id := by
          rintro rfl
          obtain rfl : o = o' := Option.some.inj (hl.symm.trans hl')
          rw [SendCall.isStreaming_of_isStarting hstart] at hstream
          cases hstream
        rw [hturn o hl hstart t ht i o' hphase hne hl' hpeer] at hstream
        cases hstream
      intro p i j hi hj
      rw [h'.inFlight_iff, hiff] at hi hj
      rcases hi with hi | ⟨rfl, rfl⟩
      · rcases hj with hj | ⟨rfl, rfl⟩
        · exact hone p i j ((h.inFlight_iff p i).2 hi) ((h.inFlight_iff p j).2 hj)
        · exact absurd hi (hfree i)
      · rcases hj with hj | ⟨rfl, -⟩
        · exact absurd hj (hfree j)
        · rfl

end Invariant

/-! ### Whole runs -/

private theorem working_start : Working Jobs.start where
  waiting := waiting_start
  known _ _ _ h := by cases h
  logged _ _ h := by cases h
  owner _ _ h := by cases h

/-- At most one transfer to each peer is in flight in every state of a run, if and only if a task begins to stream to a
peer only while no other task does. -/
theorem one_in_flight (sha256 : Bytes → Digest) {es : List JobEvent} {s : Jobs}
    (hr : Run (jobStep sha256) Always .start es s) :
    Throughout (jobStep sha256) OneInFlight .start es ↔ Run (jobStep sha256) TakesTurns .start es s := by
  refine hr.throughout_iff working_start ?_ (fun s e t h hs => working_step h hs) fun s e t h hone hs =>
    oneInFlight_step h hone hs
  rintro p i j ⟨⟨_, _, _, h⟩, -⟩
  cases h

private def flatHash (_ : Bytes) : Digest := Vector.replicate 32 0

private def toB : Bus := ⟨["b"], List.nodup_singleton _, fun _ => true⟩

/-- `TakesTurns` as a check. -/
private def inTurn (s : Jobs) : JobEvent → Bool
  | .call (.queue id) =>
    (s.sender.calls.lookup id).all fun o => !o.call.isStarting || s.tasks.all fun t =>
      match t.phase with
      | .calling i => i == id || (s.sender.calls.lookup i).all fun o' => o'.peer != o.peer || !o'.call.isStreaming
      | .next | .waiting => true
  | _ => true

private theorem takesTurns_of_inTurn {s : Jobs} {e : JobEvent} (h : inTurn s e = true) : TakesTurns s e := by
  unfold TakesTurns
  split
  · intro o hl hstart t ht i o' hphase hne hl' hpeer
    simp only [inTurn, hl, Option.all_some, hstart, Bool.not_true, Bool.false_or, List.all_eq_true] at h
    have hcall := h t ht
    simp only [hphase, hl', Option.all_some, hpeer] at hcall
    simpa [hne] using hcall
  · trivial

/-- An image and an empty file for one peer, the file after the image. -/
private def inTurnEvents : List JobEvent :=
  [.sendClipImage toB [1], .send toB .absent ["f"] (some "b"), .begin 0 (some 7) (.error ""),
    .begin 1 (some 7) (.ok (true, 0)), .call (.queue 1), .call (.nextChunk 1), .call (.queue 1), .call (.nextChunk 1),
    .call (.queue 1), .call (.queue 2), .call (.openFile 2 none), .call (.read 2 (.ok [])), .call (.queue 2)]

theorem one_in_flight_in_turn :
    ∃ s, Run (jobStep flatHash) Always .start inTurnEvents s ∧
      s.queued.map (blobId ·.2) = [some 1, some 1, some 1, some 2, some 2] ∧
      Throughout (jobStep flatHash) OneInFlight .start inTurnEvents := by
  obtain ⟨s, hr, hqueued⟩ := run_of_exec_checked (jobStep flatHash) (fun s e => inTurn s e = true) .start inTurnEvents
    (fun s => s.queued.map (blobId ·.2)) [some 1, some 1, some 1, some 2, some 2] (by decide +kernel)
  have hturns : Run (jobStep flatHash) TakesTurns .start inTurnEvents s :=
    hr.mono fun _ _ h => takesTurns_of_inTurn h
  exact ⟨s, hr.always, hqueued, (one_in_flight flatHash hr.always).2 hturns⟩

/-- Two requests for one peer. -/
private def twoRequests : List JobEvent :=
  [.send toB .absent ["f"] (some "b"), .send toB .absent ["g"] (some "b"), .begin 0 (some 7) (.ok (true, 1)),
    .begin 1 (some 7) (.ok (true, 1)), .call (.queue 1), .call (.queue 2)]

theorem two_blobs_in_flight :
    ∃ s, Run (jobStep flatHash) Always .start twoRequests s ∧ InFlight s "b" 1 ∧ InFlight s "b" 2 ∧
      ¬ OneInFlight s := by
  obtain ⟨s, hr, hv⟩ := run_of_exec_view (jobStep flatHash) (fun _ => True) .start twoRequests
    (fun s => (s.queued, ((s.sender.calls.lookup 1).map (·.call.hasReturned)),
      ((s.sender.calls.lookup 2).map (·.call.hasReturned))))
    ([("b", .blobStart 1 "f" 1 .file), ("b", .blobStart 2 "g" 1 .file)], some false, some false)
    (fun _ _ => trivial) (by decide +kernel)
  simp only [Prod.mk.injEq] at hv
  obtain ⟨hqueued, h₁, h₂⟩ := hv
  have hin : ∀ id, (∃ name, ("b", Message.blobStart id name 1 .file) ∈ s.queued) →
      (s.sender.calls.lookup id).map (·.call.hasReturned) = some false → InFlight s "b" id := by
    rintro id ⟨name, hmem⟩ hcall
    refine ⟨⟨name, 1, .file, hmem⟩, ?_, Option.map_eq_some_iff.1 hcall⟩
    intro sha hend
    simp [hqueued] at hend
  have h₁ := hin 1 ⟨"f", by simp [hqueued]⟩ h₁
  have h₂ := hin 2 ⟨"g", by simp [hqueued]⟩ h₂
  exact ⟨s, hr, h₁, h₂, fun h => absurd (h "b" 1 2 h₁ h₂) (by decide)⟩

end Qdrop
