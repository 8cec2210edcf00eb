import Mathlib.Data.Finset.Basic
import Mathlib.Data.List.AList
import Qdrop.FileXfer.Send
import Qdrop.Lib.Run
import Qdrop.Lib.Table

/-!
# Who acknowledges a transfer (`FileXfer.acks`)

The sender side of one `FileXfer`: every call of `send_one` and `send_clip_image` takes an id, registers a waiter for
it in `acks` and streams its blob; a `BlobAck` of any peer removes the waiter of its id and answers the call.  The map
is keyed by the id alone, so the answer need not come from the peer the blob was sent to (`ack_from_another_peer`).
`acked_by_target` shows that the calls hear from their own peers exactly in the runs in which no peer acknowledges a
transfer that is waiting for another one.
-/

namespace Qdrop

open Lib

/-- A call in progress or returned. -/
structure Outgoing where
  /-- The peer the blob goes to. -/
  peer : DeviceId
  call : SendCall
  /-- What the oneshot the call waits on holds. -/
  ack : Option (Bool × String)
  /-- The peer whose `BlobAck` took the waiter. -/
  resolvedBy : Option DeviceId

structure Sender where
  nextId : Nat
  /-- The ids with an ack waiter. -/
  acks : Finset Nat
  calls : AList (fun _ : Nat => Outgoing)
  /-- The frames that came in, with the peers they came from. -/
  heard : List (DeviceId × Message)

namespace Sender

def start : Sender := ⟨1, ∅, ∅, []⟩

/-- A call takes the next id and registers its waiter. -/
def begin (s : Sender) (peer : DeviceId) (c : SendCall) : Sender :=
  { s with
    nextId := s.nextId + 1
    acks := insert s.nextId s.acks
    calls := s.calls.insert s.nextId ⟨peer, c, none, none⟩ }

/-- The call `id` goes on as `c`; once `stream_blob` has returned, the waiter is removed. -/
def put (s : Sender) (id : Nat) (o : Outgoing) (c : SendCall) : Sender :=
  { s with
    acks := if c.hasReturned then s.acks.erase id else s.acks
    calls := s.calls.insert id { o with call := c } }

/-- A step of a call that queues nothing. -/
def update (s : Sender) (id : Nat) (f : Outgoing → Option SendCall) : Option Sender :=
  match s.calls.lookup id with
  | none => none
  | some o => (f o).map (s.put id o)

/-- The call's `sender.send(..)` returns; with the frame and the peer it goes to. -/
def queue (sha256 : Bytes → Digest) (s : Sender) (id : Nat) : Option (Sender × DeviceId × Message) :=
  match s.calls.lookup id with
  | none => none
  | some o => (o.call.frame sha256 id).map fun m => (s.put id o o.call.queued, o.peer, m)

/-- The `BlobAck` arm of `handle_inbound`: whoever sent it, it takes the waiter of its id. -/
def onAck (s : Sender) (peerId : DeviceId) (id : Nat) (ok : Bool) (detail : String) : Sender :=
  if id ∈ s.acks then
    { s with
      acks := s.acks.erase id
      calls := match s.calls.lookup id with
        | none => s.calls
        | some o => s.calls.insert id { o with ack := some (ok, detail), resolvedBy := some peerId } }
  else s

/-- The sender's part of `FileXfer::handle_inbound`; the other blob frames concern the receiver side. -/
def inbound (s : Sender) (peerId : DeviceId) (msg : Message) : Sender :=
  let s := { s with heard := s.heard ++ [(peerId, msg)] }
  match msg with
  | .blobAck id ok detail => s.onAck peerId id ok detail
  | _ => s

/-- The wait ends with what the oneshot holds. -/
def answer (s : Sender) (id : Nat) : Option Sender :=
  s.update id fun o =>
    match o.ack with
    | some (ok, detail) => o.call.answered (.ack ok detail)
    | none => none

/-- `ACK_TIMEOUT` has passed; the timer is looked at after the oneshot. -/
def timeout (s : Sender) (id : Nat) : Option Sender :=
  s.update id fun o =>
    match o.ack with
    | some _ => none
    | none => o.call.answered .timeout

end Sender

inductive SenderEvent where
  | sendOne (peer : DeviceId) (conn : Option Nat) (path : PathBuf) (stat : Except String (Bool × Nat))
  | sendClipImage (peer : DeviceId) (conn : Nat) (png : Bytes)
  | queue (id : Nat)
  /-- The call's `sender.send(..)` fails: the connection is gone. -/
  | closed (id : Nat)
  | openFile (id : Nat) (err : Option String)
  | read (id : Nat) (res : Except String Bytes)
  | nextChunk (id : Nat)
  | answer (id : Nat)
  | timeout (id : Nat)
  | inbound (peerId : DeviceId) (msg : Message)

/-- The event is not the beginning of a call. -/
def SenderEvent.isCallStep : SenderEvent → Bool
  | .sendOne .. | .sendClipImage .. => false
  | _ => true

/-- The sender side of one daemon takes a step. -/
def senderStep (sha256 : Bytes → Digest) (s : Sender) : SenderEvent → Option Sender
  | .sendOne peer conn path stat =>
    match sendOne conn path stat with
    | .error _ => some s
    | .ok c => some (s.begin peer c)
  | .sendClipImage peer conn png => some (s.begin peer (Qdrop.sendClipImage conn png))
  | .queue id => (s.queue sha256 id).map Prod.fst
  | .closed id => s.update id fun o => (o.call.frame sha256 id).map fun _ => o.call.closed
  | .openFile id err => s.update id (·.call.opened err)
  | .read id res => s.update id (·.call.read res)
  | .nextChunk id => s.update id (·.call.nextChunk)
  | .answer id => s.answer id
  | .timeout id => s.timeout id
  | .inbound peerId msg => some (s.inbound peerId msg)

/-- The frame a step queues, with its peer. -/
def Sender.queues (sha256 : Bytes → Digest) (s : Sender) : SenderEvent → Option (DeviceId × Message)
  | .queue id => (s.queue sha256 id).map Prod.snd
  | _ => none

/-! ### The property and the condition -/

/-- A call's waiter was taken by its own peer only, and it returned `Ok` only after its peer has sent a `BlobAck` with
`ok = true` for it. -/
def AckedByTarget (s : Sender) : Prop :=
  ∀ id o, s.calls.lookup id = some o →
    (∀ q, o.resolvedBy = some q → q = o.peer) ∧
      ∀ detail, o.call.phase = .returned (.ok detail) → (o.peer, .blobAck id true detail) ∈ s.heard

/-- A `BlobAck` for a transfer that is waiting for one comes from the peer it was sent to. -/
def fromTarget (s : Sender) : SenderEvent → Bool
  | .inbound q (.blobAck id _ _) => id ∉ s.acks || (s.calls.lookup id).all (·.peer == q)
  | _ => true

/-! ### What a step can do -/

section Steps

variable {sha256 : Bytes → Digest} {s s' : Sender} {id : Nat}

theorem Sender.update_cases {f : Outgoing → Option SendCall} (h : s.update id f = some s') :
    ∃ o c, s.calls.lookup id = some o ∧ f o = some c ∧ s' = s.put id o c := by
  unfold Sender.update at h
  split at h
  · cases h
  · rename_i o hl
    obtain ⟨c, hc, rfl⟩ := Option.map_eq_some_iff.1 h
    exact ⟨o, c, hl, hc, rfl⟩

theorem Sender.queue_cases {out : Sender × DeviceId × Message} (h : s.queue sha256 id = some out) :
    ∃ o m, s.calls.lookup id = some o ∧ o.call.frame sha256 id = some m ∧
      out = (s.put id o o.call.queued, o.peer, m) := by
  unfold Sender.queue at h
  split at h
  · cases h
  · rename_i o hl
    obtain ⟨m, hm, rfl⟩ := Option.map_eq_some_iff.1 h
    exact ⟨o, m, hl, hm, rfl⟩

/-- A call goes on with `c`, which has returned `Ok` only if the oneshot says so. -/
def Sender.GoesOn (s : Sender) (id : Nat) (o : Outgoing) (c : SendCall) : Prop :=
  s.calls.lookup id = some o ∧ ∀ detail, c.phase = .returned (.ok detail) →
    o.call.phase = .returned (.ok detail) ∨ o.ack = some (true, detail)

theorem SendCall.queued_ok {c : SendCall} {detail : String} (h : c.queued.phase = .returned (.ok detail)) :
    c.phase = .returned (.ok detail) := by
  unfold SendCall.queued at h
  split at h <;> first | cases h | exact h

/-- A step leaves the sender alone, begins a call, takes a call further, or handles a frame. -/
theorem senderStep_cases {e : SenderEvent} (h : senderStep sha256 s e = some s') :
    (s' = s ∧ fromTarget s e = true) ∨
    (∃ peer c, c.isStarting = true ∧ s' = s.begin peer c ∧ fromTarget s e = true) ∨
    (∃ id o c, s.GoesOn id o c ∧ s' = s.put id o c ∧ fromTarget s e = true) ∨
    (∃ q m, e = .inbound q m ∧ s' = s.inbound q m) := by
  cases e with
  | sendOne peer conn path stat =>
    simp only [senderStep] at h
    split at h
    · cases h; exact Or.inl ⟨rfl, rfl⟩
    · rename_i c hc
      cases h
      exact Or.inr (Or.inl ⟨peer, c, sendOne_isStarting hc, rfl, rfl⟩)
  | sendClipImage peer conn png =>
    cases h
    exact Or.inr (Or.inl ⟨peer, _, rfl, rfl, rfl⟩)
  | queue id =>
    obtain ⟨out, hq, rfl⟩ := Option.map_eq_some_iff.1 h
    obtain ⟨o, m, hl, -, rfl⟩ := Sender.queue_cases hq
    exact Or.inr (Or.inr (Or.inl ⟨id, o, _, ⟨hl, fun _ hd => Or.inl (SendCall.queued_ok hd)⟩, rfl, rfl⟩))
  | closed id =>
    obtain ⟨o, c, hl, hc, rfl⟩ := Sender.update_cases h
    obtain ⟨m, -, rfl⟩ := Option.map_eq_some_iff.1 hc
    refine Or.inr (Or.inr (Or.inl ⟨id, o, _, ⟨hl, fun detail hd => ?_⟩, rfl, rfl⟩))
    unfold SendCall.closed at hd
    split at hd <;> cases hd
  | openFile id err =>
    obtain ⟨o, c, hl, hc, rfl⟩ := Sender.update_cases h
    have hon : o.call.ReadsOn c := (SendCall.opened_cases hc).1
    exact Or.inr (Or.inr (Or.inl ⟨id, o, c, ⟨hl, fun detail hd => absurd hd (hon.notOk detail)⟩, rfl, rfl⟩))
  | read id res =>
    obtain ⟨o, c, hl, hc, rfl⟩ := Sender.update_cases h
    have hon : o.call.ReadsOn c := (SendCall.read_cases hc).1
    exact Or.inr (Or.inr (Or.inl ⟨id, o, c, ⟨hl, fun detail hd => absurd hd (hon.notOk detail)⟩, rfl, rfl⟩))
  | nextChunk id =>
    obtain ⟨o, c, hl, hc, rfl⟩ := Sender.update_cases h
    have hon : o.call.ReadsOn c := (SendCall.nextChunk_cases hc).1
    exact Or.inr (Or.inr (Or.inl ⟨id, o, c, ⟨hl, fun detail hd => absurd hd (hon.notOk detail)⟩, rfl, rfl⟩))
  | answer id =>
    obtain ⟨o, c, hl, hc, rfl⟩ := Sender.update_cases h
    refine Or.inr (Or.inr (Or.inl ⟨id, o, c, ⟨hl, fun detail hd => ?_⟩, rfl, rfl⟩))
    split at hc
    · rename_i ok detail' hack
      cases ok <;> (unfold SendCall.answered at hc; split at hc <;> cases hc) <;> cases hd
      exact Or.inr hack
    · cases hc
  | timeout id =>
    obtain ⟨o, c, hl, hc, rfl⟩ := Sender.update_cases h
    refine Or.inr (Or.inr (Or.inl ⟨id, o, c, ⟨hl, fun detail hd => ?_⟩, rfl, rfl⟩))
    split at hc
    · cases hc
    · unfold SendCall.answered at hc
      split at hc <;> cases hc
      cases hd
  | inbound q m =>
    cases h
    exact Or.inr (Or.inr (Or.inr ⟨q, m, rfl, rfl⟩))

theorem Sender.nextId_le {e : SenderEvent} (h : senderStep sha256 s e = some s') : s.nextId ≤ s'.nextId := by
  rcases senderStep_cases h with ⟨rfl, -⟩ | ⟨peer, c, -, rfl, -⟩ | ⟨id, o, c, -, rfl, -⟩ | ⟨q, m, -, rfl⟩
  · exact le_rfl
  · exact Nat.le_succ _
  · exact le_rfl
  · unfold Sender.inbound Sender.onAck
    split
    · dsimp only
      split <;> exact le_rfl
    · exact le_rfl

theorem Sender.queues_queue {o : Outgoing} {m : Message} (hl : s.calls.lookup id = some o)
    (hm : o.call.frame sha256 id = some m) : s.queues sha256 (.queue id) = some (o.peer, m) := by
  simp [Sender.queues, Sender.queue, hl, hm]

theorem Sender.queues_eq_none {e : SenderEvent} (h : ∀ i, e ≠ .queue i) : s.queues sha256 e = none := by
  cases e with
  | queue id => exact absurd rfl (h id)
  | _ => rfl

/-- What a step makes of what is known about the calls: it begins a call, queues the frame of one, takes one further
without a frame, or answers one. -/
theorem Sender.calls_step {e : SenderEvent} {R S : Nat → Outgoing → Prop} (hs : senderStep sha256 s e = some s')
    (hbegin : ∀ peer c, e.isCallStep = false → c.isStarting = true → S s.nextId ⟨peer, c, none, none⟩)
    (hkeep : ∀ id o, (∀ i, e = .queue i → id ≠ i) → R id o → S id o)
    (hqueue : ∀ id o m, e = .queue id → R id o → s.calls.lookup id = some o → o.call.frame sha256 id = some m →
      S id { o with call := o.call.queued })
    (hquiet : ∀ id o c, (∀ i, e ≠ .queue i) → R id o → o.call.Quiet sha256 c → S id { o with call := c })
    (hack : ∀ id o ack p, (∀ i, e ≠ .queue i) → R id o → S id { o with ack := ack, resolvedBy := p })
    (h : ∀ id o, s.calls.lookup id = some o → R id o) : ∀ id o, s'.calls.lookup id = some o → S id o := by
  have hput : ∀ id o c, s.calls.lookup id = some o → (∀ i, e = .queue i → i = id) → S id { o with call := c } →
      ∀ id' o', (s.put id o c).calls.lookup id' = some o' → S id' o' := by
    intro id o c hl he hc id' o' hl'
    simp only [Sender.put] at hl'
    rcases lookup_insert_eq_some.1 hl' with ⟨rfl, rfl⟩ | ⟨hid, hl'⟩
    · exact hc
    · refine hkeep id' o' ?_ (h _ _ hl')
      intro i hi
      rw [he i hi]
      exact hid
  have hkeep' : (∀ i, e ≠ .queue i) → ∀ id' o', s.calls.lookup id' = some o' → S id' o' := fun he id' o' hl' =>
    hkeep id' o' (fun i hi => absurd hi (he i)) (h _ _ hl')
  have hbegin' : e.isCallStep = false → (∀ i, e ≠ .queue i) → ∀ peer c, c.isStarting = true →
      ∀ id' o', (s.begin peer c).calls.lookup id' = some o' → S id' o' := by
    intro hcall he peer c hc id' o' hl'
    simp only [Sender.begin] at hl'
    rcases lookup_insert_eq_some.1 hl' with ⟨rfl, rfl⟩ | ⟨-, hl'⟩
    · exact hbegin peer c hcall hc
    · exact hkeep' he _ _ hl'
  cases e with
  | sendOne peer conn path stat =>
    simp only [senderStep] at hs
    split at hs
    · cases hs
      exact hkeep' (fun _ h => by cases h)
    · rename_i c hc
      cases hs
      exact hbegin' rfl (fun _ h => by cases h) peer c (sendOne_isStarting hc)
  | sendClipImage peer conn png =>
    cases hs
    exact hbegin' rfl (fun _ h => by cases h) peer _ rfl
  | queue id =>
    obtain ⟨out, hq, rfl⟩ := Option.map_eq_some_iff.1 hs
    obtain ⟨o, m, hl, hm, rfl⟩ := Sender.queue_cases hq
    exact hput id o _ hl (fun i hi => by cases hi; rfl) (hqueue id o m rfl (h _ _ hl) hl hm)
  | closed id =>
    obtain ⟨o, c, hl, hc, rfl⟩ := Sender.update_cases hs
    obtain ⟨m, hm, rfl⟩ := Option.map_eq_some_iff.1 hc
    exact hput id o _ hl (fun _ h => by cases h) (hquiet id o _ (fun _ h => by cases h) (h _ _ hl) (.closed hm))
  | openFile id err =>
    obtain ⟨o, c, hl, hc, rfl⟩ := Sender.update_cases hs
    exact hput id o c hl (fun _ h => by cases h) (hquiet id o c (fun _ h => by cases h) (h _ _ hl) (.opened hc))
  | read id res =>
    obtain ⟨o, c, hl, hc, rfl⟩ := Sender.update_cases hs
    exact hput id o c hl (fun _ h => by cases h) (hquiet id o c (fun _ h => by cases h) (h _ _ hl) (.read hc))
  | nextChunk id =>
    obtain ⟨o, c, hl, hc, rfl⟩ := Sender.update_cases hs
    exact hput id o c hl (fun _ h => by cases h) (hquiet id o c (fun _ h => by cases h) (h _ _ hl) (.nextChunk hc))
  | answer id =>
    obtain ⟨o, c, hl, hc, rfl⟩ := Sender.update_cases hs
    split at hc
    · exact hput id o c hl (fun _ h => by cases h) (hquiet id o c (fun _ h => by cases h) (h _ _ hl) (.answered hc))
    · cases hc
  | timeout id =>
    obtain ⟨o, c, hl, hc, rfl⟩ := Sender.update_cases hs
    split at hc
    · cases hc
    · exact hput id o c hl (fun _ h => by cases h) (hquiet id o c (fun _ h => by cases h) (h _ _ hl) (.answered hc))
  | inbound q m =>
    cases hs
    intro id' o' hl'
    unfold Sender.inbound at hl'
    cases m with
    | blobAck id ok detail =>
      simp only [Sender.onAck] at hl'
      split at hl'
      · cases hl : s.calls.lookup id with
        | none =>
          simp only [hl] at hl'
          exact hkeep' (fun _ h => by cases h) _ _ hl'
        | some o =>
          simp only [hl] at hl'
          rcases lookup_insert_eq_some.1 hl' with ⟨rfl, rfl⟩ | ⟨-, hl'⟩
          · exact hack id' o _ _ (fun _ h => by cases h) (h _ _ hl)
          · exact hkeep' (fun _ h => by cases h) _ _ hl'
      · exact hkeep' (fun _ h => by cases h) _ _ hl'
    | _ => exact hkeep' (fun _ h => by cases h) _ _ hl'

end Steps

/-! ### The invariant -/

/-- Ids are fresh, a waiter belongs to a call that nobody has answered, and what a call was answered was sent by its
peer. -/
structure Waiting (s : Sender) : Prop where
  fresh : ∀ id, s.nextId ≤ id → s.calls.lookup id = none
  waiter : ∀ id ∈ s.acks, ∃ o, s.calls.lookup id = some o ∧ o.resolvedBy = none

/-- What the calls know came from their peers. -/
def OwnAcks (s : Sender) : Prop :=
  ∀ id o, s.calls.lookup id = some o →
    (∀ q, o.resolvedBy = some q → q = o.peer) ∧
    (∀ detail, o.ack = some (true, detail) → (o.peer, .blobAck id true detail) ∈ s.heard) ∧
    ∀ detail, o.call.phase = .returned (.ok detail) → (o.peer, .blobAck id true detail) ∈ s.heard

section Invariant

variable {sha256 : Bytes → Digest} {s s' : Sender} {e : SenderEvent} {id : Nat}

theorem waiting_start : Waiting Sender.start where
  fresh id _ := rfl
  waiter id h := by cases h

theorem Waiting.begin (h : Waiting s) (peer : DeviceId) (c : SendCall) : Waiting (s.begin peer c) where
  fresh id hid := by
    have hid : s.nextId + 1 ≤ id := hid
    have : id ≠ s.nextId := by omega
    simp only [Sender.begin, AList.lookup_insert_ne this]
    exact h.fresh id (by omega)
  waiter id hid := by
    rcases Finset.mem_insert.1 hid with rfl | hid
    · exact ⟨_, AList.lookup_insert _, rfl⟩
    · obtain ⟨o, hl, ho⟩ := h.waiter id hid
      have : id ≠ s.nextId := by
        rintro rfl
        rw [h.fresh _ le_rfl] at hl
        cases hl
      exact ⟨o, by simp only [Sender.begin, AList.lookup_insert_ne this, hl], ho⟩

private theorem Waiting.put (h : Waiting s) {o : Outgoing} (hl : s.calls.lookup id = some o) (c : SendCall) :
    Waiting (s.put id o c) where
  fresh id' hid := by
    have hne : id' ≠ id := by
      rintro rfl
      rw [h.fresh id' hid] at hl
      cases hl
    simp only [Sender.put, AList.lookup_insert_ne hne]
    exact h.fresh id' hid
  waiter id' hid := by
    have hid : id' ∈ s.acks := by
      simp only [Sender.put] at hid
      split at hid
      · exact Finset.mem_of_mem_erase hid
      · exact hid
    obtain ⟨o', hl', ho'⟩ := h.waiter id' hid
    by_cases hne : id' = id
    · subst hne
      rw [hl] at hl'
      cases hl'
      exact ⟨_, AList.lookup_insert _, ho'⟩
    · exact ⟨o', by simp only [Sender.put, AList.lookup_insert_ne hne, hl'], ho'⟩

/-- A frame changes nothing but the record of what was heard, or it is a `BlobAck` that takes the waiter of a call. -/
theorem Sender.inbound_cases (h : Waiting s) (q : DeviceId) (m : Message) :
    (s.inbound q m = { s with heard := s.heard ++ [(q, m)] } ∧ fromTarget s (.inbound q m) = true) ∨
    ∃ id ok detail o, m = .blobAck id ok detail ∧ id ∈ s.acks ∧ s.calls.lookup id = some o ∧ o.resolvedBy = none ∧
      s.inbound q m = ⟨s.nextId, s.acks.erase id,
        s.calls.insert id { o with ack := some (ok, detail), resolvedBy := some q }, s.heard ++ [(q, m)]⟩ := by
  cases m with
  | blobAck id ok detail =>
    by_cases hid : id ∈ s.acks
    · obtain ⟨o, hl, ho⟩ := h.waiter id hid
      refine Or.inr ⟨id, ok, detail, o, rfl, hid, hl, ho, ?_⟩
      simp only [Sender.inbound, Sender.onAck, hid, hl, if_true]
    · refine Or.inl ⟨?_, by simp [fromTarget, hid]⟩
      simp only [Sender.inbound, Sender.onAck, hid, if_false]
  | _ => exact Or.inl ⟨rfl, rfl⟩

private theorem Waiting.inbound (h : Waiting s) (q : DeviceId) (m : Message) : Waiting (s.inbound q m) := by
  rcases Sender.inbound_cases h q m with ⟨heq, -⟩ | ⟨id, ok, detail, o, rfl, hid, hl, -, heq⟩
  · rw [heq]
    exact ⟨h.fresh, h.waiter⟩
  · rw [heq]
    refine ⟨fun id' hid' => ?_, fun id' hid' => ?_⟩
    · have hne : id' ≠ id := by
        rintro rfl
        rw [h.fresh id' hid'] at hl
        cases hl
      simp only [AList.lookup_insert_ne hne]
      exact h.fresh id' hid'
    · obtain ⟨hne, hid'⟩ := Finset.mem_erase.1 hid'
      simp only [AList.lookup_insert_ne hne]
      exact h.waiter id' hid'

theorem waiting_step (h : Waiting s) (hs : senderStep sha256 s e = some s') : Waiting s' := by
  rcases senderStep_cases hs with ⟨rfl, -⟩ | ⟨peer, c, -, rfl, -⟩ | ⟨id, o, c, hgo, rfl, -⟩ | ⟨q, m, rfl, rfl⟩
  · exact h
  · exact h.begin peer c
  · exact h.put hgo.1 c
  · exact h.inbound q m

/-- A step that meets the condition keeps what the calls know. -/
private theorem ownAcks_step (hw : Waiting s) (h : OwnAcks s) (hok : fromTarget s e = true)
    (hs : senderStep sha256 s e = some s') : OwnAcks s' := by
  rcases senderStep_cases hs with ⟨rfl, -⟩ | ⟨peer, c, hc, rfl, -⟩ | ⟨id, o, c, ⟨hl, hgo⟩, rfl, -⟩ | ⟨q, m, rfl, rfl⟩
  · exact h
  · intro id' o' hl'
    by_cases hne : id' = s.nextId
    · subst hne
      simp only [Sender.begin, AList.lookup_insert, Option.some.injEq] at hl'
      subst hl'
      refine ⟨(fun q hq => by cases hq), (fun d hd => by cases hd), fun d hd => ?_⟩
      simp only at hd
      simp [SendCall.isStarting, hd] at hc
    · simp only [Sender.begin, AList.lookup_insert_ne hne] at hl'
      exact h id' o' hl'
  · intro id' o' hl'
    by_cases hne : id' = id
    · subst hne
      simp only [Sender.put, AList.lookup_insert, Option.some.injEq] at hl'
      subst hl'
      obtain ⟨h₁, h₂, h₃⟩ := h id' o hl
      refine ⟨h₁, h₂, fun d hd => ?_⟩
      rcases hgo d hd with hd | hd
      · exact h₃ d hd
      · exact h₂ d hd
    · simp only [Sender.put, AList.lookup_insert_ne hne] at hl'
      exact h id' o' hl'
  · have hgrow : ∀ x ∈ s.heard, x ∈ s.heard ++ [(q, m)] := fun x hx => List.mem_append_left _ hx
    rcases Sender.inbound_cases hw q m with ⟨heq, -⟩ | ⟨id, ok, detail, o, rfl, hid, hl, -, heq⟩
    · rw [heq]
      intro id' o' hl'
      obtain ⟨h₁, h₂, h₃⟩ := h id' o' hl'
      exact ⟨h₁, fun d hd => hgrow _ (h₂ d hd), fun d hd => hgrow _ (h₃ d hd)⟩
    · rw [heq]
      have hpeer : o.peer = q := by simpa [fromTarget, hid, hl] using hok
      intro id' o' hl'
      by_cases hne : id' = id
      · subst hne
        simp only [AList.lookup_insert, Option.some.injEq] at hl'
        subst hl'
        refine ⟨fun q' hq' => ?_, fun d hd => ?_, fun d hd => hgrow _ ((h id' o hl).2.2 d hd)⟩
        · simp only [Option.some.injEq] at hq'
          rw [← hq', hpeer]
        · simp only [Option.some.injEq, Prod.mk.injEq] at hd
          obtain ⟨rfl, rfl⟩ := hd
          simp [hpeer]
      · simp only [AList.lookup_insert_ne hne] at hl'
        obtain ⟨h₁, h₂, h₃⟩ := h id' o' hl'
        exact ⟨h₁, fun d hd => hgrow _ (h₂ d hd), fun d hd => hgrow _ (h₃ d hd)⟩

/-- A waiter taken by another peer stays taken by it, so a step after which all is well met the condition. -/
private theorem resolved_back (hw : Waiting s) (hs : senderStep sha256 s e = some s')
    (h : ∀ id o, s'.calls.lookup id = some o → ∀ q, o.resolvedBy = some q → q = o.peer) :
    fromTarget s e = true ∧ ∀ id o, s.calls.lookup id = some o → ∀ q, o.resolvedBy = some q → q = o.peer := by
  rcases senderStep_cases hs with ⟨rfl, hok⟩ | ⟨peer, c, -, rfl, hok⟩ | ⟨id, o, c, ⟨hl, -⟩, rfl, hok⟩ | ⟨q, m, rfl, rfl⟩
  · exact ⟨hok, h⟩
  · refine ⟨hok, fun id o hl q hq => ?_⟩
    have hne : id ≠ s.nextId := by
      rintro rfl
      rw [hw.fresh _ le_rfl] at hl
      cases hl
    exact h id o (by simp only [Sender.begin, AList.lookup_insert_ne hne, hl]) q hq
  · refine ⟨hok, fun id' o' hl' q hq => ?_⟩
    by_cases hne : id' = id
    · subst hne
      rw [hl] at hl'
      cases hl'
      exact h id' _ (AList.lookup_insert _) q hq
    · exact h id' o' (by simp only [Sender.put, AList.lookup_insert_ne hne, hl']) q hq
  · rcases Sender.inbound_cases hw q m with ⟨heq, hok⟩ | ⟨id, ok, detail, o, rfl, hid, hl, hnone, heq⟩
    · rw [heq] at h
      exact ⟨hok, h⟩
    · rw [heq] at h
      refine ⟨?_, fun id' o' hl' q' hq' => ?_⟩
      · have : q = o.peer := h id _ (AList.lookup_insert _) q rfl
        simp [fromTarget, hl, this]
      · by_cases hne : id' = id
        · subst hne
          rw [hl] at hl'
          cases hl'
          rw [hnone] at hq'
          cases hq'
        · exact h id' o' (by simp only [AList.lookup_insert_ne hne, hl']) q' hq'

end Invariant

/-! ### Acknowledgements come from the target -/

/-- For every interleaving of sends to any peers and of frames from any peers: the waiters were taken by the targets,
and `Ok` was returned only on a target's own acknowledgement, if and only if no peer has acknowledged a transfer that
was waiting for another one. -/
theorem acked_by_target (sha256 : Bytes → Digest) (es : List SenderEvent) (s : Sender)
    (hr : Run (senderStep sha256) Always Sender.start es s) :
    AckedByTarget s ↔ Run (senderStep sha256) (fun s e => fromTarget s e = true) Sender.start es s := by
  constructor
  · intro h
    have hres : ∀ id o, s.calls.lookup id = some o → ∀ q, o.resolvedBy = some q → q = o.peer :=
      fun id o hl => (h id o hl).1
    clear h
    induction hr with
    | nil => exact Run.nil _
    | snoc hr _ hs ih =>
      have hw : Waiting _ := hr.invariant waiting_start fun _ _ _ h _ hs => waiting_step h hs
      obtain ⟨hok, hres⟩ := resolved_back hw hs hres
      exact Run.snoc (ih hres) hok hs
  · intro hr
    have h : Waiting s ∧ OwnAcks s := by
      refine hr.invariant (I := fun s => Waiting s ∧ OwnAcks s) ⟨waiting_start, fun id o hl => by cases hl⟩ ?_
      rintro s e t ⟨hw, h⟩ hok hs
      exact ⟨waiting_step hw hs, ownAcks_step hw h hok hs⟩
    exact fun id o hl => ⟨(h.2 id o hl).1, (h.2 id o hl).2.2⟩

/-- `/f`, which is empty, is sent to `a` under id 1, and `acker` acknowledges it. -/
private def sendToA (acker : DeviceId) : List SenderEvent :=
  [.sendOne "a" (some 0) "/f" (.ok (true, 0)), .queue 1, .openFile 1 none, .read 1 (.ok []), .queue 1,
    .inbound acker (.blobAck 1 true "f"), .answer 1]

theorem acked_by_target_alone :
    ∃ s, Run (senderStep fun _ => Vector.replicate 32 0) Always Sender.start (sendToA "a") s ∧
      (∃ o, s.calls.lookup 1 = some o ∧ o.resolvedBy = some "a" ∧ o.call.phase = .returned (.ok "f")) ∧
      AckedByTarget s := by
  obtain ⟨s, hr, hv⟩ := run_of_exec_checked (senderStep fun _ => Vector.replicate 32 0)
    (fun s e => fromTarget s e = true) Sender.start (sendToA "a") (fun s => s.calls.lookup 1) _ rfl
  have hr' : Run (senderStep fun _ => Vector.replicate 32 0) Always Sender.start (sendToA "a") s :=
    hr.always
  exact ⟨s, hr', ⟨_, hv, rfl, rfl⟩, (acked_by_target _ _ s hr').2 hr⟩

/-- `b` answers the call that sends to `a`, which returns `Ok` although `a` has not said a word. -/
theorem ack_from_another_peer :
    ¬ ∃ sha256 : Bytes → Digest, ∀ (es : List SenderEvent) (s : Sender),
      Run (senderStep sha256) Always Sender.start es s → AckedByTarget s := by
  rintro ⟨sha256, h⟩
  obtain ⟨s, hr, hv⟩ := run_of_exec_view (senderStep sha256) (fun _ => True) Sender.start (sendToA "b")
    (fun s => (s.calls.lookup 1, s.heard)) _ (fun _ _ => trivial) rfl
  have hcall := congrArg Prod.fst hv
  have hheard : s.heard = [("b", .blobAck 1 true "f")] := congrArg Prod.snd hv
  have hmem := (h _ s hr.always 1 _ hcall).2 "f" rfl
  rw [hheard] at hmem
  exact absurd hmem (by decide)

end Qdrop
