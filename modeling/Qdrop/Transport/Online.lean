import Qdrop.Transport.Live

/-!
# The online view at quiescence

Three places say whether a peer is online: the bus, the running connections, and the last `TransportEvent`, which
`publish_events` turns into the `online` map of `state.json`.  The handlers update them from messages that carry only
the peer's id, so they drift apart when a `ConnUp` is processed after its task was dropped, or a `ConnDown` after its
connection was replaced (`dropped_peer_stays_online`).  `online_view_truthful` shows that nothing else makes them
disagree once every announcement has been processed.
-/

namespace Qdrop

open Lib

/-! ### `publish_events` (`qdropd/src/state.rs`) -/

def TransportEvent.deviceId : TransportEvent → DeviceId
  | .peerConnected deviceId _ _ _ => deviceId
  | .peerDisconnected deviceId _ => deviceId

def TransportEvent.isConnected : TransportEvent → Bool
  | .peerConnected .. => true
  | .peerDisconnected .. => false

/-- The keys of the `online` map after one more event: `mark_online` or `mark_offline`. -/
def publishEvent (online : List DeviceId) : TransportEvent → List DeviceId
  | .peerConnected deviceId _ _ _ => if deviceId ∈ online then online else online ++ [deviceId]
  | .peerDisconnected deviceId _ => online.filter (· != deviceId)

/-- The keys of the `online` map; a fresh daemon has cleared it. -/
def publishEvents (events : List TransportEvent) : List DeviceId := events.foldl publishEvent []

/-- Whether the last event emitted for `p` is `PeerConnected`. -/
def lastConnected (events : List TransportEvent) (p : DeviceId) : Bool :=
  (events.reverse.find? (fun ev => ev.deviceId == p)).any TransportEvent.isConnected

theorem lastConnected_snoc (events : List TransportEvent) (ev : TransportEvent) (p : DeviceId) :
    lastConnected (events ++ [ev]) p = if ev.deviceId = p then ev.isConnected else lastConnected events p := by
  unfold lastConnected
  rw [List.reverse_append, List.reverse_singleton, List.singleton_append]
  by_cases hp : ev.deviceId = p
  · rw [List.find?_cons_of_pos (by simpa using hp), if_pos hp]
    rfl
  · rw [List.find?_cons_of_neg (by simpa using hp), if_neg hp]

/-- `state.json` lists the peers whose last event is `PeerConnected`. -/
theorem mem_publishEvents (events : List TransportEvent) (p : DeviceId) :
    p ∈ publishEvents events ↔ lastConnected events p = true := by
  unfold publishEvents
  induction events using List.reverseRecOn with
  | nil => simp [lastConnected]
  | append_singleton events ev ih =>
    rw [List.foldl_append, List.foldl_cons, List.foldl_nil, lastConnected_snoc]
    by_cases hp : ev.deviceId = p
    · rw [if_pos hp]
      cases ev with
      | peerConnected id name caps addr =>
        obtain rfl : id = p := hp
        simp only [publishEvent, TransportEvent.isConnected, iff_true]
        split
        · assumption
        · simp
      | peerDisconnected id reason =>
        obtain rfl : id = p := hp
        simp [publishEvent, TransportEvent.isConnected]
    · rw [if_neg hp, ← ih]
      cases ev with
      | peerConnected id name caps addr =>
        have hne : p ≠ id := fun he => hp he.symm
        simp only [publishEvent]
        split
        · rfl
        · simp [hne]
      | peerDisconnected id reason =>
        have hne : p ≠ id := fun he => hp he.symm
        simp [publishEvent, hne]

/-! ### Quiescence and the condition -/

/-- The `drive_connection` task `t` is executing. -/
def Sys.connOf (s : Sys) (t : Nat) : Option Conn := (s.tasks.lookup t).bind Task.conn

/-- Every announcement has been processed: the queue is empty and no connection has one left to send. -/
def Quiet (s : Sys) : Prop := s.queue = [] ∧ ∀ t c, s.connOf t = some c → c.phase = .running

/-- The announcements processed belong to the task their peer's entry refers to; a `ConnDown` may also find no task
there. -/
def Timely (s : Sys) (e : TEvent) : Prop :=
  e = .process →
    (∀ p name caps addr out t rest, s.queue = .connUp p name caps addr out t :: rest →
      ∃ entry, s.peers.lookup p = some entry ∧ entry.task = some t) ∧
    (∀ p r t rest entry, s.queue = .connDown p r t :: rest → s.peers.lookup p = some entry →
      entry.task = none ∨ entry.task = some t)

theorem downTimely_of_timely {s : Sys} {e : TEvent} (h : Timely s e) : DownTimely s e := by
  intro he p r t rest entry t' hq hl _ ht' hne
  rcases (h he).2 p r t rest entry hq hl with hn | hs
  · rw [hn] at ht'
    cases ht'
  · rw [hs] at ht'
    cases ht'
    exact absurd rfl hne

/-! ### The announcements of one task -/

/-- The peer a message is about. -/
def Internal.peer : Internal → Option DeviceId
  | .connUp p _ _ _ _ _ => some p
  | .connDown p _ _ => some p
  | _ => none

/-- What the entry of task `t` says after the message. -/
def announce (t : Nat) (connected : Bool) : Internal → Bool
  | .connUp _ _ _ _ _ t' => if t' = t then true else connected
  | .connDown _ _ t' => if t' = t then false else connected
  | _ => connected

/-- What the entry of task `t` says after the whole queue. -/
def settled (queue : List Internal) (t : Nat) (connected : Bool) : Bool := queue.foldl (announce t) connected

/-- Task `t` has announced its connection and not its end. -/
def up (s : Sys) (t : Nat) : Bool := (s.connOf t).any (fun c => c.phase != .starting)

/-- Task `t` has a `ConnUp` to send, or one in the queue. -/
def Awaiting (s : Sys) (t : Nat) : Prop :=
  (∃ c, s.connOf t = some c ∧ c.phase = .starting) ∨
    ∃ p name caps addr out, Internal.connUp p name caps addr out t ∈ s.queue

private theorem announce_of_sender_ne {t : Nat} {m : Internal} (h : m.sender ≠ some t) (b : Bool) :
    announce t b m = b := by
  cases m with
  | connUp p name caps addr out t' => exact if_neg (fun he => h (by rw [he]; rfl))
  | connDown p r t' => exact if_neg (fun he => h (by rw [he]; rfl))
  | discovery | rosterChanged | inboundReady => rfl

private theorem settled_of_sender_ne {queue : List Internal} {t : Nat} (h : ∀ m ∈ queue, m.sender ≠ some t)
    (b : Bool) : settled queue t b = b := by
  induction queue with
  | nil => rfl
  | cons m queue ih =>
    unfold settled
    rw [List.foldl_cons, announce_of_sender_ne (h m (List.mem_cons_self ..))]
    exact ih (fun m' hm' => h m' (List.mem_cons_of_mem _ hm'))

private theorem settled_snoc (queue : List Internal) (m : Internal) (t : Nat) (b : Bool) :
    settled (queue ++ [m]) t b = announce t (settled queue t b) m := by
  unfold settled
  rw [List.foldl_append]
  rfl

private theorem settled_append_of_sender {queue extra : List Internal} {t : Nat}
    (h : ∀ m ∈ extra, m.sender ≠ some t) (b : Bool) : settled (queue ++ extra) t b = settled queue t b := by
  unfold settled
  rw [List.foldl_append]
  exact settled_of_sender_ne h _

/-! ### The invariant -/

/-- What the entry, the bus and the events say about `p`. -/
def PeerOk (s : Sys) (p : DeviceId) : Prop :=
  match s.peers.lookup p with
  | none => s.bus.lookup p = none ∧ lastConnected s.events p = false
  | some entry =>
    lastConnected s.events p = entry.connected ∧
    (entry.connected = true → (s.bus.lookup p).isSome = true) ∧
    ((s.bus.lookup p).isSome = true → entry.connected = true ∨ ∃ t, entry.task = some t ∧ Awaiting s t) ∧
    (entry.task = none → entry.connected = false) ∧
    ∀ t, entry.task = some t → settled s.queue t entry.connected = up s t

/-- The entries refer to tasks of their own, and the announcements in the queue are about them. -/
structure Wired (s : Sys) : Prop where
  tasks : ∀ p entry t, s.peers.lookup p = some entry → entry.task = some t →
    t ∉ s.aborted ∧ t < s.nextTask ∧ ∀ task, s.tasks.lookup t = some task → task.peer = p
  apart : ∀ p q entry entry' t, s.peers.lookup p = some entry → s.peers.lookup q = some entry' →
    entry.task = some t → entry'.task = some t → p = q
  aborted : ∀ t ∈ s.aborted, t < s.nextTask
  senders : ∀ m ∈ s.queue, ∀ t, m.sender = some t → t < s.nextTask ∧
    ∀ p entry, s.peers.lookup p = some entry → entry.task = some t → m.peer = some p

structure Truthful (s : Sys) : Prop where
  wired : Wired s
  peer : ∀ p, PeerOk s p

/-! ### Peers a step does not touch -/

section Frame

variable {s s' : Sys} {p : DeviceId}

/-- What `PeerOk` depends on in an entry. -/
def PeerEntry.status (entry : PeerEntry) : Bool × Option Nat := (entry.connected, entry.task)

/-- A step that leaves the entry, the bus and the events of `p` alone, and the announcements of its task balanced. -/
private theorem PeerOk.frame (h : PeerOk s p)
    (hentry : (s'.peers.lookup p).map PeerEntry.status = (s.peers.lookup p).map PeerEntry.status)
    (hbus : (s'.bus.lookup p).isSome = (s.bus.lookup p).isSome)
    (hlast : lastConnected s'.events p = lastConnected s.events p)
    (htask : ∀ entry t, s.peers.lookup p = some entry → entry.task = some t →
      (∀ b, settled s.queue t b = up s t → settled s'.queue t b = up s' t) ∧ (Awaiting s t → Awaiting s' t)) :
    PeerOk s' p := by
  unfold PeerOk at h ⊢
  cases hl : s.peers.lookup p with
  | none =>
    rw [hl] at h hentry
    have hnone : s'.peers.lookup p = none := by simpa using hentry
    rw [hnone]
    have hb : (s'.bus.lookup p).isSome = false := by rw [hbus, h.1]; rfl
    exact ⟨by simpa using hb, by rw [hlast]; exact h.2⟩
  | some entry =>
    rw [hl] at h hentry
    obtain ⟨entry', hl', hst⟩ := Option.map_eq_some_iff.1 hentry
    simp only [PeerEntry.status, Prod.mk.injEq] at hst
    rw [hl']
    obtain ⟨h1, h2, h3, h4, h5⟩ := h
    dsimp only
    rw [hst.1, hst.2, hbus, hlast]
    refine ⟨h1, h2, fun hb => ?_, h4, fun t ht => (htask entry t hl ht).1 _ (h5 t ht)⟩
    rcases h3 hb with hc | ⟨t, ht, haw⟩
    · exact Or.inl hc
    · exact Or.inr ⟨t, ht, (htask entry t hl ht).2 haw⟩

/-- The entries' tasks are inherited, and what is aborted or queued anew does not concern them. -/
private theorem Wired.inherit (h : Wired s)
    (hpeers : ∀ q entry' t, s'.peers.lookup q = some entry' → entry'.task = some t →
      ∃ entry, s.peers.lookup q = some entry ∧ entry.task = some t)
    (htasks : ∀ t task', s'.tasks.lookup t = some task' →
      ∃ task, s.tasks.lookup t = some task ∧ task.peer = task'.peer)
    (haborted : ∀ t ∈ s'.aborted, t ∈ s.aborted ∨
      (t < s.nextTask ∧ ∀ q entry', s'.peers.lookup q = some entry' → entry'.task ≠ some t))
    (hnext : s'.nextTask = s.nextTask)
    (hqueue : ∀ m ∈ s'.queue, ∀ t, m.sender = some t → m ∈ s.queue ∨
      ∃ task, s.tasks.lookup t = some task ∧ t < s.nextTask ∧ m.peer = some task.peer) : Wired s' where
  tasks q entry' t hq ht := by
    obtain ⟨entry, hl, het⟩ := hpeers q entry' t hq ht
    obtain ⟨hab, hlt, hpeer⟩ := h.tasks q entry t hl het
    refine ⟨fun hab' => ?_, by rw [hnext]; exact hlt, fun task' htask' => ?_⟩
    · rcases haborted t hab' with hab'' | ⟨-, hno⟩
      · exact hab hab''
      · exact hno q entry' hq ht
    · obtain ⟨task, htask, hp⟩ := htasks t task' htask'
      rw [← hp]
      exact hpeer task htask
  apart q r entry entry' t hq hr ht ht' := by
    obtain ⟨e, hl, het⟩ := hpeers q entry t hq ht
    obtain ⟨e', hl', het'⟩ := hpeers r entry' t hr ht'
    exact h.apart q r e e' t hl hl' het het'
  aborted t ht := by
    rw [hnext]
    rcases haborted t ht with ht | ⟨hlt, -⟩
    · exact h.aborted t ht
    · exact hlt
  senders m hm t hs := by
    rw [hnext]
    rcases hqueue m hm t hs with hm | ⟨task, htask, hlt, hpeer⟩
    · obtain ⟨hlt, hp⟩ := h.senders m hm t hs
      refine ⟨hlt, fun q entry' hq ht => ?_⟩
      obtain ⟨entry, hl, het⟩ := hpeers q entry' t hq ht
      exact hp q entry hl het
    · refine ⟨hlt, fun q entry' hq ht => ?_⟩
      obtain ⟨entry, hl, het⟩ := hpeers q entry' t hq ht
      rw [hpeer, (h.tasks q entry t hl het).2.2 task htask]

/-- A new task `s.nextTask` for `p`; the one its entry referred to before may be aborted. -/
private theorem Wired.spawn (h : Wired s) {entry : PeerEntry} {task : Task} (hpeer : task.peer = p)
    (htask : entry.task = some s.nextTask) (hpeers : s'.peers = s.peers.insert p entry)
    (htasks : s'.tasks = s.tasks.insert s.nextTask task) (hnext : s'.nextTask = s.nextTask + 1)
    (hqueue : s'.queue = s.queue)
    (haborted : ∀ t ∈ s'.aborted, t ∈ s.aborted ∨ ∃ old, s.peers.lookup p = some old ∧ old.task = some t) :
    Wired s' := by
  have hold : ∀ q e t, s'.peers.lookup q = some e → e.task = some t →
      (q = p ∧ t = s.nextTask) ∨ (q ≠ p ∧ t ≠ s.nextTask ∧ s.peers.lookup q = some e) := by
    intro q e t hq ht
    rw [hpeers] at hq
    rcases lookup_insert_eq_some.1 hq with ⟨rfl, rfl⟩ | ⟨hqp, hq⟩
    · rw [htask] at ht
      cases ht
      exact Or.inl ⟨rfl, rfl⟩
    · exact Or.inr ⟨hqp, (h.tasks q e t hq ht).2.1.ne, hq⟩
  refine ⟨fun q e t hq ht => ?_, fun q r e e' t hq hr ht ht' => ?_, fun t ht => ?_, fun m hm t hs => ?_⟩
  · rw [hnext, htasks]
    rcases hold q e t hq ht with ⟨rfl, rfl⟩ | ⟨hqp, htn, hl⟩
    · refine ⟨fun hab => ?_, by omega, fun task' htask' => ?_⟩
      · rcases haborted _ hab with hab | ⟨old, hl, hold⟩
        · exact (h.aborted _ hab).ne rfl
        · exact (h.tasks q old _ hl hold).2.1.ne rfl
      · rw [AList.lookup_insert] at htask'
        cases htask'
        exact hpeer
    · obtain ⟨hab, hlt, hp⟩ := h.tasks q e t hl ht
      refine ⟨fun hab' => ?_, by omega, fun task' htask' => ?_⟩
      · rcases haborted t hab' with hab' | ⟨old, hlp, hold⟩
        · exact hab hab'
        · exact hqp (h.apart q p e old t hl hlp ht hold)
      · rw [AList.lookup_insert_ne htn] at htask'
        exact hp task' htask'
  · rcases hold q e t hq ht with ⟨rfl, rfl⟩ | ⟨hqp, htn, hl⟩
    · rcases hold r e' _ hr ht' with ⟨rfl, -⟩ | ⟨-, htn, -⟩
      · rfl
      · exact absurd rfl htn
    · rcases hold r e' t hr ht' with ⟨rfl, rfl⟩ | ⟨-, -, hl'⟩
      · exact absurd rfl htn
      · exact h.apart q r e e' t hl hl' ht ht'
  · rw [hnext]
    rcases haborted t ht with ht | ⟨old, hl, hold⟩
    · have := h.aborted t ht
      omega
    · have := (h.tasks p old t hl hold).2.1
      omega
  · rw [hqueue] at hm
    obtain ⟨hlt, hp⟩ := h.senders m hm t hs
    rw [hnext]
    refine ⟨by omega, fun q e hq ht => ?_⟩
    rcases hold q e t hq ht with ⟨-, rfl⟩ | ⟨-, -, hl⟩
    · exact absurd rfl hlt.ne
    · exact hp q e hl ht

/-- A step that touches no entry, no bus and no event, and keeps the announcements of every task balanced. -/
private theorem Truthful.keep (h : Truthful s)
    (hpeers : ∀ q, (s'.peers.lookup q).map PeerEntry.status = (s.peers.lookup q).map PeerEntry.status)
    (hbus : s'.bus = s.bus) (hevents : s'.events = s.events) (haborted : s'.aborted = s.aborted)
    (hnext : s'.nextTask = s.nextTask)
    (htasks : ∀ t task', s'.tasks.lookup t = some task' →
      ∃ task, s.tasks.lookup t = some task ∧ task.peer = task'.peer)
    (hqueue : ∀ m ∈ s'.queue, ∀ t, m.sender = some t → m ∈ s.queue ∨
      ∃ task, s.tasks.lookup t = some task ∧ t < s.nextTask ∧ m.peer = some task.peer)
    (htask : ∀ q entry t, s.peers.lookup q = some entry → entry.task = some t →
      (∀ b, settled s.queue t b = up s t → settled s'.queue t b = up s' t) ∧ (Awaiting s t → Awaiting s' t)) :
    Truthful s' where
  wired := by
    refine h.wired.inherit (fun q entry' t hq ht => ?_) htasks (fun t ht => Or.inl (by rwa [haborted] at ht)) hnext
      hqueue
    have hst := hpeers q
    rw [hq, Option.map_some] at hst
    obtain ⟨entry, hl, heq⟩ := Option.map_eq_some_iff.1 hst.symm
    simp only [PeerEntry.status, Prod.mk.injEq] at heq
    exact ⟨entry, hl, heq.2.trans ht⟩
  peer q := (h.peer q).frame (hpeers q) (by rw [hbus]) (by rw [hevents]) (fun entry t hl ht => htask q entry t hl ht)

/-- In particular one that changes no connection and no announcement in the queue. -/
private theorem Truthful.silent (h : Truthful s)
    (hpeers : ∀ q, (s'.peers.lookup q).map PeerEntry.status = (s.peers.lookup q).map PeerEntry.status)
    (hbus : s'.bus = s.bus) (hevents : s'.events = s.events) (haborted : s'.aborted = s.aborted)
    (hnext : s'.nextTask = s.nextTask)
    (htasks : ∀ t task', s'.tasks.lookup t = some task' →
      ∃ task, s.tasks.lookup t = some task ∧ task.peer = task'.peer)
    (hconn : ∀ t, s'.connOf t = s.connOf t) (hset : ∀ t b, settled s'.queue t b = settled s.queue t b)
    (hmem : ∀ m, m.sender ≠ none → (m ∈ s'.queue ↔ m ∈ s.queue)) : Truthful s' := by
  refine h.keep hpeers hbus hevents haborted hnext htasks (fun m hm t hs => ?_) (fun q entry t _ _ => ⟨?_, ?_⟩)
  · exact Or.inl ((hmem m (by rw [hs]; simp)).1 hm)
  · intro b hb
    rw [hset, hb, up, up, hconn]
  · rintro (⟨c, hc, hph⟩ | ⟨p, name, caps, addr, out, hm⟩)
    · exact Or.inl ⟨c, by rw [hconn]; exact hc, hph⟩
    · exact Or.inr ⟨p, name, caps, addr, out, (hmem _ (by simp [Internal.sender])).2 hm⟩

end Frame

/-! ### The steps of the tasks -/

section Steps

variable {own : Hello} {ownId : DeviceId} {s s' : Sys} {e : TEvent}

private theorem connOf_insert (s : Sys) (t u : Nat) (task : Task) :
    ((s.tasks.insert t task).lookup u).bind Task.conn = if u = t then task.conn else s.connOf u := by
  split
  · rename_i hu
    rw [hu, AList.lookup_insert]
    rfl
  · rename_i hu
    rw [AList.lookup_insert_ne hu]
    rfl

private theorem connOf_erase (s : Sys) (t u : Nat) :
    ((s.tasks.erase t).lookup u).bind Task.conn = if u = t then none else s.connOf u := by
  split
  · rename_i hu
    rw [hu, AList.lookup_erase]
    rfl
  · rename_i hu
    rw [AList.lookup_erase_ne hu]
    rfl

private theorem connOf_sendAddrs (s : Sys) (t u : Nat) (addrs : List SocketAddr) :
    ((sendAddrs s.tasks t addrs).lookup u).bind Task.conn = s.connOf u := by
  unfold sendAddrs
  split
  · rename_i peer addrs' phase hl
    rw [connOf_insert]
    split
    · rename_i hu
      rw [hu, Sys.connOf, hl]
      cases phase <;> rfl
    · rfl
  · rfl

private theorem Task.setPhase_conn {task : Task} {c : Conn} (phase : ConnPhase) (h : task.conn = some c) :
    (task.setPhase phase).conn = some { c with phase := phase } := by
  obtain ⟨peer, state⟩ := task
  cases state with
  | drive conn =>
    cases h
    rfl
  | dial addrs dphase =>
    cases dphase with
    | driving conn =>
      cases h
      rfl
    | top | dialing | resting => cases h

private theorem Task.afterConn_conn {task task' : Task} (h : task.afterConn = some task') : task'.conn = none := by
  unfold Task.afterConn at h
  split at h
  · cases h
  · cases h
    rfl

private theorem peer_insert {tasks : AList (fun _ : Nat => Task)} {t : Nat} {task task' : Task}
    (ht : tasks.lookup t = some task) (hp : task'.peer = task.peer) (u : Nat) (task'' : Task)
    (hu : (tasks.insert t task').lookup u = some task'') :
    ∃ old, tasks.lookup u = some old ∧ old.peer = task''.peer := by
  rcases lookup_insert_eq_some.1 hu with ⟨rfl, rfl⟩ | ⟨-, hu⟩
  · exact ⟨task, ht, hp.symm⟩
  · exact ⟨task'', hu, rfl⟩

private theorem peer_sendAddrs {tasks : AList (fun _ : Nat => Task)} {t : Nat} {addrs : List SocketAddr} (u : Nat)
    (task : Task) (hu : (sendAddrs tasks t addrs).lookup u = some task) :
    ∃ old, tasks.lookup u = some old ∧ old.peer = task.peer := by
  unfold sendAddrs at hu
  split at hu
  · rename_i peer addrs' phase hl
    have hp : (⟨peer, .dial addrs phase⟩ : Task).peer = (⟨peer, .dial addrs' phase⟩ : Task).peer := rfl
    exact peer_insert hl hp u task hu
  · exact ⟨task, hu, rfl⟩

private theorem peer_erase {tasks : AList (fun _ : Nat => Task)} {t : Nat} (u : Nat) (task : Task)
    (hu : (tasks.erase t).lookup u = some task) : ∃ old, tasks.lookup u = some old ∧ old.peer = task.peer := by
  obtain ⟨-, hu⟩ := lookup_erase_eq_some.1 hu
  exact ⟨task, hu, rfl⟩

/-- A step of task `t`: the other tasks do not notice, so only the balance of `t` has to be shown. -/
private theorem Truthful.ofTask {t : Nat} {task : Task} {extra : List Internal} (h : Truthful s)
    (href : Referenced ownId s) (ht : s.tasks.lookup t = some task) (hpeers : s'.peers = s.peers)
    (hbus : s'.bus = s.bus) (hevents : s'.events = s.events) (haborted : s'.aborted = s.aborted)
    (hnext : s'.nextTask = s.nextTask) (hqueue : s'.queue = s.queue ++ extra)
    (hextra : ∀ m ∈ extra, m.sender = some t ∧ m.peer = some task.peer)
    (htasks : ∀ u task', s'.tasks.lookup u = some task' → ∃ old, s.tasks.lookup u = some old ∧ old.peer = task'.peer)
    (hother : ∀ u, u ≠ t → s'.connOf u = s.connOf u)
    (hown : t ∉ s.aborted → (∀ b, settled s.queue t b = up s t → settled s'.queue t b = up s' t) ∧
      (Awaiting s t → Awaiting s' t)) : Truthful s' := by
  refine h.keep (fun q => by rw [hpeers]) hbus hevents haborted hnext htasks (fun m hm u hs => ?_)
    (fun q entry u hl hu => ?_)
  · rw [hqueue] at hm
    rcases List.mem_append.1 hm with hm | hm
    · exact Or.inl hm
    · obtain ⟨hsender, hpeer⟩ := hextra m hm
      rw [hsender] at hs
      cases hs
      exact Or.inr ⟨task, ht, href.fresh t task ht, hpeer⟩
  · by_cases hut : u = t
    · subst hut
      exact hown (h.wired.tasks q entry u hl hu).1
    · constructor
      · intro b hb
        rw [hqueue, settled_append_of_sender, hb, up, up, hother u hut]
        intro m hm hs
        rw [(hextra m hm).1] at hs
        exact hut (Option.some.inj hs).symm
      · intro haw
        rcases haw with ⟨c, hc, hph⟩ | ⟨p, name, caps, addr, out, hm⟩
        · exact Or.inl ⟨c, by rw [hother u hut]; exact hc, hph⟩
        · exact Or.inr ⟨p, name, caps, addr, out, by rw [hqueue]; exact List.mem_append_left _ hm⟩

/-- A task that is not starting a connection has its `ConnUp` on the queue, if it is awaited at all. -/
private theorem Awaiting.snoc {t : Nat} {extra : List Internal} (haw : Awaiting s t)
    (hnot : ∀ c, s.connOf t = some c → c.phase ≠ .starting) (hqueue : s'.queue = s.queue ++ extra) :
    Awaiting s' t := by
  rcases haw with ⟨c, hc, hph⟩ | ⟨p, name, caps, addr, out, hm⟩
  · exact absurd hph (hnot c hc)
  · exact Or.inr ⟨p, name, caps, addr, out, by rw [hqueue]; exact List.mem_append_left _ hm⟩

private theorem truthful_taskStep {t : Nat} {task : Task} (h : Truthful s) (href : Referenced own.deviceId s)
    (ht : s.tasks.lookup t = some task) (hs : taskStep own s t task e = some s') : Truthful s' := by
  have hconn : s.connOf t = task.conn := by rw [Sys.connOf, ht]; rfl
  have hphase : ∀ {c}, task.conn = some c → c.phase ≠ .starting →
      ∀ c', s.connOf t = some c' → c'.phase ≠ .starting := by
    intro c hc hph c' hc'
    rw [hconn, hc] at hc'
    cases hc'
    exact hph
  rcases taskStep_cases hs with ⟨c, hc, hph, rfl⟩ | ⟨c, r, hc, hph, rfl⟩ | ⟨c, r, task', hc, hph, haft, rfl⟩ |
    ⟨c, r, hc, hph, haft, rfl⟩ | ⟨addrs, phase, phase', n, -, hc, hstart, -, -, rfl⟩ | rfl | ⟨hab, rfl⟩
  · -- `ConnUp` is queued: the connection is up, and the entry will say so
    refine h.ofTask href ht rfl rfl rfl rfl rfl rfl (by simp [Internal.sender, Internal.peer])
      (peer_insert ht (by unfold Task.setPhase; split <;> rfl))
      (fun u hu => (connOf_insert s t u _).trans (if_neg hu)) (fun _ => ⟨fun b _ => ?_, fun _ => ?_⟩)
    · rw [settled_snoc, up]
      have hup := (connOf_insert s t t (task.setPhase .running)).trans (if_pos rfl)
      rw [Sys.connOf, hup, Task.setPhase_conn _ hc]
      simp [announce]
    · exact Or.inr ⟨_, _, _, _, _, List.mem_append_right _ (List.mem_singleton_self _)⟩
  · -- `run` returns: the connection stays announced
    refine h.ofTask href ht rfl rfl rfl rfl rfl (List.append_nil _).symm (by simp)
      (peer_insert ht (by unfold Task.setPhase; split <;> rfl))
      (fun u hu => (connOf_insert s t u _).trans (if_neg hu)) (fun _ => ⟨fun b hb => ?_, fun haw => ?_⟩)
    · have hup := (connOf_insert s t t (task.setPhase (.ending r))).trans (if_pos rfl)
      have hbefore : up s t = true := by rw [up, hconn, hc]; simp [hph]
      rw [hb, hbefore, up, Sys.connOf, hup, Task.setPhase_conn _ hc]
      simp
    · exact haw.snoc (hphase hc (by rw [hph]; simp)) (List.append_nil _).symm
  · -- `ConnDown` is queued by a dial loop
    refine h.ofTask href ht rfl rfl rfl rfl rfl rfl (by simp [Internal.sender, Internal.peer])
      (peer_insert ht (by unfold Task.afterConn at haft; split at haft <;> cases haft; rfl))
      (fun u hu => (connOf_insert s t u _).trans (if_neg hu)) (fun _ => ⟨fun b _ => ?_, fun haw => ?_⟩)
    · have hup := (connOf_insert s t t task').trans (if_pos rfl)
      rw [settled_snoc, up, Sys.connOf, hup, Task.afterConn_conn haft]
      simp [announce]
    · exact haw.snoc (hphase hc (by rw [hph]; simp)) rfl
  · -- `ConnDown` is queued by an acceptor's task, which ends
    refine h.ofTask href ht rfl rfl rfl rfl rfl rfl (by simp [Internal.sender, Internal.peer]) peer_erase
      (fun u hu => (connOf_erase s t u).trans (if_neg hu)) (fun _ => ⟨fun b _ => ?_, fun haw => ?_⟩)
    · have hup := (connOf_erase s t t).trans (if_pos rfl)
      rw [settled_snoc, up, Sys.connOf, hup]
      simp [announce]
    · exact haw.snoc (hphase hc (by rw [hph]; simp)) rfl
  · -- a dial loop goes on; a connection it starts is not announced yet
    refine h.ofTask href ht rfl rfl rfl rfl rfl (List.append_nil _).symm (by simp) (peer_insert ht rfl)
      (fun u hu => (connOf_insert s t u _).trans (if_neg hu)) (fun _ => ⟨fun b hb => ?_, fun haw => ?_⟩)
    · have hup := (connOf_insert s t t ⟨task.peer, .dial addrs phase'⟩).trans (if_pos rfl)
      have hbefore : up s t = false := by rw [up, hconn, hc]; rfl
      rw [hb, hbefore, up, Sys.connOf, hup]
      cases htc : Task.conn ⟨task.peer, .dial addrs phase'⟩ with
      | none => rfl
      | some c => simp [hstart c htc]
    · refine haw.snoc (fun c' hc' => ?_) (List.append_nil _).symm
      rw [hconn, hc] at hc'
      cases hc'
  · exact h
  · -- no entry refers to an aborted task
    exact h.ofTask href ht rfl rfl rfl rfl rfl (List.append_nil _).symm (by simp) peer_erase
      (fun u hu => (connOf_erase s t u).trans (if_neg hu)) (fun hab' => absurd hab hab')

/-! ### The handlers -/

variable {m : Internal} {rest : List Internal}

private theorem settled_cons_ne {t : Nat} (h : m.sender ≠ some t) (b : Bool) :
    settled (m :: rest) t b = settled rest t b := by
  unfold settled
  rw [List.foldl_cons, announce_of_sender_ne h]

/-- A peer whose task did not send the message that was taken. -/
private theorem PeerOk.untouched {p : DeviceId} (h : PeerOk s p) (hq : s.queue = m :: rest)
    (hentry : s'.peers.lookup p = s.peers.lookup p) (hbus : s'.bus.lookup p = s.bus.lookup p)
    (hlast : lastConnected s'.events p = lastConnected s.events p) (hqueue : s'.queue = rest)
    (hconn : ∀ entry t, s.peers.lookup p = some entry → entry.task = some t → s'.connOf t = s.connOf t)
    (hne : ∀ entry t, s.peers.lookup p = some entry → entry.task = some t → m.sender ≠ some t) : PeerOk s' p := by
  refine h.frame (by rw [hentry]) (by rw [hbus]) hlast (fun entry t hl ht => ⟨fun b hb => ?_, fun haw => ?_⟩)
  · rw [hqueue, up, hconn entry t hl ht, ← settled_cons_ne (hne entry t hl ht), ← hq, hb]
    rfl
  · rcases haw with ⟨c, hc, hph⟩ | ⟨q, name, caps, addr, out, hm⟩
    · exact Or.inl ⟨c, by rw [hconn entry t hl ht]; exact hc, hph⟩
    · refine Or.inr ⟨q, name, caps, addr, out, ?_⟩
      rw [hq] at hm
      rw [hqueue]
      rcases List.mem_cons.1 hm with rfl | hm
      · exact absurd rfl (hne entry t hl ht)
      · exact hm

/-- The sender of an announcement about `p` is not the task of another peer. -/
private theorem Wired.sender_ne (h : Wired s) {p q : DeviceId} (hm : m ∈ s.queue) (hp : m.peer = some p)
    (hqp : q ≠ p) (entry : PeerEntry) (t : Nat) (hl : s.peers.lookup q = some entry) (ht : entry.task = some t) :
    m.sender ≠ some t := by
  intro hs
  have := (h.senders m hm t hs).2 q entry hl ht
  rw [hp] at this
  exact hqp (Option.some.inj this).symm

private theorem truthful_onConnUp {p : DeviceId} {name : String} {caps : Caps} {addr : Option SocketAddr}
    {out t : Nat} {entry : PeerEntry} (h : Truthful s) (hq : s.queue = .connUp p name caps addr out t :: rest)
    (hl : s.peers.lookup p = some entry) (ht : entry.task = some t) :
    Truthful (onConnUp { s with queue := rest } p name caps addr out) := by
  have hpeers : (onConnUp { s with queue := rest } p name caps addr out).peers =
      s.peers.insert p { entry with connected := true, deviceName := name } := by
    simp only [onConnUp, hl]
  constructor
  · refine h.wired.inherit (fun q entry' u hq' hu => ?_) (fun u task hu => ⟨task, hu, rfl⟩) (fun u hu => Or.inl hu) rfl
      (fun m hm u _ => Or.inl (by rw [hq]; exact List.mem_cons_of_mem _ hm))
    rw [hpeers] at hq'
    rcases lookup_insert_eq_some.1 hq' with ⟨rfl, rfl⟩ | ⟨-, hq'⟩
    · exact ⟨entry, hl, hu⟩
    · exact ⟨entry', hq', hu⟩
  · intro q
    by_cases hqp : q = p
    · subst hqp
      have hok := h.peer q
      unfold PeerOk at hok ⊢
      rw [hl] at hok
      rw [hpeers, AList.lookup_insert]
      obtain ⟨-, -, -, -, h5⟩ := hok
      have hbus : ((onConnUp { s with queue := rest } q name caps addr out).bus.lookup q).isSome = true := by
        simp only [onConnUp, AList.lookup_insert]
        rfl
      refine ⟨?_, fun _ => hbus, fun _ => Or.inl rfl, fun hnone => ?_, fun u hu => ?_⟩
      · simp only [onConnUp]
        rw [lastConnected_snoc]
        simp [TransportEvent.deviceId, TransportEvent.isConnected]
      · rw [ht] at hnone
        cases hnone
      · have hu : entry.task = some u := hu
        rw [ht] at hu
        cases hu
        have hset : settled rest t true = up s t := by simpa [settled, announce, hq] using h5 t ht
        exact hset
    · refine (h.peer q).untouched hq (by rw [hpeers, AList.lookup_insert_ne hqp]) ?_ ?_ rfl (fun _ _ _ _ => rfl)
        (h.wired.sender_ne (by rw [hq]; exact List.mem_cons_self ..) rfl hqp)
      · exact AList.lookup_insert_ne hqp
      · simp only [onConnUp]
        rw [lastConnected_snoc, if_neg (fun he => hqp he.symm)]

private theorem truthful_onConnDown {p : DeviceId} {r : DisconnectReason} {t : Nat} (h : Truthful s)
    (hq : s.queue = .connDown p r t :: rest)
    (htimely : ∀ entry, s.peers.lookup p = some entry → entry.task = none ∨ entry.task = some t) :
    Truthful (onConnDown { s with queue := rest } p r) := by
  have hother : ∀ q, q ≠ p → (onConnDown { s with queue := rest } p r).peers.lookup q = s.peers.lookup q := by
    intro q hqp
    simp only [onConnDown]
    split
    · exact AList.lookup_insert_ne hqp
    · rfl
  constructor
  · refine h.wired.inherit (fun q entry' u hq' hu => ?_) (fun u task hu => ⟨task, hu, rfl⟩) (fun u hu => Or.inl hu) rfl
      (fun m hm u _ => Or.inl (by rw [hq]; exact List.mem_cons_of_mem _ hm))
    by_cases hqp : q = p
    · subst hqp
      simp only [onConnDown] at hq'
      split at hq'
      · rename_i entry hl
        rw [AList.lookup_insert] at hq'
        cases hq'
        dsimp only at hu
        split at hu
        · cases hu
        · exact ⟨entry, hl, hu⟩
      · exact ⟨entry', hq', hu⟩
    · rw [hother q hqp] at hq'
      exact ⟨entry', hq', hu⟩
  · intro q
    have hlast : lastConnected (onConnDown { s with queue := rest } p r).events q =
        if p = q then false else lastConnected s.events q := lastConnected_snoc _ _ q
    by_cases hqp : q = p
    · subst hqp
      rw [if_pos rfl] at hlast
      have hbus : (onConnDown { s with queue := rest } q r).bus.lookup q = none := AList.lookup_erase ..
      have hok := h.peer q
      unfold PeerOk at hok ⊢
      cases hl : s.peers.lookup q with
      | none =>
        have hnone : (onConnDown { s with queue := rest } q r).peers.lookup q = none := by
          simp only [onConnDown, hl]
        rw [hnone]
        exact ⟨hbus, hlast⟩
      | some entry =>
        have hsome : (onConnDown { s with queue := rest } q r).peers.lookup q = some { entry with
            connected := false
            task := if entry.role = .acceptor then none else entry.task } := by
          simp only [onConnDown, hl, AList.lookup_insert]
        rw [hl] at hok
        rw [hsome]
        refine ⟨hlast, (fun hc => by cases hc), fun hb => ?_, fun _ => rfl, fun u hu => ?_⟩
        · rw [hbus] at hb
          cases hb
        · dsimp only at hu
          split at hu
          · cases hu
          · -- a dial loop keeps its handle; the `ConnDown` was its own
            rcases htimely entry hl with hnone | hown
            · rw [hnone] at hu
              cases hu
            · rw [hown] at hu
              cases hu
              have hset : settled rest t false = up s t := by
                simpa [settled, announce, hq] using hok.2.2.2.2 t hown
              exact hset
    · refine (h.peer q).untouched hq (hother q hqp) ?_ ?_ rfl (fun _ _ _ _ => rfl)
        (h.wired.sender_ne (by rw [hq]; exact List.mem_cons_self ..) rfl hqp)
      · exact AList.lookup_erase_ne hqp
      · rw [hlast, if_neg (fun he => hqp he.symm)]

/-- A new task has sent nothing yet. -/
private theorem Wired.settled_nextTask (h : Wired s) (b : Bool) : settled s.queue s.nextTask b = b := by
  apply settled_of_sender_ne
  intro m hm hs
  exact (h.senders m hm _ hs).1.ne rfl

/-- A peer whose task is not the one just spawned. -/
private theorem PeerOk.spawned {p : DeviceId} {task : Task} (h : PeerOk s p) (hw : Wired s)
    (hentry : s'.peers.lookup p = s.peers.lookup p) (hbus : s'.bus = s.bus)
    (hlast : lastConnected s'.events p = lastConnected s.events p) (hqueue : s'.queue = s.queue)
    (htasks : s'.tasks = s.tasks.insert s.nextTask task) : PeerOk s' p := by
  refine h.frame (by rw [hentry]) (by rw [hbus]) hlast (fun entry t hl ht => ?_)
  have hconn : s'.connOf t = s.connOf t := by
    rw [Sys.connOf, htasks, connOf_insert, if_neg (hw.tasks p entry t hl ht).2.1.ne]
  refine ⟨fun b hb => by rw [hqueue, hb, up, up, hconn], fun haw => ?_⟩
  rcases haw with ⟨c, hc, hph⟩ | haw
  · exact Or.inl ⟨c, by rw [hconn]; exact hc, hph⟩
  · rw [← hqueue] at haw
    exact Or.inr haw

/-- The old connection, if there was one, is announced as replaced. -/
private theorem PeerOk.replaced {p : DeviceId} {entry : PeerEntry} (hok : PeerOk s p)
    (hentry : entry = (s.peers.lookup p).getD (PeerEntry.new .acceptor)) :
    (entry.connected && !(entry.task.isSome && entry.connected)) = false ∧
      lastConnected (if entry.task.isSome && entry.connected then
        s.events ++ [.peerDisconnected p "replaced by a newer inbound connection"] else s.events) p = false := by
  unfold PeerOk at hok
  cases hl : s.peers.lookup p with
  | none =>
    rw [hl] at hok hentry
    subst hentry
    exact ⟨rfl, hok.2⟩
  | some old =>
    rw [hl] at hok hentry
    obtain rfl : entry = old := hentry
    obtain ⟨hevent, -, -, hnone, -⟩ := hok
    cases hc : entry.connected with
    | false =>
      rw [hc] at hevent
      simpa using hevent
    | true =>
      cases ht : entry.task with
      | none =>
        rw [hnone ht] at hc
        cases hc
      | some t => simp [lastConnected_snoc, TransportEvent.deviceId, TransportEvent.isConnected]

private theorem truthful_onInboundReady (h : Truthful s) (peer : Hello) (caps : Caps) :
    Truthful (onInboundReady ownId s peer caps) := by
  unfold onInboundReady
  cases hrole : roleFor ownId peer.deviceId with
  | dialer => exact h
  | acceptor =>
    constructor
    · refine h.wired.spawn (p := peer.deviceId) rfl rfl rfl rfl rfl rfl (fun t ht => ?_)
      rcases List.mem_append.1 ht with ht | ht
      · rw [Option.mem_toList] at ht
        cases hl : s.peers.lookup peer.deviceId with
        | none =>
          rw [hl] at ht
          cases ht
        | some old =>
          rw [hl] at ht
          exact Or.inr ⟨old, rfl, ht⟩
      · exact Or.inl ht
    · intro q
      by_cases hqp : q = peer.deviceId
      · subst hqp
        obtain ⟨hconn, hlast⟩ := (h.peer peer.deviceId).replaced rfl
        unfold PeerOk
        dsimp only
        rw [AList.lookup_insert]
        dsimp only
        rw [hconn, hlast]
        refine ⟨rfl, (fun hc => by cases hc), fun _ => Or.inr ⟨_, rfl, Or.inl ?_⟩, fun _ => rfl, fun t ht => ?_⟩
        · exact ⟨_, (connOf_insert s s.nextTask s.nextTask _).trans (if_pos rfl), rfl⟩
        · cases ht
          rw [h.wired.settled_nextTask, up, Sys.connOf]
          dsimp only
          rw [connOf_insert, if_pos rfl]
          rfl
      · refine (h.peer q).spawned h.wired (AList.lookup_insert_ne hqp) rfl ?_ rfl rfl
        dsimp only
        split
        · rw [lastConnected_snoc, if_neg (fun he => hqp he.symm)]
        · rfl

private theorem truthful_dropPeer (h : Truthful s) (id : DeviceId) : Truthful (dropPeer s id) := by
  unfold dropPeer
  cases hl : s.peers.lookup id with
  | none =>
    refine ⟨⟨h.wired.tasks, h.wired.apart, h.wired.aborted, h.wired.senders⟩, fun q => ?_⟩
    by_cases hqp : q = id
    · subst hqp
      have hok := h.peer q
      unfold PeerOk at hok ⊢
      rw [hl] at hok
      dsimp only
      rw [hl]
      exact ⟨AList.lookup_erase .., hok.2⟩
    · exact (h.peer q).frame rfl (by dsimp only; rw [AList.lookup_erase_ne hqp]) rfl
        (fun entry t _ _ => ⟨fun b hb => hb, fun haw => haw⟩)
  | some entry =>
    have herase : ∀ q e, (s.peers.erase id).lookup q = some e → q ≠ id ∧ s.peers.lookup q = some e := by
      intro q e hq
      obtain ⟨hqp, hq⟩ := lookup_erase_eq_some.1 hq
      exact ⟨hqp, hq⟩
    constructor
    · refine h.wired.inherit (fun q e t hq ht => ⟨e, (herase q e hq).2, ht⟩) (fun t task ht => ⟨task, ht, rfl⟩)
        (fun t ht => ?_) rfl (fun m hm t _ => Or.inl hm)
      rcases List.mem_append.1 ht with ht | ht
      · rw [Option.mem_toList] at ht
        refine Or.inr ⟨(h.wired.tasks id entry t hl ht).2.1, fun q e hq het => ?_⟩
        obtain ⟨hqp, hq⟩ := herase q e hq
        exact hqp (h.wired.apart q id e entry t hq hl het ht)
      · exact Or.inl ht
    · intro q
      have hlast : lastConnected (if entry.connected then s.events ++ [.peerDisconnected id "peer unpaired"]
          else s.events) q = if id = q then (lastConnected s.events q && !entry.connected) else
          lastConnected s.events q := by
        cases hc : entry.connected with
        | true =>
          rw [if_pos rfl, lastConnected_snoc, Bool.not_true, Bool.and_false]
          rfl
        | false => simp
      by_cases hqp : q = id
      · subst hqp
        have hok := h.peer q
        unfold PeerOk at hok ⊢
        rw [hl] at hok
        dsimp only
        rw [AList.lookup_erase]
        refine ⟨AList.lookup_erase .., ?_⟩
        rw [hlast, if_pos rfl, hok.1]
        cases entry.connected <;> rfl
      · refine (h.peer q).frame (by dsimp only; rw [AList.lookup_erase_ne hqp])
          (by dsimp only; rw [AList.lookup_erase_ne hqp]) ?_ (fun entry t _ _ => ⟨fun b hb => hb, fun haw => haw⟩)
        rw [hlast, if_neg (fun he => hqp he.symm)]

private theorem truthful_sweep (h : Truthful s) (ids : List DeviceId) : Truthful (ids.foldl dropPeer s) := by
  induction ids generalizing s with
  | nil => exact h
  | cons id ids ih => exact ih (truthful_dropPeer h id)

/-- A peer seen for the first time is not online. -/
private theorem PeerOk.new {p : DeviceId} {entry : PeerEntry} (h : PeerOk s p) (hl : s.peers.lookup p = none)
    (hentry : s'.peers.lookup p = some entry) (hconn : entry.connected = false) (hbus : s'.bus = s.bus)
    (hevents : s'.events = s.events)
    (htask : ∀ t, entry.task = some t → settled s'.queue t false = up s' t) : PeerOk s' p := by
  unfold PeerOk at h ⊢
  rw [hl] at h
  rw [hentry]
  dsimp only
  rw [hconn, hbus, hevents]
  refine ⟨h.2, (fun hc => by cases hc), fun hb => ?_, fun _ => rfl, htask⟩
  rw [h.1] at hb
  cases hb

private theorem status_insert {peers : AList (fun _ : DeviceId => PeerEntry)} {p : DeviceId} {old entry : PeerEntry}
    (hl : peers.lookup p = some old) (hst : entry.status = old.status) (q : DeviceId) :
    ((peers.insert p entry).lookup q).map PeerEntry.status = (peers.lookup q).map PeerEntry.status := by
  by_cases hq : q = p
  · subst hq
    rw [AList.lookup_insert, hl, Option.map_some, Option.map_some, hst]
  · rw [AList.lookup_insert_ne hq]

private theorem truthful_ensurePeer (h : Truthful s) (href : Referenced ownId s) (p : DiscoveredPeer) :
    Truthful (ensurePeer ownId s p) := by
  rcases ensurePeer_cases ownId s p with ⟨old, tasks, entry, hl, hw, hc, htasks, heq⟩ |
    ⟨entry, hl, -, hw, hc, heq⟩ | ⟨entry, addrs, hrole, hnew, -, htask, heq⟩
  · rw [heq]
    simp only [PeerEntry.wiring, Prod.mk.injEq] at hw
    have hst : entry.status = old.status := by rw [PeerEntry.status, PeerEntry.status, hc, hw.2.2]
    rcases htasks with rfl | ⟨t, addrs, rfl⟩
    · exact h.silent (status_insert hl hst) rfl rfl rfl rfl (fun u task hu => ⟨task, hu, rfl⟩) (fun _ => rfl)
        (fun _ _ => rfl) (fun _ _ => Iff.rfl)
    · refine h.silent (status_insert hl hst) rfl rfl rfl rfl (fun u task hu => ?_)
        (fun u => connOf_sendAddrs s t u addrs) (fun _ _ => rfl) (fun _ _ => Iff.rfl)
      exact peer_sendAddrs u task hu
  · rw [heq]
    simp only [PeerEntry.wiring, Prod.mk.injEq] at hw
    constructor
    · refine h.wired.inherit (fun q e t hq ht => ?_) (fun t task ht => ⟨task, ht, rfl⟩) (fun t ht => Or.inl ht) rfl
        (fun m hm t _ => Or.inl hm)
      rcases lookup_insert_eq_some.1 hq with ⟨rfl, rfl⟩ | ⟨-, hq⟩
      · rw [hw.2.2] at ht
        cases ht
      · exact ⟨e, hq, ht⟩
    · intro q
      by_cases hqp : q = p.deviceId
      · subst hqp
        refine (h.peer _).new hl (AList.lookup_insert _) hc rfl rfl (fun t ht => ?_)
        rw [hw.2.2] at ht
        cases ht
      · exact (h.peer q).frame (by dsimp only; rw [AList.lookup_insert_ne hqp]) rfl rfl
          (fun entry t _ _ => ⟨fun b hb => hb, fun haw => haw⟩)
  · rw [heq]
    rcases hnew with ⟨hnone, -, hc⟩ | ⟨old, hl, hold⟩
    · constructor
      · exact h.wired.spawn (p := p.deviceId) rfl htask rfl rfl rfl rfl (fun t ht => Or.inl ht)
      · intro q
        by_cases hqp : q = p.deviceId
        · subst hqp
          refine (h.peer _).new hnone (AList.lookup_insert _) hc rfl rfl (fun t ht => ?_)
          rw [htask] at ht
          cases ht
          rw [h.wired.settled_nextTask, up, Sys.connOf]
          dsimp only
          rw [connOf_insert, if_pos rfl]
          rfl
        · exact (h.peer q).spawned h.wired (AList.lookup_insert_ne hqp) rfl rfl rfl rfl
    · have := (href.role p.deviceId old hl).2 hrole
      rw [hold] at this
      cases this

/-- Taking a message that announces nothing. -/
private theorem Truthful.pop (h : Truthful s) (hq : s.queue = m :: rest) (hm : m.sender = none) :
    Truthful { s with queue := rest } := by
  refine h.silent (fun _ => rfl) rfl rfl rfl rfl (fun t task ht => ⟨task, ht, rfl⟩) (fun _ => rfl) (fun t b => ?_)
    (fun m' hm' => ?_)
  · rw [hq, settled_cons_ne (by rw [hm]; simp)]
  · rw [hq, List.mem_cons]
    exact ⟨Or.inr, fun h => h.resolve_left (by rintro rfl; exact hm' hm)⟩

/-- The step lemma: a step that processes only timely announcements keeps the three views balanced. -/
theorem truthful_step (h : Truthful s) (href : Referenced own.deviceId s) (htimely : Timely s e)
    (hs : transportStep own s e = some s') : Truthful s' := by
  rcases transportStep_cases hs with ⟨peers, rfl, rfl⟩ | ⟨_, _, _, _, extra, hextra, rfl⟩ |
    ⟨rfl, hw, m, rest, hq, rfl⟩ | ⟨rfl, hres⟩ | ⟨t, task, ht, htask⟩
  · exact h.silent (fun _ => rfl) rfl rfl rfl rfl (fun t task ht => ⟨task, ht, rfl⟩) (fun _ => rfl) (fun _ _ => rfl)
      (fun _ _ => Iff.rfl)
  · refine h.silent (fun _ => rfl) rfl rfl rfl rfl (fun t task ht => ⟨task, ht, rfl⟩) (fun _ => rfl) (fun t b => ?_)
      (fun m hm => ?_)
    · exact settled_append_of_sender (fun m hm => by rw [hextra m hm]; simp) b
    · rw [List.mem_append]
      exact ⟨fun h => h.resolve_right (fun he => hm (hextra m he)), Or.inl⟩
  · cases m with
    | discovery ev =>
      have hpop := h.pop hq rfl
      cases ev with
      | found p =>
        exact hpop.silent (fun _ => rfl) rfl rfl rfl rfl (fun t task ht => ⟨task, ht, rfl⟩) (fun _ => rfl)
          (fun _ _ => rfl) (fun _ _ => Iff.rfl)
      | lost id =>
        simp only [handleInternal, onLost]
        split
        · rename_i t _ hl
          exact hpop.silent (fun _ => rfl) rfl rfl rfl rfl (fun u task hu => peer_sendAddrs u task hu)
            (fun u => connOf_sendAddrs s t u _) (fun _ _ => rfl) (fun _ _ => Iff.rfl)
        · exact hpop.silent (fun _ => rfl) rfl rfl rfl rfl (fun t task ht => ⟨task, ht, rfl⟩) (fun _ => rfl)
            (fun _ _ => rfl) (fun _ _ => Iff.rfl)
    | rosterChanged =>
      exact (truthful_sweep (h.pop hq rfl) _).silent (fun _ => rfl) rfl rfl rfl rfl (fun t task ht => ⟨task, ht, rfl⟩)
        (fun _ => rfl) (fun _ _ => rfl) (fun _ _ => Iff.rfl)
    | inboundReady peer caps => exact truthful_onInboundReady (h.pop hq rfl) peer caps
    | connUp p name caps addr out t =>
      obtain ⟨entry, hl, ht⟩ := (htimely rfl).1 p name caps addr out t rest hq
      exact truthful_onConnUp h hq hl ht
    | connDown p r t => exact truthful_onConnDown h hq (fun entry hl => (htimely rfl).2 p r t rest entry hq hl)
  · have hkeep : ∀ (s : Sys) work, Truthful s → Truthful { s with work := work } := fun s work h =>
      h.silent (fun _ => rfl) rfl rfl rfl rfl (fun t task ht => ⟨task, ht, rfl⟩) (fun _ => rfl) (fun _ _ => rfl)
        (fun _ _ => Iff.rfl)
    rcases resumeWork_cases hres with ⟨work, -, -, rfl⟩ | ⟨p, rest, -, rfl⟩
    · exact hkeep _ _ h
    · exact hkeep _ _ (truthful_ensurePeer h href _)
  · exact truthful_taskStep h href ht htask

end Steps

theorem truthful_start (roster : RosterInner) : Truthful (Sys.start roster) where
  wired := ⟨fun p entry t h => (by cases h), fun p q entry entry' t h => (by cases h), fun t h => (by cases h),
    fun m h => (by cases h)⟩
  peer p := ⟨rfl, rfl⟩

/-! ### Agreement at quiescence -/

/-- When every announcement has been processed, the entry of a live connection says so, and only then. -/
private theorem connected_iff_live {ownId : DeviceId} {s : Sys} (h : Truthful s) (href : Referenced ownId s)
    (hq : Quiet s) (p : DeviceId) :
    (∃ t, Live s p t) ↔ ∃ entry, s.peers.lookup p = some entry ∧ entry.connected = true := by
  constructor
  · rintro ⟨t, task, ht, rfl, hconn, hab⟩
    obtain ⟨entry, hl, het⟩ := href.entry t task ht hab
    obtain ⟨c, hc⟩ := Option.isSome_iff_exists.1 hconn
    have hc' : s.connOf t = some c := by rw [Sys.connOf, ht]; exact hc
    have hok := h.peer task.peer
    unfold PeerOk at hok
    rw [hl] at hok
    have hset := hok.2.2.2.2 t het
    rw [hq.1, up, hc', Option.any_some, hq.2 t c hc'] at hset
    exact ⟨entry, hl, hset⟩
  · rintro ⟨entry, hl, hconn⟩
    have hok := h.peer p
    unfold PeerOk at hok
    rw [hl] at hok
    cases het : entry.task with
    | none =>
      rw [hok.2.2.2.1 het] at hconn
      cases hconn
    | some t =>
      have hset := hok.2.2.2.2 t het
      rw [hq.1] at hset
      obtain ⟨hab, -, hpeer⟩ := h.wired.tasks p entry t hl het
      have hup : up s t = true := by rw [← hset]; exact hconn
      cases ht : s.tasks.lookup t with
      | none => simp [up, Sys.connOf, ht] at hup
      | some task =>
        refine ⟨t, task, ht, hpeer task ht, ?_, hab⟩
        cases hc : task.conn with
        | none => simp [up, Sys.connOf, ht, hc] at hup
        | some c => rfl

/-- In every run whose announcements are processed while their task is the one the peer's entry refers to, in every
state where all announcements have been processed: a peer is on the bus exactly when a connection of it is running,
exactly when its last event is `PeerConnected`, and exactly when `state.json` lists it as online. -/
theorem online_view_truthful (own : Hello) (roster : RosterInner) (es : List TEvent) (s : Sys)
    (hr : Run (transportStep own) Timely (Sys.start roster) es s) (hq : Quiet s) (p : DeviceId) :
    ((s.bus.lookup p).isSome = true ↔ ∃ t, Live s p t) ∧
    ((∃ t, Live s p t) ↔ lastConnected s.events p = true) ∧
    (lastConnected s.events p = true ↔ p ∈ publishEvents s.events) := by
  obtain ⟨href, h⟩ : Referenced own.deviceId s ∧ Truthful s := by
    refine hr.invariant (I := fun s => Referenced own.deviceId s ∧ Truthful s)
      ⟨referenced_start own.deviceId roster, truthful_start roster⟩ ?_
    rintro s e t ⟨href, h⟩ hok hs
    exact ⟨referenced_step href (downTimely_of_timely hok) hs, truthful_step h href hok hs⟩
  have hlive := connected_iff_live h href hq p
  have hok := h.peer p
  unfold PeerOk at hok
  refine ⟨?_, ?_, (mem_publishEvents s.events p).symm⟩
  · rw [hlive]
    cases hl : s.peers.lookup p with
    | none =>
      rw [hl] at hok
      simp [hok.1]
    | some entry =>
      rw [hl] at hok
      obtain ⟨-, h2, h3, -, -⟩ := hok
      constructor
      · intro hb
        rcases h3 hb with hc | ⟨t, -, ⟨c, hc, hph⟩ | ⟨_, _, _, _, _, hm⟩⟩
        · exact ⟨entry, rfl, hc⟩
        · rw [hq.2 t c hc] at hph
          cases hph
        · rw [hq.1] at hm
          cases hm
      · rintro ⟨entry', he, hc⟩
        cases he
        exact h2 hc
  · rw [hlive]
    cases hl : s.peers.lookup p with
    | none =>
      rw [hl] at hok
      simp [hok.2]
    | some entry =>
      rw [hl] at hok
      simp [hok.1]

/-! ### A `ConnUp` after its task was dropped -/

private def allRunning (s : Sys) : Bool := s.tasks.keys.all (fun t => (s.connOf t).all (fun c => c.phase == .running))

private theorem quiet_of_allRunning {s : Sys} (hq : s.queue = []) (h : allRunning s = true) : Quiet s := by
  refine ⟨hq, fun t c hc => ?_⟩
  obtain ⟨task, htask, -⟩ := Option.bind_eq_some_iff.1 hc
  have hmem : t ∈ s.tasks.keys := AList.mem_keys.1 (AList.lookup_isSome.1 (Option.isSome_iff_exists.2 ⟨task, htask⟩))
  have hall := List.all_eq_true.1 h t hmem
  rw [hc] at hall
  simpa using hall

/-- `a` is unpaired while its `ConnUp` is queued: the sweep drops its entry and aborts its task, and `ConnUp` puts it
back on the bus. -/
private def upAfterSweep : List TEvent :=
  [.resume, .resume] ++ inboundFromA 1 ++ [.reload [], .watch, .forward, .process, .announceUp 0, .process, .resume,
    .resume, .cancel 0, .process]

theorem dropped_peer_stays_online :
    ¬ ∀ (own : Hello) (roster : RosterInner) (es : List TEvent) (s : Sys),
      Run (transportStep own) Always (Sys.start roster) es s → Quiet s → ∀ p,
      ((s.bus.lookup p).isSome = true ↔ ∃ t, Live s p t) ∧
      ((∃ t, Live s p t) ↔ lastConnected s.events p = true) ∧
      (lastConnected s.events p = true ↔ p ∈ publishEvents s.events) := by
  intro h
  obtain ⟨s, hrun, hview⟩ := run_of_exec_view (transportStep (helloOf "b")) (fun _ => True) (Sys.start pairedWithA)
    upAfterSweep (fun s => (s.queue, s.tasks.keys, allRunning s, (s.bus.lookup "a").isSome)) ([], [], true, true)
    (fun _ _ => trivial) (by decide)
  simp only [Prod.mk.injEq] at hview
  obtain ⟨hq, hkeys, hrunning, hbus⟩ := hview
  obtain ⟨t, task, htask, -⟩ := (h _ _ _ s hrun (quiet_of_allRunning hq hrunning) "a").1.1 hbus
  have hmem : t ∈ s.tasks.keys := AList.mem_keys.1 (AList.lookup_isSome.1 (Option.isSome_iff_exists.2 ⟨task, htask⟩))
  rw [hkeys] at hmem
  cases hmem

/-- The next announcement comes from the task its peer's entry refers to. -/
private def upInTime (s : Sys) : Bool :=
  match s.queue with
  | .connUp p _ _ _ _ t :: _ => (s.peers.lookup p).any (fun entry => entry.task == some t)
  | .connDown p _ t :: _ => (s.peers.lookup p).all (fun entry => entry.task == none || entry.task == some t)
  | _ => true

private theorem timely_of_upInTime (s : Sys) (e : TEvent) (h : upInTime s = true) : Timely s e := by
  intro _
  constructor
  · intro p name caps addr out t rest hq
    simpa [upInTime, hq, Option.any_eq_true] using h
  · intro p r t rest entry hq hl
    simpa [upInTime, hq, hl] using h

/-- `a` connects twice; the first connection is replaced, and the second announced. -/
private def upTwice : List TEvent :=
  [.resume, .resume] ++ inboundFromA 1 ++ [.process, .announceUp 0, .process] ++ inboundFromA 2 ++
    [.process, .cancel 0, .announceUp 1, .process]

theorem online_view_truthful_replaced :
    ∃ s, Run (transportStep (helloOf "b")) Timely (Sys.start pairedWithA) upTwice s ∧ Quiet s ∧
      (∃ t, Live s "a" t) ∧ "a" ∈ publishEvents s.events := by
  obtain ⟨s, hrun, hview⟩ := run_of_exec_checked (transportStep (helloOf "b")) (fun s _ => upInTime s = true)
    (Sys.start pairedWithA) upTwice (fun s => (s.queue, allRunning s, (s.bus.lookup "a").isSome))
    ([], true, true) (by decide)
  simp only [Prod.mk.injEq] at hview
  obtain ⟨hq, hrunning, hbus⟩ := hview
  have hrun : Run (transportStep (helloOf "b")) Timely (Sys.start pairedWithA) upTwice s :=
    hrun.mono timely_of_upInTime
  have hquiet := quiet_of_allRunning hq hrunning
  obtain ⟨hlive, hlast, hstate⟩ := online_view_truthful _ _ _ s hrun hquiet "a"
  exact ⟨s, hrun, hquiet, hlive.1 hbus, hstate.1 (hlast.1 (hlive.1 hbus))⟩

end Qdrop
