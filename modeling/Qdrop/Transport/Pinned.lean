import Qdrop.Transport.Live

/-!
# Who is dialed, and with which key

The dialer's TLS (`qdrop-core/src/tls.rs`, `qdropd/src/secure.rs`) around the connection manager: a dial loop reads the
key to expect at the top of each iteration and completes a TLS handshake only with a server that proves it has that
key.  `Sessions` records the passes of the dial loops and the key of every connection.  `only_pinned_dialed` is about
any interleaving of the manager, the dial loops, discovery and the reloads of the roster.
-/

namespace Qdrop

open Lib

/-! ### TLS on the dialer's side -/

/-- What the server presents: the key in its certificate, as `peer_key_from_cert` finds it, and whether its signature
verifies under that key. -/
structure ServerCert where
  key : Except String Key
  signed : Bool

inductive CertError where
  | applicationVerificationFailure
  | badEncoding
deriving DecidableEq

/-- `PinnedServer::verify_server_cert`. -/
def verifyServerCert (expect : Key) (cert : ServerCert) : Except CertError Unit :=
  match cert.key with
  | .ok key => if ctEq key expect then .ok () else .error .applicationVerificationFailure
  | .error _ => .error .badEncoding

/-- `secure::connect`: the handshake completes only if the verifier accepts and the signature verifies; the key is the
one the server proved to have. -/
def secureConnect (expect : Key) (cert : ServerCert) : Option Key :=
  match verifyServerCert expect cert, cert.key with
  | .ok (), .ok key => if cert.signed then some key else none
  | _, _ => none

theorem secureConnect_eq_some {expect key : Key} {cert : ServerCert} (h : secureConnect expect cert = some key) :
    key = expect := by
  unfold secureConnect verifyServerCert at h
  cases hk : cert.key with
  | error err => simp [hk] at h
  | ok key' =>
    rw [hk] at h
    dsimp only at h
    split at h
    · rename_i heq hsome
      cases hsome
      split at h
      · cases h
        split at heq
        · rename_i hct
          exact ctEq_iff.1 hct
        · cases heq
      · cases h
    · cases h

/-! ### Passes and sessions -/

/-- One iteration of a dial loop that goes on to `dial_once`. -/
structure Pass where
  peer : DeviceId
  expect : Key
  /-- The roster at the beginning of the iteration. -/
  roster : RosterInner

/-- The session under a connection. -/
structure PeerLink where
  /-- The key the peer proved to have. -/
  key : Key
  /-- The key the dialer pinned. -/
  expect : Option Key
  /-- The `device_id` of the peer's `Hello`. -/
  helloId : DeviceId
deriving DecidableEq

structure Sessions where
  sys : Sys
  passes : List Pass
  /-- How many `InboundReady` the manager has taken. -/
  taken : Nat
  /-- The sessions of the connections. -/
  links : AList (fun _ : Nat => PeerLink)
  /-- The `ConnUp` of the dial loops: the peer, and the session. -/
  ups : List (DeviceId × PeerLink)

def Sessions.start (roster : RosterInner) : Sessions := ⟨Sys.start roster, [], 0, ∅, []⟩

inductive SessionEvent where
  /-- TCP connects to an address of the pass, and the server presents `cert` and sends `first`. -/
  | connect (t : Nat) (addr : SocketAddr) (cert : ServerCert) (first : Option (Except String Message))
  | other (e : TEvent)

/-- The key a dial loop expects in its pass. -/
def Task.expecting : Task → Option Key
  | ⟨_, .dial _ (.dialing expect _)⟩ => some expect
  | _ => none

/-- The pass a dial loop has just begun. -/
def Sessions.newPass (k : Sessions) (sys : Sys) (t : Nat) : List Pass :=
  match sys.tasks.lookup t with
  | some task => (task.expecting.map fun expect => ⟨task.peer, expect, k.sys.roster⟩).toList
  | none => []

/-- The `ConnUp` a dial loop sends. -/
def Sessions.newUp (k : Sessions) (t : Nat) : List (DeviceId × PeerLink) :=
  match k.sys.tasks.lookup t with
  | some task =>
    if task.isDial then
      ((task.conn.bind fun c => k.links.lookup c.id).map fun link => (task.peer, link)).toList
    else []
  | none => []

/-- What is recorded of a step that leads to `sys`. -/
def Sessions.note (own : Hello) (k : Sessions) (sys : Sys) : TEvent → Sessions
  | .dialRead t => { k with sys := sys, passes := k.passes ++ k.newPass sys t }
  | .announceUp t => { k with sys := sys, ups := k.ups ++ k.newUp t }
  | .process =>
    match k.sys.queue, k.sys.submitted[k.taken]? with
    | .inboundReady peer _ :: _, some sub =>
      { k with
        sys := sys
        taken := k.taken + 1
        links := match roleFor own.deviceId peer.deviceId with
          | .acceptor => k.links.insert k.sys.nextConn ⟨sub.key, none, peer.deviceId⟩
          | .dialer => k.links }
    | _, _ => { k with sys := sys }
  | _ => { k with sys := sys }

/-- An `InboundReady` that is taken is followed by its connection. -/
theorem Sessions.note_inboundReady {own : Hello} {k : Sessions} {sys : Sys} {peer : Hello} {caps : Caps}
    {rest : List Internal} {sub : Submission} (hq : k.sys.queue = .inboundReady peer caps :: rest)
    (hsub : k.sys.submitted[k.taken]? = some sub) :
    k.note own sys .process =
      { k with
        sys := sys
        taken := k.taken + 1
        links := match roleFor own.deviceId peer.deviceId with
          | .acceptor => k.links.insert k.sys.nextConn ⟨sub.key, none, peer.deviceId⟩
          | .dialer => k.links } := by
  simp only [Sessions.note, hq, hsub]

/-- The system takes a step. -/
def sessionStep (own : Hello) (k : Sessions) : SessionEvent → Option Sessions
  | .connect t addr cert first =>
    match k.sys.tasks.lookup t with
    | none => none
    | some task =>
      match task.expecting with
      | none => none
      | some expect =>
        match secureConnect expect cert with
        -- the next address is tried
        | none => some k
        | some key =>
          (transportStep own k.sys (.dialHello t addr first)).map fun sys =>
            { k with
              sys := sys
              links := match handshake own (some task.peer) first with
                | .ok hs => k.links.insert k.sys.nextConn ⟨key, some expect, hs.peer.deviceId⟩
                | .error _ => k.links }
  | .other (.dialHello ..) => none
  | .other e => (transportStep own k.sys e).map fun sys => k.note own sys e

theorem sessionStep_other {own : Hello} {k : Sessions} {e : TEvent}
    (hhello : ∀ t addr first, e ≠ .dialHello t addr first) :
    sessionStep own k (.other e) = (transportStep own k.sys e).map fun sys => k.note own sys e := by
  cases e with
  | dialHello t addr first => exact absurd rfl (hhello t addr first)
  | _ => rfl

/-- The system itself stays or takes one of its steps. -/
theorem sessionStep_sys {own : Hello} {k k' : Sessions} {e : SessionEvent} (hs : sessionStep own k e = some k') :
    k'.sys = k.sys ∨ ∃ te, transportStep own k.sys te = some k'.sys := by
  cases e with
  | connect t addr cert first =>
    simp only [sessionStep] at hs
    split at hs
    · cases hs
    split at hs
    · cases hs
    split at hs
    · cases hs
      exact Or.inl rfl
    · obtain ⟨sys, hsys, rfl⟩ := Option.map_eq_some_iff.1 hs
      exact Or.inr ⟨_, hsys⟩
  | other e =>
    by_cases hhello : ∃ t addr first, e = .dialHello t addr first
    · obtain ⟨t, addr, first, rfl⟩ := hhello
      cases hs
    · rw [sessionStep_other fun t addr first he => hhello ⟨t, addr, first, he⟩] at hs
      obtain ⟨sys, hsys, rfl⟩ := Option.map_eq_some_iff.1 hs
      have hnote : (k.note own sys e).sys = sys := by
        unfold Sessions.note
        split
        · rfl
        · rfl
        · split <;> rfl
        · rfl
      exact Or.inr ⟨e, by rw [hnote, hsys]⟩

/-! ### Where the tasks come from -/

section Tasks

variable {own : Hello} {s s' : Sys} {e : TEvent}

/-- A task goes on with the connection and the pass it had. -/
structure Task.Continues (task task' : Task) : Prop where
  peer : task'.peer = task.peer
  isDial : task'.isDial = task.isDial
  expecting : ∀ expect, task'.expecting = some expect → task.expecting = some expect
  conn : ∀ c', task'.conn = some c' → ∃ c, task.conn = some c ∧ c.id = c'.id

theorem Task.Continues.refl (task : Task) : task.Continues task := ⟨rfl, rfl, fun _ h => h, fun c h => ⟨c, h, rfl⟩⟩

/-- A task after a step that is neither the beginning of a pass nor a connection of a dial loop: it was there before,
or it is a new dial loop, or it drives a new inbound connection. -/
def TaskOrigin (own : Hello) (s s' : Sys) (e : TEvent) (t : Nat) (task' : Task) : Prop :=
  (∃ task, s.tasks.lookup t = some task ∧ task.Continues task') ∨
    (task'.isDial = true ∧ task'.expecting = none ∧ task'.conn = none ∧
      ∃ p rest, s.work = .ensure p rest ∧ task'.peer = p.deviceId) ∨
    (task'.isDial = false ∧ e = .process ∧ ∃ peer caps rest c, s.queue = .inboundReady peer caps :: rest ∧
      roleFor own.deviceId peer.deviceId = .acceptor ∧ task'.peer = peer.deviceId ∧ task'.conn = some c ∧
      c.id = s.nextConn ∧ s'.nextConn = s.nextConn + 1)

private theorem continues_setPhase (task : Task) (phase : ConnPhase) : task.Continues (task.setPhase phase) := by
  obtain ⟨peer, state⟩ := task
  cases state with
  | drive c => exact ⟨rfl, rfl, (fun _ he => by cases he), fun c' hc => ⟨c, rfl, by cases hc; rfl⟩⟩
  | dial addrs dialPhase =>
    cases dialPhase with
    | driving c => exact ⟨rfl, rfl, (fun _ he => by cases he), fun c' hc => ⟨c, rfl, by cases hc; rfl⟩⟩
    | top | dialing | resting => exact .refl _

/-- A dial loop that neither dials nor drives. -/
private theorem continues_idle {peer : DeviceId} {addrs addrs' : List SocketAddr} {phase phase' : DialPhase}
    (h : phase' = .top ∨ phase' = .resting) :
    Task.Continues ⟨peer, .dial addrs phase⟩ ⟨peer, .dial addrs' phase'⟩ := by
  rcases h with rfl | rfl <;> exact ⟨rfl, rfl, (fun _ he => by cases he), (fun _ hc => by cases hc)⟩

private theorem continues_sendAddrs {tasks : AList (fun _ : Nat => Task)} {u : Nat} {addrs : List SocketAddr} {t : Nat}
    {task' : Task} (h : (sendAddrs tasks u addrs).lookup t = some task') :
    ∃ task, tasks.lookup t = some task ∧ task.Continues task' := by
  unfold sendAddrs at h
  split at h
  · rename_i peer addrs' phase hu
    rcases lookup_insert_eq_some.1 h with ⟨rfl, rfl⟩ | ⟨-, h⟩
    · refine ⟨_, hu, rfl, rfl, ?_, ?_⟩
      · intro expect he
        cases phase with
        | dialing => exact he
        | top | driving | resting => cases he
      · intro c hc
        cases phase with
        | driving => exact ⟨c, hc, rfl⟩
        | top | dialing | resting => cases hc
    · exact ⟨task', h, .refl task'⟩
  · exact ⟨task', h, .refl task'⟩

/-- The steps of a task other than the two that begin something. -/
private theorem continues_taskStep {t u : Nat} {task task' : Task} (hl : s.tasks.lookup t = some task)
    (hread : ∀ t, e ≠ .dialRead t) (hhello : ∀ t addr first, e ≠ .dialHello t addr first)
    (h : taskStep own s t task e = some s') (hl' : s'.tasks.lookup u = some task') :
    ∃ task, s.tasks.lookup u = some task ∧ task.Continues task' := by
  have hinsert : ∀ next : Task, task.Continues next → s'.tasks = s.tasks.insert t next →
      ∃ task, s.tasks.lookup u = some task ∧ task.Continues task' := by
    intro next hnext heq
    rw [heq] at hl'
    rcases lookup_insert_eq_some.1 hl' with ⟨rfl, rfl⟩ | ⟨-, hl'⟩
    · exact ⟨task, hl, hnext⟩
    · exact ⟨task', hl', .refl task'⟩
  have herase : s'.tasks = s.tasks.erase t → ∃ task, s.tasks.lookup u = some task ∧ task.Continues task' := by
    intro heq
    rw [heq] at hl'
    obtain ⟨-, hl'⟩ := lookup_erase_eq_some.1 hl'
    exact ⟨task', hl', .refl task'⟩
  rcases taskStep_cases h with ⟨c, -, -, heq⟩ | ⟨c, r, -, -, heq⟩ | ⟨c, r, next, -, -, haft, heq⟩ |
    ⟨c, r, -, -, -, heq⟩ | ⟨addrs, phase, phase', n, hd, -, -, hphase, -, heq⟩ | heq | ⟨-, heq⟩
  · exact hinsert _ (continues_setPhase task _) (by rw [heq])
  · exact hinsert _ (continues_setPhase task _) (by rw [heq])
  · refine hinsert next ?_ (by rw [heq])
    obtain ⟨peer, state⟩ := task
    cases state with
    | drive c => cases haft
    | dial addrs phase =>
      cases haft
      exact continues_idle (Or.inr rfl)
  · exact herase (by rw [heq])
  · refine hinsert _ ?_ (by rw [heq])
    rw [hd]
    refine continues_idle ?_
    rcases hphase with h | h | ⟨v, rfl⟩ | ⟨v, addr, first, rfl⟩
    · exact Or.inl h
    · exact Or.inr h
    · exact absurd rfl (hread v)
    · exact absurd rfl (hhello v addr first)
  · rw [heq] at hl'
    exact ⟨task', hl', .refl task'⟩
  · exact herase (by rw [heq])

/-- Where a task comes from. -/
theorem task_origin (hread : ∀ t, e ≠ .dialRead t) (hhello : ∀ t addr first, e ≠ .dialHello t addr first)
    (h : transportStep own s e = some s') {t : Nat} {task' : Task} (hl : s'.tasks.lookup t = some task') :
    TaskOrigin own s s' e t task' := by
  rcases transportStep_cases h with ⟨_, -, rfl⟩ | ⟨_, _, _, _, _, -, rfl⟩ | ⟨he, -, m, rest, hq, rfl⟩ | ⟨-, h⟩ |
    ⟨u, task, hu, h⟩
  · exact Or.inl ⟨task', hl, .refl task'⟩
  · exact Or.inl ⟨task', hl, .refl task'⟩
  · cases m with
    | discovery ev =>
      cases ev with
      | found p => exact Or.inl ⟨task', hl, .refl task'⟩
      | lost id =>
        left
        simp only [handleInternal, onLost] at hl
        split at hl
        · exact continues_sendAddrs hl
        · exact ⟨task', hl, .refl task'⟩
    | rosterChanged =>
      left
      have htasks : (handleInternal own.deviceId { s with queue := rest } .rosterChanged).tasks = s.tasks :=
        tasks_sweep _ _
      rw [htasks] at hl
      exact ⟨task', hl, .refl task'⟩
    | inboundReady peer caps =>
      simp only [handleInternal, onInboundReady] at hl
      split at hl
      · exact Or.inl ⟨task', hl, .refl task'⟩
      · rename_i hrole
        rcases lookup_insert_eq_some.1 hl with ⟨rfl, rfl⟩ | ⟨-, hl⟩
        · refine Or.inr (Or.inr ⟨rfl, he, peer, caps, rest, _, hq, hrole, rfl, rfl, rfl, ?_⟩)
          simp only [handleInternal, onInboundReady, hrole]
        · exact Or.inl ⟨task', hl, .refl task'⟩
    | connUp => exact Or.inl ⟨task', hl, .refl task'⟩
    | connDown => exact Or.inl ⟨task', hl, .refl task'⟩
  · rcases resumeWork_cases h with ⟨work, -, -, rfl⟩ | ⟨p, rest, hw, rfl⟩
    · exact Or.inl ⟨task', hl, .refl task'⟩
    · rcases ensurePeer_cases own.deviceId s p with
        ⟨_, tasks, _, -, -, -, htasks, heq⟩ | ⟨_, -, -, -, -, heq⟩ | ⟨_, addrs, -, -, -, -, heq⟩
      · rw [heq] at hl
        rcases htasks with rfl | ⟨u, addrs, rfl⟩
        · exact Or.inl ⟨task', hl, .refl task'⟩
        · exact Or.inl (continues_sendAddrs hl)
      · rw [heq] at hl
        exact Or.inl ⟨task', hl, .refl task'⟩
      · rw [heq] at hl
        rcases lookup_insert_eq_some.1 hl with ⟨rfl, rfl⟩ | ⟨-, hl⟩
        · exact Or.inr (Or.inl ⟨rfl, rfl, rfl, p, rest, hw, rfl⟩)
        · exact Or.inl ⟨task', hl, .refl task'⟩
  · exact Or.inl (continues_taskStep hu hread hhello h hl)

/-- No step takes a roster or a connection id back, and a peer is ensured only after it was found trusted. -/
theorem transportStep_grows (h : transportStep own s e = some s') :
    (∃ new, s'.rosters = s.rosters ++ new ∧ (s'.roster = s.roster ∨ s'.roster ∈ new)) ∧ s.nextConn ≤ s'.nextConn ∧
      ∀ p rest, s'.work = .ensure p rest →
        s.work = .ensure p rest ∨ s.roster.isTrustedId p.deviceId = true := by
  have hsame : s'.rosters = s.rosters ∧ s'.roster = s.roster →
      ∃ new, s'.rosters = s.rosters ++ new ∧ (s'.roster = s.roster ∨ s'.roster ∈ new) := fun h =>
    ⟨[], by rw [h.1, List.append_nil], Or.inl h.2⟩
  rcases transportStep_cases h with ⟨peers, -, rfl⟩ | ⟨_, _, _, _, _, -, rfl⟩ | ⟨-, hw, m, rest, -, rfl⟩ | ⟨-, h⟩ |
    ⟨u, task, -, h⟩
  · exact ⟨⟨_, rfl, Or.inr (List.mem_singleton_self _)⟩, le_rfl, fun p rest h => Or.inl h⟩
  · exact ⟨hsame ⟨rfl, rfl⟩, le_rfl, fun p rest h => Or.inl h⟩
  · cases m with
    | discovery ev =>
      cases ev with
      | found p =>
        refine ⟨hsame ⟨rfl, rfl⟩, le_rfl, fun q rest hq => Or.inr ?_⟩
        simp only [handleInternal, onFound] at hq
        split at hq
        · cases hq
          assumption
        · cases hq
      | lost id => exact ⟨hsame ⟨rfl, rfl⟩, le_rfl, fun q rest hq => Or.inl hq⟩
    | rosterChanged =>
      obtain ⟨_, _, _, _, heq⟩ := sweep_cases (s.peers.keys.filter fun id => !s.roster.ids.contains id)
        { s with queue := rest }
      simp only [handleInternal, onRosterChanged, heq]
      exact ⟨⟨[], (List.append_nil _).symm, Or.inl trivial⟩, le_rfl, (fun _ _ h => by cases h)⟩
    | inboundReady peer caps =>
      simp only [handleInternal, onInboundReady]
      split
      · exact ⟨⟨[], (List.append_nil _).symm, Or.inl rfl⟩, le_rfl, fun q rest hq => Or.inl hq⟩
      · exact ⟨⟨[], (List.append_nil _).symm, Or.inl rfl⟩, Nat.le_succ _, fun q rest hq => Or.inl hq⟩
    | connUp => exact ⟨hsame ⟨rfl, rfl⟩, le_rfl, fun q rest hq => Or.inl hq⟩
    | connDown => exact ⟨hsame ⟨rfl, rfl⟩, le_rfl, fun q rest hq => Or.inl hq⟩
  · rcases resumeWork_cases h with ⟨work, -, htrusted, rfl⟩ | ⟨p, rest, hw, rfl⟩
    · exact ⟨hsame ⟨rfl, rfl⟩, le_rfl, fun q rest hq => Or.inr (htrusted q rest hq)⟩
    · obtain ⟨peers, tasks, n, heq⟩ := ensurePeer_frame own.deviceId s p
      rw [heq]
      exact ⟨⟨[], (List.append_nil _).symm, Or.inl rfl⟩, le_rfl, (fun _ _ h => by cases h)⟩
  · obtain ⟨tasks, extra, n, -, hnext, rfl⟩ := taskStep_frame h
    exact ⟨hsame ⟨rfl, rfl⟩, hnext, fun p rest hw => Or.inl hw⟩

/-- A dial loop begins a pass with the key the roster has for its peer, or rests. -/
theorem dialRead_cases {t : Nat} (h : transportStep own s (.dialRead t) = some s') :
    ∃ peer addrs, s.tasks.lookup t = some ⟨peer, .dial addrs .top⟩ ∧
      ((∃ expect, s.roster.keyForId peer = some expect ∧
          s' = { s with tasks := s.tasks.insert t ⟨peer, .dial addrs (.dialing expect addrs)⟩ }) ∨
        s' = { s with tasks := s.tasks.insert t ⟨peer, .dial addrs .resting⟩ }) := by
  obtain ⟨⟨peer, state⟩, hl, h⟩ := Option.bind_eq_some_iff.1 (show (s.tasks.lookup t).bind _ = some s' from h)
  dsimp only [taskStep] at h
  split at h
  · rename_i addrs
    cases h
    refine ⟨peer, addrs, hl, ?_⟩
    split
    · rename_i expect _ hkey
      exact Or.inl ⟨expect, hkey, rfl⟩
    · exact Or.inr rfl
  · cases h

/-- In a pass, the `Hello` exchange succeeds and the connection is driven, or the next address is tried. -/
theorem dialHello_cases {t : Nat} {addr : SocketAddr} {first : Option (Except String Message)}
    (h : transportStep own s (.dialHello t addr first) = some s') :
    ∃ peer addrs expect candidates, s.tasks.lookup t = some ⟨peer, .dial addrs (.dialing expect candidates)⟩ ∧
      ((∃ hs, handshake own (some peer) first = .ok hs ∧
          s' = { s with
            tasks := s.tasks.insert t ⟨peer, .dial addrs
              (.driving ⟨s.nextConn, hs.peer.deviceName, hs.effectiveCaps, some addr, .starting⟩)⟩
            nextConn := s.nextConn + 1 }) ∨
        (∃ err, handshake own (some peer) first = .error err) ∧ s' = s) := by
  obtain ⟨⟨peer, state⟩, hl, h⟩ := Option.bind_eq_some_iff.1 (show (s.tasks.lookup t).bind _ = some s' from h)
  dsimp only [taskStep] at h
  split at h
  · rename_i addrs expect candidates
    refine ⟨peer, addrs, expect, candidates, hl, ?_⟩
    split at h
    · split at h
      · rename_i hs hhs
        cases h
        exact Or.inl ⟨hs, hhs, rfl⟩
      · rename_i err herr
        cases h
        exact Or.inr ⟨⟨err, herr⟩, rfl⟩
    · cases h
  · cases h

end Tasks

/-! ### The invariant -/

/-- The device was in some roster. -/
def Sessions.Listed (k : Sessions) (id : DeviceId) : Prop := ∃ r ∈ k.sys.rosters, r.isTrustedId id = true

/-- The session of a dial loop: the server proved to have the key that the loop expected in its pass, and its `Hello`
carried the id of the loop. -/
def PinnedLink (passes : List Pass) (peer : DeviceId) (link : PeerLink) : Prop :=
  link.expect = some link.key ∧ link.helloId = peer ∧ ∃ pass ∈ passes, pass.peer = peer ∧ pass.expect = link.key

/-- What is known of a task. -/
structure TaskOk (k : Sessions) (task : Task) : Prop where
  listed : task.isDial = true → k.Listed task.peer
  expecting : ∀ expect, task.expecting = some expect → ∃ pass ∈ k.passes, pass.peer = task.peer ∧ pass.expect = expect
  fresh : ∀ c, task.conn = some c → c.id < k.sys.nextConn
  pinned : task.isDial = true → ∀ c, task.conn = some c →
    ∃ link, k.links.lookup c.id = some link ∧ PinnedLink k.passes task.peer link

structure OnlyPinned (k : Sessions) : Prop where
  current : k.sys.roster ∈ k.sys.rosters
  passes : ∀ pass ∈ k.passes, pass.roster ∈ k.sys.rosters ∧ pass.roster.keyForId pass.peer = some pass.expect
  ensured : ∀ p rest, k.sys.work = .ensure p rest → k.Listed p.deviceId
  tasks : ∀ t task, k.sys.tasks.lookup t = some task → TaskOk k task
  ups : ∀ up ∈ k.ups, PinnedLink k.passes up.1 up.2

/-- Nothing that was recorded is taken back. -/
structure Grows (k k' : Sessions) : Prop where
  rosters : k.sys.rosters ⊆ k'.sys.rosters
  passes : k.passes ⊆ k'.passes
  nextConn : k.sys.nextConn ≤ k'.sys.nextConn
  links : ∀ id, id < k.sys.nextConn → k'.links.lookup id = k.links.lookup id

section Invariant

variable {own : Hello} {k k' : Sessions}

private theorem Grows.listed (h : Grows k k') {id : DeviceId} (hid : k.Listed id) : k'.Listed id := by
  obtain ⟨r, hr, htrust⟩ := hid
  exact ⟨r, h.rosters hr, htrust⟩

private theorem PinnedLink.mono {passes passes' : List Pass} (hsub : passes ⊆ passes') {peer : DeviceId}
    {link : PeerLink} (h : PinnedLink passes peer link) : PinnedLink passes' peer link := by
  obtain ⟨hkey, hid, pass, hpass, hp⟩ := h
  exact ⟨hkey, hid, pass, hsub hpass, hp⟩

private theorem TaskOk.continue (h : Grows k k') {task task' : Task} (hok : TaskOk k task)
    (hcont : task.Continues task') : TaskOk k' task' where
  listed hd := by
    rw [hcont.peer]
    exact h.listed (hok.listed (hcont.isDial ▸ hd))
  expecting expect he := by
    obtain ⟨pass, hpass, hp⟩ := hok.expecting expect (hcont.expecting expect he)
    exact ⟨pass, h.passes hpass, by rw [hcont.peer]; exact hp⟩
  fresh c hc := by
    obtain ⟨c₀, hc₀, hid⟩ := hcont.conn c hc
    rw [← hid]
    exact Nat.lt_of_lt_of_le (hok.fresh c₀ hc₀) h.nextConn
  pinned hd c hc := by
    obtain ⟨c₀, hc₀, hid⟩ := hcont.conn c hc
    obtain ⟨link, hl, hlink⟩ := hok.pinned (hcont.isDial ▸ hd) c₀ hc₀
    refine ⟨link, ?_, ?_⟩
    · rw [← hid, h.links c₀.id (hok.fresh c₀ hc₀), hl]
    · rw [hcont.peer]
      exact hlink.mono h.passes

/-- The invariant after a step whose tasks go on or are accounted for. -/
private theorem OnlyPinned.keep (h : OnlyPinned k) (hg : Grows k k') (hcurrent : k'.sys.roster ∈ k'.sys.rosters)
    (hpasses : ∀ pass ∈ k'.passes, pass ∈ k.passes ∨
      pass.roster = k.sys.roster ∧ pass.roster.keyForId pass.peer = some pass.expect)
    (hensured : ∀ p rest, k'.sys.work = .ensure p rest →
      k.sys.work = .ensure p rest ∨ k.sys.roster.isTrustedId p.deviceId = true)
    (htasks : ∀ t task', k'.sys.tasks.lookup t = some task' →
      (∃ task, k.sys.tasks.lookup t = some task ∧ task.Continues task') ∨ TaskOk k' task')
    (hups : ∀ up ∈ k'.ups, up ∈ k.ups ∨ PinnedLink k.passes up.1 up.2) : OnlyPinned k' where
  current := hcurrent
  passes pass hpass := by
    rcases hpasses pass hpass with hold | ⟨hr, hkey⟩
    · exact ⟨hg.rosters (h.passes pass hold).1, (h.passes pass hold).2⟩
    · exact ⟨hg.rosters (hr ▸ h.current), hkey⟩
  ensured p rest hw := by
    rcases hensured p rest hw with hw | htrust
    · exact hg.listed (h.ensured p rest hw)
    · exact hg.listed ⟨_, h.current, htrust⟩
  tasks t task' hl := by
    rcases htasks t task' hl with ⟨task, hl₀, hcont⟩ | hok
    · exact (h.tasks t task hl₀).continue hg hcont
    · exact hok
  ups up hup := by
    rcases hups up hup with hold | hnew
    · exact (h.ups up hold).mono hg.passes
    · exact hnew.mono hg.passes

private theorem current_of_grows {s s' : Sys} (hcur : s.roster ∈ s.rosters)
    (h : ∃ new, s'.rosters = s.rosters ++ new ∧ (s'.roster = s.roster ∨ s'.roster ∈ new)) :
    s'.roster ∈ s'.rosters ∧ s.rosters ⊆ s'.rosters := by
  obtain ⟨new, hnew, hr⟩ := h
  rw [hnew]
  refine ⟨?_, List.subset_append_left _ _⟩
  rcases hr with hr | hr
  · rw [hr]
    exact List.mem_append_left _ hcur
  · exact List.mem_append_right _ hr

private theorem onlyPinned_connect {t : Nat} {addr : SocketAddr} {cert : ServerCert}
    {first : Option (Except String Message)} (h : OnlyPinned k)
    (hs : sessionStep own k (.connect t addr cert first) = some k') : OnlyPinned k' := by
  simp only [sessionStep] at hs
  split at hs
  · cases hs
  rename_i task hl
  split at hs
  · cases hs
  rename_i expect he
  split at hs
  · cases hs
    exact h
  rename_i key hkey
  obtain rfl : key = expect := secureConnect_eq_some hkey
  obtain ⟨sys, hsys, rfl⟩ := Option.map_eq_some_iff.1 hs
  obtain ⟨peer, addrs, expect, candidates, hl', hcases⟩ := dialHello_cases hsys
  obtain rfl := Option.some.inj (hl.symm.trans hl')
  obtain rfl : expect = key := Option.some.inj he
  have hok := h.tasks t _ hl
  rcases hcases with ⟨shake, hshake, rfl⟩ | ⟨⟨err, herr⟩, rfl⟩
  · -- the connection is driven
    rw [hshake]
    have hid : shake.peer.deviceId = peer := handshake_ok hshake peer rfl
    have hpass := hok.expecting expect rfl
    refine h.keep ⟨List.Subset.refl _, List.Subset.refl _, Nat.le_succ _, fun id hlt => ?_⟩ h.current
      (fun pass hp => Or.inl hp) (fun p rest hw => Or.inl hw) ?_ (fun up hup => Or.inl hup)
    · exact AList.lookup_insert_ne (Nat.ne_of_lt hlt)
    · intro u task' hu
      dsimp only at hu
      rcases lookup_insert_eq_some.1 hu with ⟨rfl, rfl⟩ | ⟨-, hu⟩
      · refine Or.inr ⟨fun _ => hok.listed rfl, (fun _ he => by cases he), ?_, ?_⟩
        · intro c hc
          cases hc
          exact Nat.lt_succ_self _
        · intro _ c hc
          cases hc
          exact ⟨_, AList.lookup_insert _, rfl, hid, hpass⟩
      · exact Or.inl ⟨task', hu, .refl task'⟩
  · rw [herr]
    exact h

private theorem onlyPinned_dialRead {t : Nat} (h : OnlyPinned k)
    (hs : sessionStep own k (.other (.dialRead t)) = some k') : OnlyPinned k' := by
  obtain ⟨sys, hsys, rfl⟩ := Option.map_eq_some_iff.1 hs
  obtain ⟨peer, addrs, hl, hcases⟩ := dialRead_cases hsys
  have hok := h.tasks t _ hl
  -- the task in its next phase, and every other one
  have htasks : ∀ (next : Task) (u : Nat) (task' : Task), (k.sys.tasks.insert t next).lookup u = some task' →
      u = t ∧ task' = next ∨ k.sys.tasks.lookup u = some task' := by
    intro next u task' hu
    exact (lookup_insert_eq_some.1 hu).imp_right And.right
  rcases hcases with ⟨expect, hkey, rfl⟩ | rfl
  · have hnew : k.newPass { k.sys with tasks := k.sys.tasks.insert t ⟨peer, .dial addrs (.dialing expect addrs)⟩ } t =
        [⟨peer, expect, k.sys.roster⟩] := by
      simp [Sessions.newPass, Task.expecting]
    simp only [Sessions.note, hnew]
    refine h.keep ⟨List.Subset.refl _, List.subset_append_left _ _, le_rfl, fun _ _ => rfl⟩ h.current ?_
      (fun p rest hw => Or.inl hw) ?_ (fun up hup => Or.inl hup)
    · intro pass hp
      rcases List.mem_append.1 hp with hp | hp
      · exact Or.inl hp
      · cases List.mem_singleton.1 hp
        exact Or.inr ⟨rfl, hkey⟩
    · intro u task' hu
      rcases htasks _ u task' hu with ⟨rfl, rfl⟩ | hu
      · refine Or.inr ⟨fun _ => hok.listed rfl, ?_, (fun _ hc => by cases hc), (fun _ _ hc => by cases hc)⟩
        intro expect' he
        cases he
        exact ⟨_, List.mem_append_right _ (List.mem_singleton_self _), rfl, rfl⟩
      · exact Or.inl ⟨task', hu, .refl task'⟩
  · have hnew : k.newPass { k.sys with tasks := k.sys.tasks.insert t ⟨peer, .dial addrs .resting⟩ } t = [] := by
      simp [Sessions.newPass, Task.expecting]
    simp only [Sessions.note, hnew, List.append_nil]
    refine h.keep ⟨List.Subset.refl _, List.Subset.refl _, le_rfl, fun _ _ => rfl⟩ h.current (fun pass hp => Or.inl hp)
      (fun p rest hw => Or.inl hw) ?_ (fun up hup => Or.inl hup)
    intro u task' hu
    rcases htasks _ u task' hu with ⟨rfl, rfl⟩ | hu
    · exact Or.inl ⟨_, hl, continues_idle (Or.inr rfl)⟩
    · exact Or.inl ⟨task', hu, .refl task'⟩

/-- What a dial loop reports is the session of its connection. -/
private theorem pinned_newUp {t : Nat} {up : DeviceId × PeerLink} (h : OnlyPinned k) (hup : up ∈ k.newUp t) :
    PinnedLink k.passes up.1 up.2 := by
  unfold Sessions.newUp at hup
  split at hup
  · rename_i task hl
    split at hup
    · rename_i hd
      obtain ⟨link, hlink, rfl⟩ := Option.map_eq_some_iff.1 (Option.mem_toList.1 hup)
      obtain ⟨c, hc, hlc⟩ := Option.bind_eq_some_iff.1 hlink
      obtain ⟨link', hl', hpinned⟩ := (h.tasks t task hl).pinned hd c hc
      obtain rfl := Option.some.inj (hlc.symm.trans hl')
      exact hpinned
    · cases hup
  · cases hup

/-- Every other step: what is recorded is that of the connections already there, or of a new inbound one. -/
private theorem onlyPinned_other {e : TEvent} (h : OnlyPinned k) (hread : ∀ t, e ≠ .dialRead t)
    (hhello : ∀ t addr first, e ≠ .dialHello t addr first) {sys : Sys} (hsys : transportStep own k.sys e = some sys) :
    OnlyPinned (k.note own sys e) := by
  obtain ⟨hrosters, hconn, hwork⟩ := transportStep_grows hsys
  obtain ⟨hcur, hsub⟩ := current_of_grows h.current hrosters
  have hnote : (k.note own sys e).sys = sys ∧ (k.note own sys e).passes = k.passes ∧
      (∀ id, id < k.sys.nextConn → (k.note own sys e).links.lookup id = k.links.lookup id) ∧
      ∀ up ∈ (k.note own sys e).ups, up ∈ k.ups ∨ PinnedLink k.passes up.1 up.2 := by
    unfold Sessions.note
    split
    · exact absurd rfl (hread _)
    · rename_i t
      refine ⟨rfl, rfl, fun _ _ => rfl, fun up hup => ?_⟩
      rcases List.mem_append.1 hup with hup | hup
      · exact Or.inl hup
      · exact Or.inr (pinned_newUp h hup)
    · split
      · refine ⟨rfl, rfl, fun id hlt => ?_, fun up hup => Or.inl hup⟩
        dsimp only
        split
        · exact AList.lookup_insert_ne (Nat.ne_of_lt hlt)
        · rfl
      · exact ⟨rfl, rfl, fun _ _ => rfl, fun up hup => Or.inl hup⟩
    · exact ⟨rfl, rfl, fun _ _ => rfl, fun up hup => Or.inl hup⟩
  obtain ⟨hsys', hpasses, hlinks, hups⟩ := hnote
  have hg : Grows k (k.note own sys e) := by
    refine ⟨?_, ?_, ?_, hlinks⟩
    · rw [hsys']
      exact hsub
    · rw [hpasses]
      exact List.Subset.refl _
    · rw [hsys']
      exact hconn
  refine h.keep hg ?_ ?_ ?_ ?_ hups
  · rw [hsys']
    exact hcur
  · rw [hpasses]
    exact fun pass hp => Or.inl hp
  · rw [hsys']
    exact hwork
  · intro t task' hl
    rw [hsys'] at hl
    rcases task_origin hread hhello hsys hl with hcont | ⟨hd, he, hc, p, rest, hw, hpeer⟩ |
      ⟨hd, -, peer, caps, rest, c, -, -, hpeer, hc, hid, hnext⟩
    · exact Or.inl hcont
    · refine Or.inr ⟨fun _ => ?_, ?_, ?_, ?_⟩
      · rw [hpeer]
        exact hg.listed (h.ensured p rest hw)
      · intro expect he'
        rw [he] at he'
        cases he'
      · intro c hc'
        rw [hc] at hc'
        cases hc'
      · intro _ c hc'
        rw [hc] at hc'
        cases hc'
    · refine Or.inr ⟨fun hd' => ?_, ?_, ?_, fun hd' => ?_⟩
      · rw [hd] at hd'
        cases hd'
      · intro expect he
        obtain ⟨p, state⟩ := task'
        cases state with
        | drive => cases he
        | dial => cases hd
      · intro c' hc'
        rw [hc] at hc'
        cases hc'
        rw [hsys', hid, hnext]
        exact Nat.lt_succ_self _
      · rw [hd] at hd'
        cases hd'

theorem onlyPinned_step {e : SessionEvent} (h : OnlyPinned k) (hs : sessionStep own k e = some k') :
    OnlyPinned k' := by
  cases e with
  | connect t addr cert first => exact onlyPinned_connect h hs
  | other e =>
    by_cases hhello : ∃ t addr first, e = .dialHello t addr first
    · obtain ⟨t, addr, first, rfl⟩ := hhello
      cases hs
    by_cases hread : ∃ t, e = .dialRead t
    · obtain ⟨t, rfl⟩ := hread
      exact onlyPinned_dialRead h hs
    · have hhello' : ∀ t addr first, e ≠ .dialHello t addr first :=
        fun t addr first he => hhello ⟨t, addr, first, he⟩
      rw [sessionStep_other hhello'] at hs
      obtain ⟨sys, hsys, rfl⟩ := Option.map_eq_some_iff.1 hs
      exact onlyPinned_other h (fun t he => hread ⟨t, he⟩) hhello' hsys

theorem onlyPinned_start (roster : RosterInner) : OnlyPinned (.start roster) where
  current := List.mem_singleton_self _
  passes pass h := by cases h
  ensured p rest h := by cases h
  tasks t task h := by cases h
  ups up h := by cases h

theorem onlyPinned_run {roster : RosterInner} {es : List SessionEvent}
    (hr : Run (sessionStep own) Always (.start roster) es k) : OnlyPinned k :=
  hr.invariant (onlyPinned_start roster) fun _ _ _ h _ hs => onlyPinned_step h hs

end Invariant

/-- For every interleaving of discovery, reloads, the manager's handlers and the steps of the dial loops: a pass starts
with the key that the roster had for its peer; the key a dial loop expects while it dials is that of a pass of its own;
a device that was in no roster has no dial loop and no pass; and when a dial loop reports a connection, the server has
proved to have the key expected in a pass, and its `Hello` carried the id of the loop. -/
theorem only_pinned_dialed (own : Hello) (roster : RosterInner) {es : List SessionEvent} {k : Sessions}
    (hr : Run (sessionStep own) Always (.start roster) es k) :
    (∀ pass ∈ k.passes, pass.roster ∈ k.sys.rosters ∧ pass.roster.keyForId pass.peer = some pass.expect) ∧
    (∀ t task expect, k.sys.tasks.lookup t = some task → task.expecting = some expect →
      ∃ pass ∈ k.passes, pass.peer = task.peer ∧ pass.expect = expect) ∧
    (∀ id, (∀ r ∈ k.sys.rosters, r.isTrustedId id = false) →
      (∀ t task, k.sys.tasks.lookup t = some task → task.isDial = true → task.peer ≠ id) ∧
        ∀ pass ∈ k.passes, pass.peer ≠ id) ∧
    ∀ up ∈ k.ups, up.2.expect = some up.2.key ∧ up.2.helloId = up.1 ∧
      ∃ pass ∈ k.passes, pass.peer = up.1 ∧ pass.expect = up.2.key := by
  have h : OnlyPinned k := onlyPinned_run hr
  refine ⟨h.passes, fun t task expect hl he => (h.tasks t task hl).expecting expect he, fun id hid => ⟨?_, ?_⟩, h.ups⟩
  · rintro t task hl hd rfl
    obtain ⟨r, hr, htrust⟩ := (h.tasks t task hl).listed hd
    rw [hid r hr] at htrust
    cases htrust
  · rintro pass hp rfl
    obtain ⟨hr, hkey⟩ := h.passes pass hp
    have htrust := hid pass.roster hr
    rw [RosterInner.isTrustedId, show pass.roster.byId.lookup pass.peer = some pass.expect from hkey] at htrust
    cases htrust

/-- `b`, on the dialer's side of `a`. -/
def pairedWithB (key : Key) (addrs : List SocketAddr) : List RosterPeer := [⟨"b", "b", key, addrs⟩]

/-- mDNS finds `b`, and the dial loop is connected with it in its first pass. -/
def dialedB (key : Key) : List SessionEvent :=
  [.other .resume, .other .resume, .other (.discover (.found ⟨"b", "b", ["10.0.0.2:47820"]⟩)), .other .process,
    .other .resume, .other .resume, .other (.dialRead 0),
    .connect 0 "10.0.0.2:47820" ⟨.ok key, true⟩ (some (.ok (.hello (helloOf "b")))), .other (.announceUp 0)]

theorem only_pinned_dialed_found :
    ∃ k : Sessions, (∃ es, Run (sessionStep (helloOf "a")) Always (.start (.replace (pairedWithB zeroKey []))) es k) ∧
      k.ups = [("b", ⟨zeroKey, some zeroKey, "b"⟩)] ∧ ∃ pass ∈ k.passes, pass.peer = "b" ∧ pass.expect = zeroKey := by
  obtain ⟨k, hrun, hups⟩ := run_of_exec_view (sessionStep (helloOf "a")) (fun _ => True)
    (.start (.replace (pairedWithB zeroKey []))) (dialedB zeroKey) (·.ups) [("b", ⟨zeroKey, some zeroKey, "b"⟩)]
    (fun _ _ => trivial) (by decide +kernel)
  obtain ⟨-, -, -, hpinned⟩ := only_pinned_dialed (helloOf "a") _ hrun
  obtain ⟨-, -, hpass⟩ := hpinned ("b", ⟨zeroKey, some zeroKey, "b"⟩) (by rw [hups]; exact List.mem_singleton_self _)
  exact ⟨k, ⟨_, hrun⟩, hups, hpass⟩

end Qdrop
