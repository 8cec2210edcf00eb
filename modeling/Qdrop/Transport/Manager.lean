import Qdrop.Connection.Handshake
import Qdrop.Connection.Loop
import Qdrop.Roster

/-!
# The connection manager (`qdropd/src/transport.rs`)

The manager folds discovery events, roster changes and the life of every connection into one loop over a queue of
`Internal` messages.  Around it run the accept tasks (which submit `InboundReady`), the dial loops and the
connection tasks (which announce `ConnUp` and `ConnDown`), and the roster reload.  A state of the system holds all of
them; an event is one step of one of them, so a run is an interleaving.

A handler that reads the shared roster more than once is cut at its reads (`Work`), so that a reload can fall between
them.  `ConnUp` and `ConnDown` carry the task that sent them for the statements below; no handler looks at it.
`abort` takes effect at the task's next suspension point: an aborted task may still take steps until it is cancelled.
-/

namespace Qdrop

/-! ### Messages and entries -/

inductive Role where
  | dialer
  | acceptor
deriving DecidableEq, Repr

/-- The device with the lower id dials. -/
def roleFor (ownId peerId : DeviceId) : Role := if ownId < peerId then .dialer else .acceptor

structure DiscoveredPeer where
  deviceId : DeviceId
  deviceName : String
  addrs : List SocketAddr
deriving DecidableEq, Repr

inductive DiscoveryEvent where
  | found (p : DiscoveredPeer)
  | lost (deviceId : DeviceId)
deriving DecidableEq, Repr

inductive TransportEvent where
  | peerConnected (deviceId : DeviceId) (deviceName : String) (caps : Caps) (addr : Option SocketAddr)
  | peerDisconnected (deviceId : DeviceId) (reason : String)
deriving DecidableEq, Repr

/-- Messages folded into the manager's loop; `outbound` names the connection whose channel is handed over. -/
inductive Internal where
  | discovery (ev : DiscoveryEvent)
  | rosterChanged
  | inboundReady (peer : Hello) (caps : Caps)
  | connUp (peerId : DeviceId) (deviceName : String) (caps : Caps) (addr : Option SocketAddr) (outbound : Nat)
      (task : Nat)
  | connDown (peerId : DeviceId) (reason : DisconnectReason) (task : Nat)
deriving DecidableEq, Repr

/-- `addrsTx` names the dial loop it feeds, `task` the dial loop or the acceptor's connection task. -/
structure PeerEntry where
  role : Role
  deviceName : String
  connected : Bool
  addrsTx : Option Nat
  task : Option Nat
deriving DecidableEq, Repr

def PeerEntry.new (role : Role) : PeerEntry := ⟨role, "", false, none, none⟩

/-! ### Tasks -/

/-- How far `drive_connection` has come: before `ConnUp`, inside `run`, before `ConnDown`. -/
inductive ConnPhase where
  | starting
  | running
  | ending (reason : DisconnectReason)
deriving DecidableEq, Repr

structure Conn where
  id : Nat
  deviceName : String
  caps : Caps
  addr : Option SocketAddr
  phase : ConnPhase
deriving DecidableEq, Repr

inductive DialPhase where
  /-- The top of the loop. -/
  | top
  | dialing (expect : Key) (addrs : List SocketAddr)
  | driving (conn : Conn)
  /-- Waiting for the backoff delay or for new addresses. -/
  | resting
deriving DecidableEq, Repr

inductive TaskState where
  /-- An acceptor's connection task. -/
  | drive (conn : Conn)
  /-- A dial loop with the addresses in its watch channel. -/
  | dial (addrs : List SocketAddr) (phase : DialPhase)
deriving DecidableEq, Repr

structure Task where
  peer : DeviceId
  state : TaskState
deriving DecidableEq, Repr

/-- The `drive_connection` a task is executing. -/
def Task.conn : Task → Option Conn
  | ⟨_, .drive conn⟩ => some conn
  | ⟨_, .dial _ (.driving conn)⟩ => some conn
  | ⟨_, .dial _ _⟩ => none

/-- The task with its connection in another phase. -/
def Task.setPhase (phase : ConnPhase) : Task → Task
  | ⟨peer, .drive conn⟩ => ⟨peer, .drive { conn with phase := phase }⟩
  | ⟨peer, .dial addrs (.driving conn)⟩ => ⟨peer, .dial addrs (.driving { conn with phase := phase })⟩
  | task => task

/-- What remains of a task when its `drive_connection` returns. -/
def Task.afterConn : Task → Option Task
  | ⟨_, .drive _⟩ => none
  | ⟨peer, .dial addrs _⟩ => some ⟨peer, .dial addrs .resting⟩

/-- An accept task between its reads of the roster. -/
inductive AcceptPhase where
  | tls
  | verified
  | trusted
  | expecting (expectId : Option DeviceId)
deriving DecidableEq, Repr

/-- `key` is the key of the client certificate, `since` the number of the roster that was current at the start. -/
structure AcceptTask where
  key : Key
  phase : AcceptPhase
  since : Nat
deriving DecidableEq, Repr

/-- An `InboundReady` as submitted: the key of the session, the id it was submitted under, and the rosters that were
current during the attempt. -/
structure Submission where
  key : Key
  deviceId : DeviceId
  seen : List RosterInner

/-! ### The system -/

/-- What is left of the handler the manager is executing. -/
inductive Work where
  /-- `static_peers` is to be read before the loop. -/
  | startup
  /-- `static_peers` is to be read after the sweep of `RosterChanged`. -/
  | seed
  /-- These peers are to be checked for trust. -/
  | check (ps : List DiscoveredPeer)
  /-- `p` was trusted; `ensure_peer` is next. -/
  | ensure (p : DiscoveredPeer) (rest : List DiscoveredPeer)
  | idle
deriving DecidableEq, Repr

structure Sys where
  roster : RosterInner
  /-- Every roster so far, the current one last. -/
  rosters : List RosterInner
  /-- The watch channel holds a change the watcher has not seen. -/
  changed : Bool
  /-- The watcher has a `RosterChanged` to send. -/
  forwarding : Bool
  queue : List Internal
  work : Work
  peers : AList (fun _ : DeviceId => PeerEntry)
  discovered : AList (fun _ : DeviceId => DiscoveredPeer)
  /-- `PeerBus`: the connection whose outbound channel is registered. -/
  bus : AList (fun _ : DeviceId => Nat)
  events : List TransportEvent
  tasks : AList (fun _ : Nat => Task)
  aborted : List Nat
  nextTask : Nat
  nextConn : Nat
  accepts : AList (fun _ : Nat => AcceptTask)
  submitted : List Submission
  /-- The ids that were not in the roster when a `RosterChanged` was last processed, and have not been since. -/
  swept : DeviceId → Bool

/-- The manager is about to start, with any roster. -/
def Sys.start (roster : RosterInner) : Sys where
  roster := roster
  rosters := [roster]
  changed := false
  forwarding := false
  queue := []
  work := .startup
  peers := ∅
  discovered := ∅
  bus := ∅
  events := []
  tasks := ∅
  aborted := []
  nextTask := 0
  nextConn := 0
  accepts := ∅
  submitted := []
  swept _ := false

/-- Capacity of the internal queue. -/
def internalCap : Nat := 64

/-- Synthetic discovery records for roster peers that carry a static address. -/
def staticPeers (roster : RosterInner) : List DiscoveredPeer :=
  roster.peersWithStaticAddrs.map fun p => ⟨p.deviceId, p.name, p.staticAddrs⟩

/-- The records `RosterChanged` starts dialing from: mDNS first, static addresses for the rest. -/
def seedPeers (discovered : AList (fun _ : DeviceId => DiscoveredPeer)) (roster : RosterInner) :
    List DiscoveredPeer :=
  let seed := (staticPeers roster).foldl
    (fun seed p => if (seed.lookup p.deviceId).isSome then seed else seed.insert p.deviceId p) discovered
  seed.entries.map (·.2)

/-- `watch::Sender::send` on the address channel of a dial loop. -/
def sendAddrs (tasks : AList (fun _ : Nat => Task)) (t : Nat) (addrs : List SocketAddr) :
    AList (fun _ : Nat => Task) :=
  match tasks.lookup t with
  | some ⟨peer, .dial _ phase⟩ => tasks.insert t ⟨peer, .dial addrs phase⟩
  | _ => tasks

/-- The discovered addresses, then the static ones that are not among them. -/
def withStatic (addrs static : List SocketAddr) : List SocketAddr :=
  static.foldl (fun acc sa => if acc.contains sa then acc else acc ++ [sa]) addrs

/-- `ensure_peer`: a dial loop exists, or its address book is refreshed, for a peer we are the dialer for. -/
def ensurePeer (ownId : DeviceId) (s : Sys) (p : DiscoveredPeer) : Sys :=
  let role := roleFor ownId p.deviceId
  let entry := { (s.peers.lookup p.deviceId).getD (PeerEntry.new role) with deviceName := p.deviceName }
  match role with
  | .dialer =>
    let addrs := withStatic p.addrs (s.roster.staticAddrsFor p.deviceId)
    match entry.addrsTx with
    | some t => { s with peers := s.peers.insert p.deviceId entry, tasks := sendAddrs s.tasks t addrs }
    | none =>
      { s with
        peers := s.peers.insert p.deviceId { entry with addrsTx := some s.nextTask, task := some s.nextTask }
        tasks := s.tasks.insert s.nextTask ⟨p.deviceId, .dial addrs .top⟩
        nextTask := s.nextTask + 1 }
  | .acceptor => { s with peers := s.peers.insert p.deviceId entry }

/-! ### The handlers -/

def onFound (s : Sys) (p : DiscoveredPeer) : Sys :=
  { s with
    discovered := s.discovered.insert p.deviceId p
    work := if s.roster.isTrustedId p.deviceId then .ensure p [] else .idle }

def onLost (s : Sys) (deviceId : DeviceId) : Sys :=
  let fallback := s.roster.staticAddrsFor deviceId
  let tasks := match s.peers.lookup deviceId with
    | some ⟨_, _, _, some t, _⟩ => sendAddrs s.tasks t fallback
    | _ => s.tasks
  { s with discovered := s.discovered.erase deviceId, tasks := tasks }

/-- Drop one peer that is no longer trusted. -/
def dropPeer (s : Sys) (id : DeviceId) : Sys :=
  match s.peers.lookup id with
  | none => { s with bus := s.bus.erase id }
  | some entry =>
    { s with
      bus := s.bus.erase id
      peers := s.peers.erase id
      aborted := entry.task.toList ++ s.aborted
      events := if entry.connected then s.events ++ [.peerDisconnected id "peer unpaired"] else s.events }

/-- The first half of `RosterChanged`: drop connections to peers that are no longer trusted. -/
def onRosterChanged (s : Sys) : Sys :=
  let trusted := s.roster.ids
  let dropped := s.peers.keys.filter (fun id => !trusted.contains id)
  { dropped.foldl dropPeer s with
    work := .seed
    swept := fun id => s.swept id || !s.roster.isTrustedId id }

def onInboundReady (ownId : DeviceId) (s : Sys) (peer : Hello) (caps : Caps) : Sys :=
  match roleFor ownId peer.deviceId with
  | .dialer => s
  | .acceptor =>
    let entry := (s.peers.lookup peer.deviceId).getD (PeerEntry.new .acceptor)
    let replaced := entry.task.isSome && entry.connected
    { s with
      peers := s.peers.insert peer.deviceId
        { entry with
          deviceName := peer.deviceName
          connected := entry.connected && !replaced
          task := some s.nextTask }
      aborted := entry.task.toList ++ s.aborted
      events := if replaced then
          s.events ++ [.peerDisconnected peer.deviceId "replaced by a newer inbound connection"]
        else s.events
      tasks := s.tasks.insert s.nextTask
        ⟨peer.deviceId, .drive ⟨s.nextConn, peer.deviceName, caps, none, .starting⟩⟩
      nextTask := s.nextTask + 1
      nextConn := s.nextConn + 1 }

def onConnUp (s : Sys) (peerId : DeviceId) (deviceName : String) (caps : Caps) (addr : Option SocketAddr)
    (outbound : Nat) : Sys :=
  { s with
    peers := match s.peers.lookup peerId with
      | some entry => s.peers.insert peerId { entry with connected := true, deviceName := deviceName }
      | none => s.peers
    bus := s.bus.insert peerId outbound
    events := s.events ++ [.peerConnected peerId deviceName caps addr] }

def onConnDown (s : Sys) (peerId : DeviceId) (reason : DisconnectReason) : Sys :=
  { s with
    peers := match s.peers.lookup peerId with
      | some entry =>
        s.peers.insert peerId { entry with
          connected := false
          task := if entry.role = .acceptor then none else entry.task }
      | none => s.peers
    bus := s.bus.erase peerId
    events := s.events ++ [.peerDisconnected peerId reason.text] }

/-- The loop body up to its first suspension on the roster. -/
def handleInternal (ownId : DeviceId) (s : Sys) : Internal → Sys
  | .discovery (.found p) => onFound s p
  | .discovery (.lost deviceId) => onLost s deviceId
  | .rosterChanged => onRosterChanged s
  | .inboundReady peer caps => onInboundReady ownId s peer caps
  | .connUp peerId deviceName caps addr outbound _ => onConnUp s peerId deviceName caps addr outbound
  | .connDown peerId reason _ => onConnDown s peerId reason

/-- The next piece of a handler that reads the roster again. -/
def resumeWork (ownId : DeviceId) (s : Sys) : Option Sys :=
  match s.work with
  | .startup => some { s with work := .check (staticPeers s.roster) }
  | .seed => some { s with work := .check (seedPeers s.discovered s.roster) }
  | .check [] => some { s with work := .idle }
  | .check (p :: ps) =>
    some { s with work := if s.roster.isTrustedId p.deviceId then .ensure p ps else .check ps }
  | .ensure p rest => some { ensurePeer ownId s p with work := .check rest }
  | .idle => none

/-! ### Steps -/

inductive TEvent where
  /-- `spawn_roster_reload` loads a changed `peers.toml` and notifies. -/
  | reload (peers : List RosterPeer)
  | watch
  | forward
  | discover (ev : DiscoveryEvent)
  /-- The manager takes the next message. -/
  | process
  /-- The manager goes on with its handler. -/
  | resume
  /-- A TCP connection is accepted; the client will authenticate with `key`. -/
  | tcp (k : Nat) (key : Key)
  /-- The TLS verifier reads the roster. -/
  | verify (k : Nat)
  /-- `secure::accept` reads the roster again. -/
  | recheck (k : Nat)
  /-- The accept task looks up the id to expect. -/
  | lookup (k : Nat)
  /-- The peer's first frame arrives. -/
  | hello (k : Nat) (first : Option (Except String Message))
  /-- The TCP or TLS connection fails. -/
  | hangup (k : Nat)
  | announceUp (t : Nat)
  /-- `run` returns, at any moment; in the code it also does so, with `PeerClosed`, soon after the last sender of its
  outbound channel is gone, which is what taking it from the bus leads to. -/
  | connEnd (t : Nat) (reason : DisconnectReason)
  | announceDown (t : Nat)
  | dialRead (t : Nat)
  /-- TCP, TLS and the `Hello` exchange with `addr` succeed or fail. -/
  | dialHello (t : Nat) (addr : SocketAddr) (first : Option (Except String Message))
  | dialFail (t : Nat)
  | dialWake (t : Nat)
  /-- An aborted task stops. -/
  | cancel (t : Nat)
deriving DecidableEq

/-- `internal_tx.send` completes when there is room. -/
def Sys.push (s : Sys) (m : Internal) : Option Sys :=
  if s.queue.length < internalCap then some { s with queue := s.queue ++ [m] } else none

/-- The steps of a connection or dial task. -/
def taskStep (own : Hello) (s : Sys) (t : Nat) (task : Task) : TEvent → Option Sys
  | .announceUp _ =>
    match task.conn with
    | some c =>
      if c.phase = .starting then
        { s with tasks := s.tasks.insert t (task.setPhase .running) }.push
          (.connUp task.peer c.deviceName c.caps c.addr c.id t)
      else none
    | none => none
  | .connEnd _ reason =>
    match task.conn with
    | some c =>
      if c.phase = .running then some { s with tasks := s.tasks.insert t (task.setPhase (.ending reason)) } else none
    | none => none
  | .announceDown _ =>
    match task.conn with
    | some ⟨_, _, _, _, .ending reason⟩ =>
      let tasks := match task.afterConn with
        | some task' => s.tasks.insert t task'
        | none => s.tasks.erase t
      { s with tasks := tasks }.push (.connDown task.peer reason t)
    | _ => none
  | .dialRead _ =>
    match task.state with
    | .dial addrs .top =>
      let phase := match addrs.isEmpty, s.roster.keyForId task.peer with
        | false, some expect => .dialing expect addrs
        | _, _ => .resting
      some { s with tasks := s.tasks.insert t ⟨task.peer, .dial addrs phase⟩ }
    | _ => none
  | .dialHello _ addr first =>
    match task.state with
    | .dial addrs (.dialing _ candidates) =>
      if candidates.contains addr then
        match handshake own (some task.peer) first with
        | .ok hs =>
          let conn : Conn := ⟨s.nextConn, hs.peer.deviceName, hs.effectiveCaps, some addr, .starting⟩
          some { s with
            tasks := s.tasks.insert t ⟨task.peer, .dial addrs (.driving conn)⟩
            nextConn := s.nextConn + 1 }
        | .error _ => some s
      else none
    | _ => none
  | .dialFail _ =>
    match task.state with
    | .dial addrs (.dialing _ _) => some { s with tasks := s.tasks.insert t ⟨task.peer, .dial addrs .resting⟩ }
    | _ => none
  | .dialWake _ =>
    match task.state with
    | .dial addrs .resting => some { s with tasks := s.tasks.insert t ⟨task.peer, .dial addrs .top⟩ }
    | _ => none
  | .cancel _ => if t ∈ s.aborted then some { s with tasks := s.tasks.erase t } else none
  | _ => none

/-- The steps of an accept task. -/
def acceptStep (own : Hello) (s : Sys) (k : Nat) (a : AcceptTask) : TEvent → Option Sys
  | .verify _ =>
    if a.phase = .tls then
      some { s with accepts :=
        if s.roster.isTrustedKey a.key then s.accepts.insert k { a with phase := .verified } else s.accepts.erase k }
    else none
  | .recheck _ =>
    if a.phase = .verified then
      some { s with accepts :=
        if s.roster.isTrustedKey a.key then s.accepts.insert k { a with phase := .trusted } else s.accepts.erase k }
    else none
  | .lookup _ =>
    if a.phase = .trusted then
      let expectId := (s.roster.peerForKey a.key).map (·.deviceId)
      some { s with accepts := s.accepts.insert k { a with phase := .expecting expectId } }
    else none
  | .hello _ first =>
    match a.phase with
    | .expecting expectId =>
      match handshake own expectId first with
      | .ok hs =>
        let submission : Submission := ⟨a.key, hs.peer.deviceId, s.rosters.drop a.since⟩
        { s with accepts := s.accepts.erase k, submitted := s.submitted ++ [submission] }.push
          (.inboundReady hs.peer hs.effectiveCaps)
      | .error _ => some { s with accepts := s.accepts.erase k }
    | _ => none
  | .hangup _ => some { s with accepts := s.accepts.erase k }
  | _ => none

/-- The task of an event of a connection or dial task. -/
def TEvent.task? : TEvent → Option Nat
  | .announceUp t | .connEnd t _ | .announceDown t | .dialRead t | .dialHello t _ _ | .dialFail t | .dialWake t
  | .cancel t => some t
  | _ => none

/-- The accept task of an event. -/
def TEvent.accept? : TEvent → Option Nat
  | .verify k | .recheck k | .lookup k | .hello k _ | .hangup k => some k
  | _ => none

def transportStep (own : Hello) (s : Sys) (e : TEvent) : Option Sys :=
  match e with
  | .reload peers =>
    let roster := RosterInner.replace peers
    some { s with
      roster := roster
      rosters := s.rosters ++ [roster]
      changed := true
      swept := fun id => s.swept id && !roster.isTrustedId id }
  | .watch => if s.changed ∧ !s.forwarding then some { s with changed := false, forwarding := true } else none
  | .forward => if s.forwarding then { s with forwarding := false }.push .rosterChanged else none
  | .discover ev => s.push (.discovery ev)
  | .process =>
    match s.work, s.queue with
    | .idle, m :: rest => some (handleInternal own.deviceId { s with queue := rest } m)
    | _, _ => none
  | .resume => resumeWork own.deviceId s
  | .tcp k key =>
    if (s.accepts.lookup k).isSome then none
    else some { s with accepts := s.accepts.insert k { key := key, phase := .tls, since := s.rosters.length - 1 } }
  | e =>
    match e.task?, e.accept? with
    | some t, _ => (s.tasks.lookup t).bind fun task => taskStep own s t task e
    | none, some k => (s.accepts.lookup k).bind fun a => acceptStep own s k a e
    | none, none => none

end Qdrop
