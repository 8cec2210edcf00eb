import Qdrop.Control.Requests
import Qdrop.Lib.Journal
import Qdrop.Lib.JsonPretty
import Qdrop.Transport.Online

/-!
# `state.json` (`qdrop-core/src/state.rs`, `qdropd/src/state.rs`)

The daemon's view of its peers, saved after every event and read by the next daemon.  A save may fail, a read may fail
and a daemon may be killed at any time: what is stored and what is held are always the replay of the events up to the
last save that worked, and of those since, and from the last addresses among the first the next daemon dials its peers
before mDNS has found them (`state_json_replays`).
-/

namespace Qdrop

open Lib

/-- `BTreeMap<String, _>`. -/
abbrev StringMap (α : Type) := Std.ExtTreeMap String α compare

/-- `DaemonState` -/
structure DaemonState where
  /-- Device id to the time the current connection was established. -/
  online : StringMap Nat
  /-- Device id to the time of the last disconnect. -/
  lastSeen : StringMap Nat
  /-- Device id to the last address that was dialed. -/
  lastAddr : StringMap String

namespace DaemonState

/-- `DaemonState::default` -/
def empty : DaemonState := ⟨∅, ∅, ∅⟩

def markOnline (st : DaemonState) (deviceId : DeviceId) (now : Nat) : DaemonState :=
  { st with online := st.online.insert deviceId now }

def rememberAddr (st : DaemonState) (deviceId : DeviceId) (addr : String) : DaemonState :=
  { st with lastAddr := st.lastAddr.insert deviceId addr }

def markOffline (st : DaemonState) (deviceId : DeviceId) (now : Nat) : DaemonState :=
  { st with online := st.online.erase deviceId, lastSeen := st.lastSeen.insert deviceId now }

/-- What `publish_events` makes of an event, at the time `now`. -/
def publish (st : DaemonState) : TransportEvent × Nat → DaemonState
  | (.peerConnected deviceId _ _ (some addr), now) => (st.markOnline deviceId now).rememberAddr deviceId addr
  | (.peerConnected deviceId _ _ none, now) => st.markOnline deviceId now
  | (.peerDisconnected deviceId _, now) => st.markOffline deviceId now

/-- A fresh daemon has no live connections yet. -/
def clearOnline (st : DaemonState) : DaemonState := { st with online := ∅ }

/-! ### The file -/

def mapJson {α : Type} (f : α → Json) (t : StringMap α) : Json := .obj (t.toList.map fun e => (e.1, f e.2))

/-- `Serialize` -/
def json (st : DaemonState) : Json :=
  .obj [("online", mapJson jsonNumber st.online), ("last_seen", mapJson jsonNumber st.lastSeen),
    ("last_addr", mapJson Json.str st.lastAddr)]

def asMap {α : Type} (f : Json → Option α) : Json → Option (StringMap α)
  | .obj members =>
    (members.mapM fun m => (f m.2).map fun v => (m.1, v)).map fun entries => Std.ExtTreeMap.ofList entries compare
  | _ => none

/-- The fields, each of which may be missing. -/
def ofContent (c : Request.Content) : Option DaemonState :=
  match Request.defaulted c 0 "online" (asMap Request.asUsize) ∅,
    Request.defaulted c 1 "last_seen" (asMap Request.asUsize) ∅,
    Request.defaulted c 2 "last_addr" (asMap Json.asStr) ∅ with
  | some online, some lastSeen, some lastAddr => some ⟨online, lastSeen, lastAddr⟩
  | _, _, _ => none

/-- `Deserialize`, from an object or an array of the fields. -/
def fromJson : Json → Option DaemonState
  | .obj members => ofContent (.members members)
  | .arr items => if items.length ≤ 3 then ofContent (.items items) else none
  | _ => none

/-- `state.json` -/
inductive StateFile where
  | absent
  | text (t : String)

/-- `DaemonState::load_from` when the read works. -/
def loadFrom : StateFile → Option DaemonState
  | .absent => some empty
  | .text t => (Json.parse t).bind fromJson

/-- `DaemonState::save_to` when the write works. -/
def saveTo (st : DaemonState) : StateFile := .text (String.ofList (Json.pretty 0 st.json))

/-! ### What is saved is loaded -/

/-- The times are `u64`. -/
def InRange (st : DaemonState) : Prop :=
  (∀ (p : DeviceId) t, st.online[p]? = some t → t < 2 ^ 64) ∧
    ∀ (p : DeviceId) t, st.lastSeen[p]? = some t → t < 2 ^ 64

theorem ofList_toList {α : Type} (t : StringMap α) : Std.ExtTreeMap.ofList t.toList compare = t := by
  refine Std.ExtTreeMap.ext_getElem? fun k => ?_
  cases h : t[k]? with
  | some v =>
    exact Std.ExtTreeMap.getElem?_ofList_of_mem Std.ReflCmp.compare_self Std.ExtTreeMap.distinct_keys_toList
      (Std.ExtTreeMap.mem_toList_iff_getElem?_eq_some.2 h)
  | none =>
    refine Std.ExtTreeMap.getElem?_ofList_of_contains_eq_false ?_
    rw [Bool.eq_false_iff, Ne, List.contains_iff_mem]
    intro hk
    obtain ⟨⟨k', v⟩, hmem, rfl⟩ := List.mem_map.1 hk
    rw [Std.ExtTreeMap.mem_toList_iff_getElem?_eq_some, h] at hmem
    cases hmem

theorem asMap_mapJson {α : Type} {f : α → Json} {g : Json → Option α} {t : StringMap α}
    (h : ∀ (p : String) v, t[p]? = some v → g (f v) = some v) : asMap g (mapJson f t) = some t := by
  have hmap : ∀ entries : List (String × α), (∀ e ∈ entries, g (f e.2) = some e.2) →
      (entries.map fun e => (e.1, f e.2)).mapM (fun m => (g m.2).map fun v => (m.1, v)) = some entries := by
    intro entries hentries
    induction entries with
    | nil => rfl
    | cons e entries ih =>
      rw [List.map_cons, List.mapM_cons, ih fun e' he' => hentries e' (List.mem_cons_of_mem _ he'),
        hentries e (List.mem_cons_self ..)]
      rfl
  have hentries := hmap t.toList fun e he => h e.1 e.2 (Std.ExtTreeMap.mem_toList_iff_getElem?_eq_some.1 he)
  rw [mapJson, asMap, hentries, Option.map_some, ofList_toList]

theorem numeric_mapJson {α : Type} {f : α → Json} (h : ∀ v, (f v).Numeric) (t : StringMap α) :
    (mapJson f t).Numeric := by
  have hmembers : ∀ entries : List (String × α), Json.NumericMembers (entries.map fun e => (e.1, f e.2)) := by
    intro entries
    induction entries with
    | nil => exact trivial
    | cons e entries ih => exact ⟨h e.2, ih⟩
  exact hmembers t.toList

theorem numeric_json (st : DaemonState) : st.json.Numeric :=
  ⟨numeric_mapJson Control.jsonNumber_numeric _, numeric_mapJson Control.jsonNumber_numeric _,
    numeric_mapJson (f := Json.str) (fun _ => trivial) _, trivial⟩

theorem fromJson_json {st : DaemonState} (h : st.InRange) : fromJson st.json = some st := by
  have honline : asMap Request.asUsize (mapJson jsonNumber st.online) = some st.online :=
    asMap_mapJson fun p t hp => Request.asUsize_jsonNumber (h.1 p t hp)
  have hseen : asMap Request.asUsize (mapJson jsonNumber st.lastSeen) = some st.lastSeen :=
    asMap_mapJson fun p t hp => Request.asUsize_jsonNumber (h.2 p t hp)
  have haddr : asMap Json.asStr (mapJson Json.str st.lastAddr) = some st.lastAddr :=
    asMap_mapJson fun p a _ => rfl
  simp [json, fromJson, ofContent, Request.defaulted, Request.field, honline, hseen, haddr]

theorem loadFrom_saveTo {st : DaemonState} (h : st.InRange) : loadFrom st.saveTo = some st := by
  rw [saveTo, loadFrom, Json.parse_pretty _ st.numeric_json, Option.bind_some, fromJson_json h]

end DaemonState

/-! ### The publisher and the next daemon -/

/-- `publish_events`, which loads the state when the daemon starts and saves it after every event. -/
def publisher : Saving DaemonState (TransportEvent × Nat) DaemonState.StateFile where
  empty := .empty
  fresh := DaemonState.clearOnline
  apply := DaemonState.publish
  load := DaemonState.loadFrom
  save := DaemonState.saveTo

theorem publisher_load : publisher.load = DaemonState.loadFrom := rfl

theorem publisher_save : publisher.save = DaemonState.saveTo := rfl

/-- The `Found` events that a starting daemon puts into the empty discovery channel, which has room for 64. -/
def seeds (resolver : Resolver) (peers : Peers) (cached : DaemonState) : List DiscoveredPeer :=
  (peers.peers.filterMap fun p =>
    (cached.lastAddr[p.deviceId]?.bind resolver.parseSocketAddr).map fun addr =>
      ⟨p.deviceId, p.name, [addr]⟩).take 64

/-! ### What the log says -/

abbrev StateLog := List (LogEntry (TransportEvent × Nat))

/-- Since when a device is online: the last thing that happened to it, if the daemon has not started since. -/
def onlineSince (log : StateLog) (p : DeviceId) : Option Nat :=
  log.reverse.findSome? (fun e =>
    match e with
    | .started => some none
    | .event (.peerConnected id _ _ _, now) => if id = p then some (some now) else none
    | .event (.peerDisconnected id _, _) => if id = p then some none else none) |>.join

/-- When a device last disconnected. -/
def lastSeenAt (log : StateLog) (p : DeviceId) : Option Nat :=
  log.reverse.findSome? fun e =>
    match e with
    | .event (.peerDisconnected id _, now) => if id = p then some now else none
    | _ => none

/-- The address of the last connection that was dialed. -/
def lastDialed (log : StateLog) (p : DeviceId) : Option String :=
  log.reverse.findSome? fun e =>
    match e with
    | .event (.peerConnected id _ _ (some addr), _) => if id = p then some addr else none
    | _ => none

/-- The state says what the log says. -/
structure DaemonState.Reads (st : DaemonState) (log : StateLog) : Prop where
  online : ∀ p : DeviceId, st.online[p]? = onlineSince log p
  lastSeen : ∀ p : DeviceId, st.lastSeen[p]? = lastSeenAt log p
  lastAddr : ∀ p : DeviceId, st.lastAddr[p]? = lastDialed log p

theorem findSome_snoc {α β : Type} (f : α → Option β) (l : List α) (a : α) :
    (l ++ [a]).reverse.findSome? f = (f a).or (l.reverse.findSome? f) := by
  rw [List.reverse_append, List.reverse_singleton, List.singleton_append, List.findSome?_cons]
  cases f a <;> rfl

theorem getElem?_insert {α : Type} (t : StringMap α) (k p : String) (v : α) :
    (t.insert k v)[p]? = if k = p then some v else t[p]? := by
  rw [Std.ExtTreeMap.getElem?_insert]
  by_cases hk : k = p
  · rw [if_pos hk, if_pos (Std.compare_eq_iff_eq.2 hk)]
  · rw [if_neg hk, if_neg fun h => hk (Std.compare_eq_iff_eq.1 h)]

theorem getElem?_erase {α : Type} (t : StringMap α) (k p : String) :
    (t.erase k)[p]? = if k = p then none else t[p]? := by
  rw [Std.ExtTreeMap.getElem?_erase]
  by_cases hk : k = p
  · rw [if_pos hk, if_pos (Std.compare_eq_iff_eq.2 hk)]
  · rw [if_neg hk, if_neg fun h => hk (Std.compare_eq_iff_eq.1 h)]

/-- An event changes what is said of its device only. -/
theorem DaemonState.Reads.publish {st : DaemonState} {log : StateLog} (h : st.Reads log) (ev : TransportEvent)
    (now : Nat) : (st.publish (ev, now)).Reads (log ++ [.event (ev, now)]) := by
  cases ev with
  | peerConnected id name caps addr =>
    have honline : ∀ p : DeviceId, (st.online.insert id now)[p]? =
        onlineSince (log ++ [.event (.peerConnected id name caps addr, now)]) p := by
      intro p
      rw [getElem?_insert, onlineSince, findSome_snoc, h.online p]
      by_cases hp : id = p
      · simp [hp]
      · simp [hp, onlineSince]
    have hseen : ∀ p : DeviceId, st.lastSeen[p]? =
        lastSeenAt (log ++ [.event (.peerConnected id name caps addr, now)]) p := by
      intro p
      rw [lastSeenAt, findSome_snoc]
      exact h.lastSeen p
    cases addr with
    | none =>
      refine ⟨honline, hseen, fun p => ?_⟩
      rw [lastDialed, findSome_snoc]
      exact h.lastAddr p
    | some addr =>
      refine ⟨honline, hseen, fun p => ?_⟩
      show (st.lastAddr.insert id addr)[p]? = _
      rw [getElem?_insert, lastDialed, findSome_snoc, h.lastAddr p]
      by_cases hp : id = p
      · simp [hp]
      · simp [hp, lastDialed]
  | peerDisconnected id reason =>
    refine ⟨fun p => ?_, fun p => ?_, fun p => ?_⟩
    · show (st.online.erase id)[p]? = _
      rw [getElem?_erase, onlineSince, findSome_snoc, h.online p]
      by_cases hp : id = p
      · simp [hp]
      · simp [hp, onlineSince]
    · show (st.lastSeen.insert id now)[p]? = _
      rw [getElem?_insert, lastSeenAt, findSome_snoc, h.lastSeen p]
      by_cases hp : id = p
      · simp [hp]
      · simp [hp, lastSeenAt]
    · rw [lastDialed, findSome_snoc]
      exact h.lastAddr p

theorem DaemonState.reads_replay (log : StateLog) : (publisher.replay log).Reads log := by
  induction log using List.reverseRecOn with
  | nil => exact ⟨fun _ => Std.ExtTreeMap.getElem?_empty, fun _ => Std.ExtTreeMap.getElem?_empty,
      fun _ => Std.ExtTreeMap.getElem?_empty⟩
  | append_singleton log e ih =>
    rw [publisher.replay_snoc]
    generalize publisher.replay log = st at ih
    cases e with
    | started =>
      refine ⟨fun p => ?_, fun p => ?_, fun p => ?_⟩
      · rw [onlineSince, findSome_snoc]
        exact Std.ExtTreeMap.getElem?_empty
      · rw [lastSeenAt, findSome_snoc]
        exact ih.lastSeen p
      · rw [lastDialed, findSome_snoc]
        exact ih.lastAddr p
    | event ev =>
      exact ih.publish ev.1 ev.2

/-- The time of an event is a `u64`. -/
def TimeInRange (ev : TransportEvent × Nat) : Prop := ev.2 < 2 ^ 64

theorem DaemonState.inRange_replay {log : StateLog} (h : GoodLog TimeInRange log) :
    (publisher.replay log).InRange := by
  have hreads := DaemonState.reads_replay log
  refine ⟨fun p t hp => ?_, fun p t hp => ?_⟩
  · rw [hreads.online, onlineSince, Option.join_eq_some_iff] at hp
    obtain ⟨e, he, hf⟩ := List.exists_of_findSome?_eq_some hp
    split at hf
    · cases hf
    · split at hf
      · cases hf
        exact h _ (List.mem_reverse.1 he)
      · cases hf
    · split at hf <;> cases hf
  · rw [hreads.lastSeen, lastSeenAt] at hp
    obtain ⟨e, he, hf⟩ := List.exists_of_findSome?_eq_some hp
    split at hf
    · split at hf
      · cases hf
        exact h _ (List.mem_reverse.1 he)
      · cases hf
    · cases hf

/-- In every run of daemons that start, publish events and are killed, whatever reads and saves fail: there is a log
of the run such that `state.json` and the daemon that runs say what the log says, and the next daemon first dials, in
the order of its registry, the addresses that the log has last for its peers, up to 64 of them. -/
theorem state_json_replays (resolver : Resolver) (peers : Peers) (es : List (SavingEvent (TransportEvent × Nat)))
    (s : Store DaemonState DaemonState.StateFile)
    (hr : Run publisher.step (GoodEvent TimeInRange) ⟨.absent, none⟩ es s) :
    ∃ log, Run SavedLog.step Always ⟨[], none⟩ es log ∧
      (∃ st, DaemonState.loadFrom s.disk = some st ∧ st.Reads log.durable ∧
        seeds resolver peers st = (peers.peers.filterMap fun p =>
          ((lastDialed log.durable p.deviceId).bind resolver.parseSocketAddr).map fun addr =>
            ⟨p.deviceId, p.name, [addr]⟩).take 64) ∧
      (s.memory.isSome = log.volatile.isSome) ∧
      ∀ st entries, s.memory = some st → log.volatile = some entries → st.Reads entries := by
  have hround : ∀ entries, GoodLog TimeInRange entries →
      publisher.load (publisher.save (publisher.replay entries)) = some (publisher.replay entries) := by
    intro entries hgood
    rw [publisher_load, publisher_save]
    exact DaemonState.loadFrom_saveTo (DaemonState.inRange_replay hgood)
  obtain ⟨log, hlog, hrep⟩ := Saving.replays hround rfl hr
  have hreads := DaemonState.reads_replay log.durable
  refine ⟨log, hlog, ⟨publisher.replay log.durable, hrep.disk, hreads, ?_⟩, ?_, ?_⟩
  · unfold seeds
    simp only [hreads.lastAddr]
  · rw [hrep.memory, Option.isSome_map]
  · intro st entries hst hentries
    rw [hrep.memory, hentries, Option.map_some] at hst
    rw [← Option.some.inj hst]
    exact DaemonState.reads_replay entries

private def connectedAt : TransportEvent × Nat := (.peerConnected "a" "laptop" Caps.all (some "10.0.0.2:47654"), 100)

/-- A device connects and disconnects, the last save fails, and the daemon is killed. -/
private def killedDaemon : List (SavingEvent (TransportEvent × Nat)) :=
  [.start true true, .event connectedAt true, .event (.peerDisconnected "a" "closed", 200) false, .stop]

private theorem killedDaemon_run :
    ∃ s, Run publisher.step (GoodEvent TimeInRange) ⟨.absent, none⟩ killedDaemon s := by
  have hstart : Run publisher.step (GoodEvent TimeInRange) ⟨.absent, none⟩ [.start true true] _ :=
    (Run.nil _).snoc trivial rfl
  have hconnected : Run publisher.step (GoodEvent TimeInRange) ⟨.absent, none⟩
      [.start true true, .event connectedAt true] _ := hstart.snoc (show 100 < 2 ^ 64 by decide) rfl
  have hclosed : Run publisher.step (GoodEvent TimeInRange) ⟨.absent, none⟩
      [.start true true, .event connectedAt true, .event (.peerDisconnected "a" "closed", 200) false] _ :=
    hconnected.snoc (show 200 < 2 ^ 64 by decide) rfl
  exact ⟨_, hclosed.snoc trivial rfl⟩

private theorem killedDaemon_log {log : SavedLog (TransportEvent × Nat)}
    (h : Run SavedLog.step Always ⟨[], none⟩ killedDaemon log) :
    log.durable = [.started, .event connectedAt] := by
  have hrun : Run SavedLog.step Always ⟨[], none⟩ killedDaemon
      ⟨[.started, .event connectedAt], none⟩ :=
    ((((Run.nil _).snoc trivial rfl).snoc trivial rfl).snoc trivial rfl).snoc trivial rfl
  rw [h.unique hrun]

private def knownLaptop : Peer := ⟨"laptop", "a", "", none, false, [], none, none⟩

/-- The next daemon dials the address at once, and the disconnect is lost. -/
theorem state_json_replays_killed :
    ∃ s st, Run publisher.step (GoodEvent TimeInRange) ⟨.absent, none⟩ killedDaemon s ∧
      DaemonState.loadFrom s.disk = some st ∧ st.online["a"]? = some 100 ∧ st.lastSeen["a"]? = none ∧
      seeds ⟨some, fun _ => none, fun _ => none⟩ ⟨[knownLaptop]⟩ st =
        [⟨"a", "laptop", ["10.0.0.2:47654"]⟩] := by
  obtain ⟨s, hrun⟩ := killedDaemon_run
  obtain ⟨log, hlog, ⟨st, hload, hreads, hseeds⟩, -⟩ := state_json_replays ⟨some, fun _ => none, fun _ => none⟩
    ⟨[knownLaptop]⟩ killedDaemon s hrun
  have hdurable := killedDaemon_log hlog
  refine ⟨s, st, hrun, hload, ?_, ?_, ?_⟩
  · rw [hreads.online, hdurable]
    decide
  · rw [hreads.lastSeen, hdurable]
    decide
  · rw [hseeds, hdurable]
    decide

end Qdrop
