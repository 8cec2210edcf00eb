import Qdrop.Transport.Entries

/-!
# The addresses a dial loop is given

The list in the watch channel of a dial loop is computed by three handlers: `ensure_peer` merges the addresses of a
record with the static ones, `Lost` falls back to the static ones, and `RosterChanged` goes through the records mDNS
has announced and, for the rest, those of the roster's static addresses.  A peer with neither is not gone through, so
its loop keeps the static addresses that an edit of `peers.toml` took away (`removed_address_stays`).  `book_current`
is about every run in which this does not happen: whenever no change of the roster is pending, every dial loop has the
addresses of the last `Found` and the static ones.
-/

namespace Qdrop

open Lib

/-! ### The address book -/

/-- The last record of the device, unless it was lost since. -/
def lastFound (evs : List DiscoveryEvent) (id : DeviceId) : Option DiscoveredPeer :=
  evs.foldl (fun found ev => match ev with
    | .found p => if p.deviceId = id then some p else found
    | .lost deviceId => if deviceId = id then none else found) none

/-- The addresses of the last `Found`, followed by those static ones that are not listed yet. -/
def bookFor (found : Option DiscoveredPeer) (static : List SocketAddr) : List SocketAddr :=
  match found with
  | some p => withStatic p.addrs static
  | none => static

/-- The dial loop `t` of `p` was not aborted, and `addrs` is the list last sent to it. -/
def DialedAt (s : Sys) (p : DeviceId) (t : Nat) (addrs : List SocketAddr) : Prop :=
  t ∉ s.aborted ∧ ∃ phase, s.tasks.lookup t = some ⟨p, .dial addrs phase⟩

/-- A change of the roster has not been processed yet. -/
def Sys.Pending (s : Sys) : Prop := s.changed = true ∨ s.forwarding = true ∨ Internal.rosterChanged ∈ s.queue

instance (s : Sys) : Decidable s.Pending :=
  inferInstanceAs (Decidable (s.changed = true ∨ s.forwarding = true ∨ Internal.rosterChanged ∈ s.queue))

/-- The system together with the discovery events the manager has processed. -/
structure Booked where
  sys : Sys
  handled : List DiscoveryEvent

def Booked.start (roster : RosterInner) : Booked := ⟨Sys.start roster, []⟩

/-- The discovery event that the step processes. -/
def Sys.handledBy (s : Sys) : TEvent → List DiscoveryEvent
  | .process =>
    match s.queue with
    | .discovery ev :: _ => [ev]
    | _ => []
  | _ => []

def bookStep (own : Hello) (b : Booked) (e : TEvent) : Option Booked :=
  (transportStep own b.sys e).map fun sys => ⟨sys, b.handled ++ b.sys.handledBy e⟩

/-- What `RosterChanged` relies on where mDNS lists no record of a peer: a record of the roster's static addresses has
those that `static_addrs_for` finds, and a peer with a dial loop has such a record, unless its list is already right. -/
structure SeedsRight (ownId : DeviceId) (s : Sys) : Prop where
  record : ∀ q ∈ staticPeers s.roster, roleFor ownId q.deviceId = .dialer → s.discovered.lookup q.deviceId = none →
    withStatic q.addrs (s.roster.staticAddrsFor q.deviceId) = s.roster.staticAddrsFor q.deviceId
  kept : ∀ p t addrs, DialedAt s p t addrs → s.roster.isTrustedId p = true → s.discovered.lookup p = none →
    (∃ q ∈ staticPeers s.roster, q.deviceId = p) ∨ addrs = s.roster.staticAddrsFor p

/-- The records of the roster are right when they are read for the last time: when a `RosterChanged` is processed and
no other is pending, and when the manager starts. -/
def SeedsTimely (ownId : DeviceId) (s : Sys) (e : TEvent) : Prop :=
  (e = .process → ∀ rest, s.queue = .rosterChanged :: rest → ¬ Sys.Pending { s with queue := rest } →
    SeedsRight ownId s) ∧
  (e = .resume → s.work = .startup → ¬ s.Pending → SeedsRight ownId s)

theorem mem_withStatic {addrs static : List SocketAddr} {a : SocketAddr} :
    a ∈ withStatic addrs static ↔ a ∈ addrs ∨ a ∈ static := by
  unfold withStatic
  induction static generalizing addrs with
  | nil => simp
  | cons sa static ih =>
    rw [List.foldl_cons, ih, List.mem_cons]
    split
    · rename_i hsa
      have hmem : sa ∈ addrs := List.contains_iff_mem.1 hsa
      constructor
      · rintro (h | h)
        · exact Or.inl h
        · exact Or.inr (Or.inr h)
      · rintro (h | rfl | h)
        · exact Or.inl h
        · exact Or.inl hmem
        · exact Or.inr h
    · rw [List.mem_append, List.mem_singleton, or_assoc]

/-- An address of the book is one of the last `Found` or a static one. -/
theorem mem_bookFor {found : Option DiscoveredPeer} {static : List SocketAddr} {a : SocketAddr} :
    a ∈ bookFor found static ↔ (∃ p, found = some p ∧ a ∈ p.addrs) ∨ a ∈ static := by
  cases found with
  | none => simp [bookFor]
  | some p => simp [bookFor, mem_withStatic]

theorem lastFound_snoc (evs : List DiscoveryEvent) (ev : DiscoveryEvent) (id : DeviceId) :
    lastFound (evs ++ [ev]) id = match ev with
      | .found p => if p.deviceId = id then some p else lastFound evs id
      | .lost deviceId => if deviceId = id then none else lastFound evs id := by
  unfold lastFound
  rw [List.foldl_append]
  rfl

/-! ### What the manager still goes through -/

/-- The records that the handler in progress has still to ensure. -/
def Sys.todo (s : Sys) : List DiscoveredPeer :=
  match s.work with
  | .startup | .idle => []
  | .seed => seedPeers s.discovered s.roster
  | .check ps => ps
  | .ensure p rest => p :: rest

/-- The address book as the manager's state has it. -/
def Sys.book (s : Sys) (p : DeviceId) : List SocketAddr :=
  bookFor (s.discovered.lookup p) (s.roster.staticAddrsFor p)

/-- A dial loop has the addresses of the book, or its peer is still to be ensured, with the right record. -/
structure BookOk (ownId : DeviceId) (s : Sys) : Prop where
  right : ∀ q ∈ s.todo, roleFor ownId q.deviceId = .dialer → s.roster.isTrustedId q.deviceId = true →
    withStatic q.addrs (s.roster.staticAddrsFor q.deviceId) = s.book q.deviceId
  covered : ∀ p t addrs, DialedAt s p t addrs → s.roster.isTrustedId p = true →
    addrs = s.book p ∨ ∃ q ∈ s.todo, q.deviceId = p

/-- The invariant: the book is right unless a change of the roster is pending. -/
structure Bookkeeping (ownId : DeviceId) (b : Booked) : Prop where
  attached : Attached ownId b.sys
  fresh : b.sys.work = .startup → b.sys.tasks = ∅ ∧ b.sys.discovered = ∅
  known : ∀ p, b.sys.discovered.lookup p = lastFound b.handled p
  named : ∀ p q, b.sys.discovered.lookup p = some q → q.deviceId = p
  book : ¬ b.sys.Pending → BookOk ownId b.sys

/-! ### Records and lists -/

private theorem lookup_seed (static : List DiscoveredPeer) (seed : AList (fun _ : DeviceId => DiscoveredPeer))
    (id : DeviceId) :
    (static.foldl (fun seed p => if (seed.lookup p.deviceId).isSome then seed else seed.insert p.deviceId p)
        seed).lookup id =
      match seed.lookup id with
      | some q => some q
      | none => static.find? (·.deviceId = id) := by
  induction static generalizing seed with
  | nil =>
    rw [List.foldl_nil, List.find?_nil]
    split
    · assumption
    · assumption
  | cons p static ih =>
    rw [List.foldl_cons, ih, List.find?_cons]
    by_cases hid : p.deviceId = id
    · subst hid
      cases hl : seed.lookup p.deviceId with
      | some q => simp [hl]
      | none => simp [AList.lookup_insert]
    · have hsame : (if (seed.lookup p.deviceId).isSome then seed else seed.insert p.deviceId p).lookup id =
          seed.lookup id := by
        split
        · rfl
        · exact AList.lookup_insert_ne (Ne.symm hid)
      rw [hsame, decide_eq_false hid]

/-- The records `RosterChanged` goes through: those of mDNS, and the first static one of every other peer. -/
theorem mem_seedPeers {discovered : AList (fun _ : DeviceId => DiscoveredPeer)} {roster : RosterInner}
    {q : DiscoveredPeer} :
    q ∈ seedPeers discovered roster ↔ ∃ id, discovered.lookup id = some q ∨
      discovered.lookup id = none ∧ (staticPeers roster).find? (·.deviceId = id) = some q := by
  unfold seedPeers
  rw [List.mem_map]
  constructor
  · rintro ⟨⟨id, q⟩, hmem, rfl⟩
    have hl := AList.mem_lookup_iff.2 hmem
    rw [lookup_seed] at hl
    refine ⟨id, ?_⟩
    cases hd : discovered.lookup id with
    | some q' =>
      rw [hd] at hl
      exact Or.inl hl
    | none =>
      rw [hd] at hl
      exact Or.inr ⟨rfl, hl⟩
  · rintro ⟨id, hq⟩
    refine ⟨⟨id, q⟩, AList.mem_lookup_iff.1 ?_, rfl⟩
    rw [lookup_seed]
    rcases hq with hd | ⟨hd, hfind⟩
    · rw [hd]
      rfl
    · rw [hd]
      exact hfind

/-- `send` on the channel of a dial loop. -/
private theorem lookup_sendAddrs {tasks : AList (fun _ : Nat => Task)} {u t : Nat} {addrs l : List SocketAddr}
    {p : DeviceId} {phase : DialPhase} (h : (sendAddrs tasks u addrs).lookup t = some ⟨p, .dial l phase⟩) :
    ∃ l', tasks.lookup t = some ⟨p, .dial l' phase⟩ ∧ (t = u → l = addrs) ∧ (t ≠ u → l = l') := by
  unfold sendAddrs at h
  split at h
  · rename_i peer l' phase' hu
    rcases lookup_insert_eq_some.1 h with ⟨rfl, heq⟩ | ⟨ht, h⟩
    · cases heq
      exact ⟨l', hu, fun _ => rfl, fun hne => absurd rfl hne⟩
    · exact ⟨l, h, fun heq => absurd heq ht, fun _ => rfl⟩
  · rename_i hnot
    refine ⟨l, h, ?_, fun _ => rfl⟩
    rintro rfl
    exact absurd h (hnot p l phase)

/-! ### Every step keeps the book -/

section Steps

variable {own : Hello} {s s' : Sys} {e : TEvent}

/-- A task keeps the list in its channel. -/
private theorem dial_taskStep {t u : Nat} {task : Task} {p : DeviceId} {addrs : List SocketAddr} {phase : DialPhase}
    (hl : s.tasks.lookup t = some task) (h : taskStep own s t task e = some s')
    (hu : s'.tasks.lookup u = some ⟨p, .dial addrs phase⟩) :
    ∃ phase, s.tasks.lookup u = some ⟨p, .dial addrs phase⟩ := by
  have hinsert : ∀ next : Task, s'.tasks = s.tasks.insert t next →
      (∀ phase, next = ⟨p, .dial addrs phase⟩ → ∃ phase, task = ⟨p, .dial addrs phase⟩) →
      ∃ phase, s.tasks.lookup u = some ⟨p, .dial addrs phase⟩ := by
    intro next heq hnext
    rw [heq] at hu
    rcases lookup_insert_eq_some.1 hu with ⟨rfl, heq'⟩ | ⟨-, hu⟩
    · obtain ⟨phase', rfl⟩ := hnext phase heq'.symm
      exact ⟨phase', hl⟩
    · exact ⟨phase, hu⟩
  have herase : s'.tasks = s.tasks.erase t → ∃ phase, s.tasks.lookup u = some ⟨p, .dial addrs phase⟩ := by
    intro heq
    rw [heq] at hu
    obtain ⟨-, hu⟩ := lookup_erase_eq_some.1 hu
    exact ⟨phase, hu⟩
  have hsetPhase : ∀ ph phase, task.setPhase ph = ⟨p, .dial addrs phase⟩ → ∃ phase, task = ⟨p, .dial addrs phase⟩ := by
    intro ph phase heq
    obtain ⟨peer, state⟩ := task
    cases state with
    | drive c => cases heq
    | dial l dialPhase =>
      cases dialPhase with
      | driving c =>
        cases heq
        exact ⟨_, rfl⟩
      | top | dialing | resting =>
        cases heq
        exact ⟨_, rfl⟩
  rcases taskStep_cases h with ⟨c, -, -, heq⟩ | ⟨c, r, -, -, heq⟩ | ⟨c, r, next, -, -, haft, heq⟩ |
    ⟨c, r, -, -, -, heq⟩ | ⟨l, phase₀, phase', n, hd, -, -, -, -, heq⟩ | heq | ⟨-, heq⟩
  · exact hinsert _ (by rw [heq]) (hsetPhase _)
  · exact hinsert _ (by rw [heq]) (hsetPhase _)
  · refine hinsert next (by rw [heq]) fun phase' hnext => ?_
    obtain ⟨peer, state⟩ := task
    cases state with
    | drive c => cases haft
    | dial l phase₀ =>
      cases haft
      cases hnext
      exact ⟨phase₀, rfl⟩
  · exact herase (by rw [heq])
  · refine hinsert _ (by rw [heq]) fun phase₁ hnext => ?_
    cases hnext
    exact ⟨phase₀, hd⟩
  · rw [heq] at hu
    exact ⟨phase, hu⟩
  · exact herase (by rw [heq])

/-- Only the manager makes a change of the roster no longer pending. -/
private theorem pending_step (h : transportStep own s e = some s') (he : e ≠ .process) (hp : s.Pending) :
    s'.Pending := by
  have hgrow : ∀ extra, s'.changed = s.changed → s'.forwarding = s.forwarding → s'.queue = s.queue ++ extra →
      s'.Pending := by
    intro extra hchanged hforwarding hqueue
    unfold Sys.Pending at hp ⊢
    rw [hchanged, hforwarding, hqueue, List.mem_append]
    exact hp.imp_right fun h => h.imp_right Or.inl
  have hsame : s'.changed = s.changed → s'.forwarding = s.forwarding → s'.queue = s.queue → s'.Pending := by
    intro hchanged hforwarding hqueue
    exact hgrow [] hchanged hforwarding (by rw [hqueue, List.append_nil])
  unfold transportStep at h
  split at h
  · cases h
    exact Or.inl rfl
  · split at h
    · cases h
      exact Or.inr (Or.inl rfl)
    · cases h
  · split at h
    · rw [push_eq_some h]
      exact Or.inr (Or.inr (List.mem_append_right _ (List.mem_singleton_self _)))
    · cases h
  · have h := push_eq_some h
    exact hgrow _ (by rw [h]) (by rw [h]) (by rw [h])
  · exact absurd rfl he
  · obtain ⟨work, peers, tasks, n, rfl⟩ := resumeWork_frame h
    exact hsame rfl rfl rfl
  · split at h
    · cases h
    · cases h
      exact hsame rfl rfl rfl
  · split at h
    · obtain ⟨task, -, htask⟩ := Option.bind_eq_some_iff.1 h
      obtain ⟨tasks, extra, n, -, -, rfl⟩ := taskStep_frame htask
      exact hgrow extra rfl rfl rfl
    · obtain ⟨a, -, haccept⟩ := Option.bind_eq_some_iff.1 h
      obtain ⟨accepts, submitted, extra, -, rfl⟩ := acceptStep_cases haccept
      exact hgrow _ rfl rfl rfl
    · cases h

/-- A step that leaves the manager's records and the lists of the dial loops alone. -/
private theorem BookOk.keep {ownId : DeviceId} (h : BookOk ownId s) (hroster : s'.roster = s.roster)
    (hdiscovered : s'.discovered = s.discovered) (htodo : s'.todo = s.todo)
    (hdialed : ∀ p t addrs, DialedAt s' p t addrs → DialedAt s p t addrs) : BookOk ownId s' := by
  have hbook : ∀ p, s'.book p = s.book p := by
    intro p
    unfold Sys.book
    rw [hroster, hdiscovered]
  refine ⟨?_, ?_⟩
  · rw [htodo, hroster]
    intro q hq hrole htrust
    rw [hbook]
    exact h.right q hq hrole htrust
  · rw [htodo, hroster]
    intro p t addrs hd htrust
    rw [hbook]
    exact h.covered p t addrs (hdialed p t addrs hd) htrust

/-- Between two messages every dial loop of a trusted peer is up to date. -/
private theorem BookOk.idle {ownId : DeviceId} (h : BookOk ownId s) (hw : s.work = .idle) {p : DeviceId} {t : Nat}
    {addrs : List SocketAddr} (hd : DialedAt s p t addrs) (htrust : s.roster.isTrustedId p = true) :
    addrs = s.book p := by
  rcases h.covered p t addrs hd htrust with hbook | ⟨q, hq, -⟩
  · exact hbook
  · rw [Sys.todo, hw] at hq
    cases hq

/-- `Found` replaces the record, and the peer is ensured next if it is trusted. -/
private theorem bookOk_found {ownId : DeviceId} {p : DiscoveredPeer} (h : BookOk ownId s) (hw : s.work = .idle) :
    BookOk ownId (onFound s p) := by
  have htodo : (onFound s p).todo = if s.roster.isTrustedId p.deviceId then [p] else [] := by
    cases htrust : s.roster.isTrustedId p.deviceId <;> simp [Sys.todo, onFound, htrust]
  refine ⟨fun q hq _ _ => ?_, fun q t addrs hd htrust => ?_⟩
  · rw [htodo] at hq
    split at hq
    · cases List.mem_singleton.1 hq
      simp only [Sys.book, onFound, AList.lookup_insert, bookFor]
    · cases hq
  · by_cases hqp : q = p.deviceId
    · right
      have htrust' : s.roster.isTrustedId p.deviceId = true := hqp ▸ htrust
      rw [htodo, if_pos htrust']
      exact ⟨p, List.mem_singleton_self p, hqp.symm⟩
    · left
      have hsame : (onFound s p).book q = s.book q := by
        simp only [Sys.book, onFound, AList.lookup_insert_ne hqp]
      rw [hsame]
      exact h.idle hw hd htrust

/-- `Lost` removes the record, and the peer's dial loop gets the static addresses. -/
private theorem bookOk_lost {ownId : DeviceId} {id : DeviceId} (h : BookOk ownId s) (hatt : Attached ownId s)
    (hw : s.work = .idle) : BookOk ownId (onLost s id) := by
  have htodo : (onLost s id).todo = [] := by
    simp only [Sys.todo, onLost, hw]
  refine ⟨(fun q hq => by rw [htodo] at hq; cases hq), fun q t addrs hd htrust => Or.inl ?_⟩
  obtain ⟨hab, phase, hl⟩ := hd
  -- the list of a loop that `Lost` does not feed
  have hother : q ≠ id → s.tasks.lookup t = some ⟨q, .dial addrs phase⟩ → addrs = (onLost s id).book q := by
    intro hne hl
    have hsame : (onLost s id).book q = s.book q := by
      simp only [Sys.book, onLost, AList.lookup_erase_ne hne]
    rw [hsame]
    exact h.idle hw ⟨hab, phase, hl⟩ htrust
  have hfallback : q = id → addrs = s.roster.staticAddrsFor id → addrs = (onLost s id).book q := by
    rintro rfl heq
    simp only [Sys.book, onLost, AList.lookup_erase, bookFor, heq]
  simp only [onLost] at hl hab
  split at hl
  · rename_i role name connected u task hentry
    obtain ⟨l', hl', hfed, hnot⟩ := lookup_sendAddrs hl
    have hpeer := (hatt.own id _ u hentry (Or.inr rfl)).2
    by_cases htu : t = u
    · subst htu
      exact hfallback (hpeer _ hl') (hfed rfl)
    · rw [← hnot htu] at hl'
      refine hother ?_ hl'
      rintro rfl
      obtain ⟨entry, he, htx, -⟩ := hatt.fed t _ hl' rfl hab
      rw [hentry] at he
      cases he
      exact htu (Option.some.inj htx).symm
  · rename_i hnone
    refine hother ?_ hl
    rintro rfl
    obtain ⟨⟨role, name, connected, tx, task⟩, he, htx, -⟩ := hatt.fed t _ hl rfl hab
    cases htx
    exact hnone role name connected t task he

/-- `RosterChanged` goes through the peers whose list it may change. -/
private theorem bookOk_rosterChanged {ownId : DeviceId} (hseeds : SeedsRight ownId s)
    (hnamed : ∀ p q, s.discovered.lookup p = some q → q.deviceId = p) : BookOk ownId (onRosterChanged s) := by
  have hroster : (onRosterChanged s).roster = s.roster := roster_sweep _ s
  have htasks : (onRosterChanged s).tasks = s.tasks := tasks_sweep _ s
  have hdiscovered : (onRosterChanged s).discovered = s.discovered := by
    obtain ⟨_, _, _, _, heq⟩ := sweep_cases (s.peers.keys.filter fun id => !s.roster.ids.contains id) s
    simp only [onRosterChanged, heq]
  have htodo : (onRosterChanged s).todo = seedPeers s.discovered s.roster := by
    rw [← hroster, ← hdiscovered]
    rfl
  have hbook : ∀ p, (onRosterChanged s).book p = s.book p := by
    intro p
    unfold Sys.book
    rw [hroster, hdiscovered]
  refine ⟨fun q hq hrole _ => ?_, fun p t addrs hd htrust => ?_⟩
  · rw [htodo] at hq
    rw [hbook, hroster]
    obtain ⟨id, hfound | ⟨hnone, hfind⟩⟩ := mem_seedPeers.1 hq
    · obtain rfl := hnamed id q hfound
      simp only [Sys.book, hfound, bookFor]
    · obtain rfl : q.deviceId = id := by simpa using List.find?_some hfind
      simp only [Sys.book, hnone, bookFor]
      exact hseeds.record q (List.mem_of_find?_eq_some hfind) hrole hnone
  · rw [hroster] at htrust
    rw [htodo, hbook]
    have hd' : DialedAt s p t addrs := by
      obtain ⟨hab, phase, hl⟩ := hd
      rw [htasks] at hl
      exact ⟨fun hold => hab ((mem_aborted_sweep _ s t).2 (Or.inl hold)), phase, hl⟩
    cases hfound : s.discovered.lookup p with
    | some q =>
      exact Or.inr ⟨q, mem_seedPeers.2 ⟨p, Or.inl hfound⟩, hnamed p q hfound⟩
    | none =>
      rcases hseeds.kept p t addrs hd' htrust hfound with ⟨q, hq, hqp⟩ | heq
      · right
        cases hfind : (staticPeers s.roster).find? (·.deviceId = p) with
        | some q' =>
          exact ⟨q', mem_seedPeers.2 ⟨p, Or.inr ⟨hfound, hfind⟩⟩, by simpa using List.find?_some hfind⟩
        | none =>
          rw [List.find?_eq_none] at hfind
          exact absurd (by simpa using hqp) (hfind q hq)
      · left
        rw [heq, Sys.book, hfound, bookFor]

/-- `ensure_peer` sends the list of the book to the loop of its peer. -/
private theorem bookOk_ensurePeer {ownId : DeviceId} {p : DiscoveredPeer} {rest : List DiscoveredPeer}
    (h : BookOk ownId s) (hatt : Attached ownId s) (hw : s.work = .ensure p rest) :
    BookOk ownId { ensurePeer ownId s p with work := .check rest } := by
  have htodo : s.todo = p :: rest := by rw [Sys.todo, hw]
  have hsame : (ensurePeer ownId s p).roster = s.roster ∧ (ensurePeer ownId s p).discovered = s.discovered ∧
      (ensurePeer ownId s p).aborted = s.aborted := by
    obtain ⟨peers, tasks, n, heq⟩ := ensurePeer_frame ownId s p
    rw [heq]
    exact ⟨rfl, rfl, rfl⟩
  obtain ⟨hroster, hdiscovered, haborted⟩ := hsame
  have hbook : ∀ q, Sys.book { ensurePeer ownId s p with work := .check rest } q = s.book q := by
    intro q
    unfold Sys.book
    dsimp only
    rw [hroster, hdiscovered]
  refine ⟨fun q hq hrole htrust => ?_, fun q t addrs hd htrust => ?_⟩
  · rw [hbook]
    dsimp only at htrust ⊢
    rw [hroster] at htrust ⊢
    exact h.right q (by rw [htodo]; exact List.mem_cons_of_mem _ hq) hrole htrust
  · rw [hbook]
    dsimp only [Sys.todo] at htrust ⊢
    rw [hroster] at htrust
    obtain ⟨hab, phase, hl⟩ := hd
    dsimp only at hab hl
    rw [haborted] at hab
    -- a loop of another peer, or one that was there with the same list
    have hkept : ∀ l, s.tasks.lookup t = some ⟨q, .dial l phase⟩ → q ≠ p.deviceId → addrs = l →
        addrs = s.book q ∨ ∃ q' ∈ rest, q'.deviceId = q := by
      rintro l hl hne rfl
      rcases h.covered q t addrs ⟨hab, phase, hl⟩ htrust with hb | ⟨q', hq', hid⟩
      · exact Or.inl hb
      · rw [htodo] at hq'
        rcases List.mem_cons.1 hq' with rfl | hq'
        · exact absurd hid.symm hne
        · exact Or.inr ⟨q', hq', hid⟩
    -- the loop of `p` gets the list of the book
    have hsent : ∀ l, roleFor ownId p.deviceId = .dialer → q = p.deviceId →
        l = withStatic p.addrs (s.roster.staticAddrsFor p.deviceId) → addrs = l → addrs = s.book q := by
      rintro l hrole rfl rfl rfl
      exact h.right p (by rw [htodo]; exact List.mem_cons_self) hrole htrust
    unfold ensurePeer at hl
    cases hrole : roleFor ownId p.deviceId with
    | acceptor =>
      rw [hrole] at hl
      refine hkept addrs hl ?_ rfl
      rintro rfl
      rw [hatt.kind t _ hl rfl] at hrole
      cases hrole
    | dialer =>
      rw [hrole] at hl
      dsimp only at hl
      split at hl
      · rename_i u htx
        obtain ⟨old, hold, htx⟩ : ∃ old, s.peers.lookup p.deviceId = some old ∧ old.addrsTx = some u := by
          cases hold : s.peers.lookup p.deviceId with
          | none =>
            rw [hold] at htx
            cases htx
          | some old =>
            rw [hold] at htx
            exact ⟨old, rfl, htx⟩
        obtain ⟨l', hl', hfed, hnot⟩ := lookup_sendAddrs hl
        by_cases htu : t = u
        · subst htu
          exact Or.inl (hsent _ hrole ((hatt.own _ old t hold (Or.inr htx)).2 _ hl') rfl (hfed rfl))
        · refine hkept l' hl' ?_ (hnot htu)
          rintro rfl
          obtain ⟨entry, he, htx', -⟩ := hatt.fed t _ hl' rfl hab
          rw [hold] at he
          cases he
          rw [htx] at htx'
          exact htu (Option.some.inj htx').symm
      · rename_i htx
        rcases lookup_insert_eq_some.1 hl with ⟨rfl, heq⟩ | ⟨-, hl⟩
        · cases heq
          exact Or.inl (hsent _ hrole rfl rfl rfl)
        · refine hkept addrs hl ?_ rfl
          rintro rfl
          obtain ⟨entry, he, htx', -⟩ := hatt.fed t _ hl rfl hab
          rw [he] at htx
          rw [show entry.addrsTx = none from htx] at htx'
          cases htx'

theorem process_cases (h : transportStep own s .process = some s') :
    s.work = .idle ∧ ∃ m rest, s.queue = m :: rest ∧ s' = handleInternal own.deviceId { s with queue := rest } m := by
  simp only [transportStep] at h
  split at h
  · rename_i m rest hw hq
    cases h
    exact ⟨hw, m, rest, hq, rfl⟩
  · cases h

/-- Only the startup is before the first record and the first task. -/
private theorem fresh_step (hfresh : s.work = .startup → s.tasks = ∅ ∧ s.discovered = ∅)
    (h : transportStep own s e = some s') (hw : s'.work = .startup) : s'.tasks = ∅ ∧ s'.discovered = ∅ := by
  rcases transportStep_cases h with ⟨_, -, rfl⟩ | ⟨_, _, _, _, _, -, rfl⟩ | ⟨-, hidle, m, rest, hq, rfl⟩ | ⟨-, h⟩ |
    ⟨u, task, hl, h⟩
  · exact hfresh hw
  · exact hfresh hw
  · -- a handler does not start the manager again
    cases m with
    | discovery ev =>
      cases ev with
      | found p =>
        simp only [handleInternal, onFound] at hw
        split at hw <;> cases hw
      | lost id =>
        rw [show (handleInternal own.deviceId { s with queue := rest } (.discovery (.lost id))).work = s.work from rfl,
          hidle] at hw
        cases hw
    | rosterChanged => cases hw
    | inboundReady peer caps =>
      have hsame : (handleInternal own.deviceId { s with queue := rest } (.inboundReady peer caps)).work = s.work := by
        simp only [handleInternal, onInboundReady]
        split <;> rfl
      rw [hsame, hidle] at hw
      cases hw
    | connUp =>
      rw [show (handleInternal own.deviceId { s with queue := rest } _).work = s.work from rfl, hidle] at hw
      cases hw
    | connDown =>
      rw [show (handleInternal own.deviceId { s with queue := rest } _).work = s.work from rfl, hidle] at hw
      cases hw
  · rcases resumeWork_cases h with ⟨work, hne, -, rfl⟩ | ⟨p, rest, -, rfl⟩
    · exact absurd hw hne
    · cases hw
  · have hstart : s.work = .startup := by
      obtain ⟨tasks, extra, n, -, -, rfl⟩ := taskStep_frame h
      exact hw
    rw [(hfresh hstart).1] at hl
    cases hl

/-- The records change only when the manager processes a discovery event. -/
private theorem discovered_step (h : transportStep own s e = some s') :
    (∃ p, s.handledBy e = [.found p] ∧ s'.discovered = s.discovered.insert p.deviceId p) ∨
    (∃ id, s.handledBy e = [.lost id] ∧ s'.discovered = s.discovered.erase id) ∨
    s.handledBy e = [] ∧ s'.discovered = s.discovered := by
  by_cases he : e = .process
  · subst he
    obtain ⟨-, m, rest, hq, rfl⟩ := process_cases h
    cases m with
    | discovery ev =>
      have hhandled : s.handledBy .process = [ev] := by simp only [Sys.handledBy, hq]
      rw [hhandled]
      cases ev with
      | found p => exact Or.inl ⟨p, rfl, rfl⟩
      | lost id => exact Or.inr (Or.inl ⟨id, rfl, rfl⟩)
    | rosterChanged =>
      refine Or.inr (Or.inr ⟨by simp only [Sys.handledBy, hq], ?_⟩)
      obtain ⟨_, _, _, _, heq⟩ := sweep_cases (s.peers.keys.filter fun id => !s.roster.ids.contains id)
        { s with queue := rest }
      simp only [handleInternal, onRosterChanged, heq]
    | inboundReady peer caps =>
      refine Or.inr (Or.inr ⟨by simp only [Sys.handledBy, hq], ?_⟩)
      simp only [handleInternal, onInboundReady]
      split <;> rfl
    | connUp => exact Or.inr (Or.inr ⟨by simp only [Sys.handledBy, hq], rfl⟩)
    | connDown => exact Or.inr (Or.inr ⟨by simp only [Sys.handledBy, hq], rfl⟩)
  · refine Or.inr (Or.inr ⟨?_, ?_⟩)
    · cases e with
      | process => exact absurd rfl he
      | _ => rfl
    · rcases transportStep_cases h with ⟨_, -, rfl⟩ | ⟨_, _, _, _, _, -, rfl⟩ | ⟨hproc, -⟩ | ⟨-, h⟩ | ⟨u, task, hl, h⟩
      · rfl
      · rfl
      · exact absurd hproc he
      · obtain ⟨work, peers, tasks, n, rfl⟩ := resumeWork_frame h
        rfl
      · obtain ⟨tasks, extra, n, -, -, rfl⟩ := taskStep_frame h
        rfl

/-- The manager processes a message. -/
private theorem bookOk_process (hatt : Attached own.deviceId s)
    (hnamed : ∀ p q, s.discovered.lookup p = some q → q.deviceId = p) (h : ¬ s.Pending → BookOk own.deviceId s)
    (hok : SeedsTimely own.deviceId s .process) (hs : transportStep own s .process = some s') (hp : ¬ s'.Pending) :
    BookOk own.deviceId s' := by
  obtain ⟨hw, m, rest, hq, rfl⟩ := process_cases hs
  have hatt' : Attached own.deviceId { s with queue := rest } :=
    ⟨hatt.fresh, hatt.role, hatt.kind, hatt.own, hatt.fed⟩
  have hpop : m ≠ .rosterChanged → ¬ Sys.Pending { s with queue := rest } →
      BookOk own.deviceId { s with queue := rest } := by
    intro hm hp
    refine (h fun hold => hp ?_).keep rfl rfl rfl fun _ _ _ hd => hd
    unfold Sys.Pending at hold ⊢
    rw [hq, List.mem_cons] at hold
    refine hold.imp_right fun hold => hold.imp_right fun hold => ?_
    rcases hold with hold | hold
    · exact absurd hold.symm hm
    · exact hold
  cases m with
  | discovery ev =>
    cases ev with
    | found p => exact bookOk_found (hpop (by simp) hp) hw
    | lost id => exact bookOk_lost (hpop (by simp) hp) hatt' hw
  | rosterChanged =>
    have hp' : ¬ Sys.Pending { s with queue := rest } := by
      obtain ⟨_, _, _, _, heq⟩ := sweep_cases (s.peers.keys.filter fun id => !s.roster.ids.contains id)
        { s with queue := rest }
      simp only [handleInternal, onRosterChanged, heq] at hp
      exact hp
    have hseeds := hok.1 rfl rest hq hp'
    exact bookOk_rosterChanged (s := { s with queue := rest }) ⟨hseeds.record, hseeds.kept⟩ hnamed
  | inboundReady peer caps =>
    simp only [handleInternal, onInboundReady] at hp ⊢
    split at hp
    · exact hpop (by simp) hp
    · refine (hpop (by simp) hp).keep rfl rfl rfl ?_
      rintro p t addrs ⟨hab, phase, hl⟩
      refine ⟨fun hold => hab (List.mem_append_right _ hold), phase, ?_⟩
      dsimp only at hl ⊢
      rcases lookup_insert_eq_some.1 hl with ⟨-, heq⟩ | ⟨-, hl⟩
      · cases heq
      · exact hl
  | connUp => exact (hpop (by simp) hp).keep rfl rfl rfl fun _ _ _ hd => hd
  | connDown => exact (hpop (by simp) hp).keep rfl rfl rfl fun _ _ _ hd => hd

/-- The manager goes on with its handler. -/
private theorem bookOk_resume {ownId : DeviceId} (hatt : Attached ownId s)
    (hfresh : s.work = .startup → s.tasks = ∅ ∧ s.discovered = ∅) (h : BookOk ownId s)
    (hseeds : s.work = .startup → SeedsRight ownId s) (hs : resumeWork ownId s = some s') : BookOk ownId s' := by
  unfold resumeWork at hs
  split at hs
  · -- the static records are read before the loop
    rename_i hw
    cases hs
    obtain ⟨htasks, hdiscovered⟩ := hfresh hw
    refine ⟨fun q hq hrole _ => ?_, fun p t addrs hd _ => ?_⟩
    · have hnone : s.discovered.lookup q.deviceId = none := by
        rw [hdiscovered]
        rfl
      have hrecord := (hseeds hw).record q hq hrole hnone
      simp only [Sys.book, hnone, bookFor]
      exact hrecord
    · obtain ⟨-, phase, hl⟩ := hd
      dsimp only at hl
      rw [htasks] at hl
      cases hl
  · rename_i hw
    cases hs
    exact h.keep rfl rfl (by simp only [Sys.todo, hw]) fun _ _ _ hd => hd
  · rename_i hw
    cases hs
    exact h.keep rfl rfl (by simp only [Sys.todo, hw]) fun _ _ _ hd => hd
  · rename_i p ps hw
    cases hs
    cases htrust : s.roster.isTrustedId p.deviceId with
    | true =>
      refine h.keep rfl rfl ?_ fun _ _ _ hd => hd
      simp only [Sys.todo, hw, if_true]
    | false =>
      -- an untrusted peer is passed over
      have htodo : s.todo = p :: ps := by rw [Sys.todo, hw]
      refine ⟨fun q hq hrole htrust' => ?_, fun q t addrs hd htrust' => ?_⟩
      · exact h.right q (by rw [htodo]; exact List.mem_cons_of_mem _ hq) hrole htrust'
      · rcases h.covered q t addrs hd htrust' with hbook | ⟨q', hq', hid⟩
        · exact Or.inl hbook
        · rw [htodo] at hq'
          rcases List.mem_cons.1 hq' with rfl | hq'
          · rw [← hid] at htrust'
            rw [show s.roster.isTrustedId q'.deviceId = true from htrust'] at htrust
            cases htrust
          · exact Or.inr ⟨q', hq', hid⟩
  · rename_i p rest hw
    cases hs
    exact bookOk_ensurePeer h hatt hw
  · cases hs

private theorem bookOk_step (hatt : Attached own.deviceId s)
    (hfresh : s.work = .startup → s.tasks = ∅ ∧ s.discovered = ∅)
    (hnamed : ∀ p q, s.discovered.lookup p = some q → q.deviceId = p) (h : ¬ s.Pending → BookOk own.deviceId s)
    (hok : SeedsTimely own.deviceId s e) (hs : transportStep own s e = some s') (hp : ¬ s'.Pending) :
    BookOk own.deviceId s' := by
  by_cases he : e = .process
  · subst he
    exact bookOk_process hatt hnamed h hok hs hp
  have hnow : ¬ s.Pending := fun hold => hp (pending_step hs he hold)
  rcases transportStep_cases hs with ⟨_, -, rfl⟩ | ⟨_, _, _, _, _, -, rfl⟩ | ⟨hproc, -⟩ | ⟨rfl, hres⟩ |
    ⟨u, task, hl, htask⟩
  · exact absurd (Or.inl rfl) hp
  · exact (h hnow).keep rfl rfl rfl fun _ _ _ hd => hd
  · exact absurd hproc he
  · exact bookOk_resume hatt hfresh (h hnow) (fun hw => hok.2 rfl hw hnow) hres
  · have hsame : s'.roster = s.roster ∧ s'.discovered = s.discovered ∧ s'.work = s.work ∧ s'.aborted = s.aborted := by
      obtain ⟨tasks, extra, n, -, -, rfl⟩ := taskStep_frame htask
      exact ⟨rfl, rfl, rfl, rfl⟩
    obtain ⟨hroster, hdiscovered, hwork, haborted⟩ := hsame
    refine (h hnow).keep hroster hdiscovered (by rw [Sys.todo, hwork, hroster, hdiscovered]; rfl) ?_
    rintro p t addrs ⟨hab, phase, hl'⟩
    exact ⟨haborted ▸ hab, dial_taskStep hl htask hl'⟩

theorem bookkeeping_step {b b' : Booked} (h : Bookkeeping own.deviceId b) (hok : SeedsTimely own.deviceId b.sys e)
    (hs : bookStep own b e = some b') : Bookkeeping own.deviceId b' := by
  obtain ⟨sys, hsys, rfl⟩ := Option.map_eq_some_iff.1 hs
  refine ⟨attached_step h.attached hsys, fresh_step h.fresh hsys, ?_, ?_,
    bookOk_step h.attached h.fresh h.named h.book hok hsys⟩
  · intro p
    dsimp only
    rcases discovered_step hsys with ⟨q, hhandled, heq⟩ | ⟨id, hhandled, heq⟩ | ⟨hhandled, heq⟩
    · rw [hhandled, heq, lastFound_snoc]
      dsimp only
      split
      · rename_i hqp
        rw [← hqp, AList.lookup_insert]
      · rename_i hqp
        rw [AList.lookup_insert_ne (Ne.symm hqp), h.known]
    · rw [hhandled, heq, lastFound_snoc]
      dsimp only
      split
      · rename_i hqp
        rw [← hqp, AList.lookup_erase]
      · rename_i hqp
        rw [AList.lookup_erase_ne (Ne.symm hqp), h.known]
    · rw [hhandled, heq, List.append_nil]
      exact h.known p
  · intro p q hq
    dsimp only at hq
    rcases discovered_step hsys with ⟨q', -, heq⟩ | ⟨id, -, heq⟩ | ⟨-, heq⟩
    · rw [heq] at hq
      rcases lookup_insert_eq_some.1 hq with ⟨rfl, rfl⟩ | ⟨-, hq⟩
      · rfl
      · exact h.named p q hq
    · rw [heq] at hq
      obtain ⟨-, hq⟩ := lookup_erase_eq_some.1 hq
      exact h.named p q hq
    · rw [heq] at hq
      exact h.named p q hq

end Steps

theorem bookkeeping_start (ownId : DeviceId) (roster : RosterInner) : Bookkeeping ownId (.start roster) where
  attached := attached_start ownId roster
  fresh _ := ⟨rfl, rfl⟩
  known p := rfl
  named p q h := by cases h
  book _ := by
    refine ⟨(fun q hq => by cases hq), fun p t addrs hd => ?_⟩
    obtain ⟨-, _, hl⟩ := hd
    cases hl

/-- In every run in which the roster's own records are right whenever they are read for the last time: when no handler
is in progress and no change of the roster is pending, every dial loop of a trusted peer was last sent the addresses
of the last `Found` of the peer that was processed, if it was not lost since, followed by the static addresses that
the roster now has for it; every address of the list is one of these. -/
theorem book_current (own : Hello) (roster : RosterInner) {es : List TEvent} {b : Booked}
    (hr : Run (bookStep own) (fun b e => SeedsTimely own.deviceId b.sys e) (.start roster) es b)
    (hidle : b.sys.work = .idle) (hpending : ¬ b.sys.Pending) {p : DeviceId} {t : Nat} {addrs : List SocketAddr}
    (hd : DialedAt b.sys p t addrs) (htrust : b.sys.roster.isTrustedId p = true) :
    addrs = bookFor (lastFound b.handled p) (b.sys.roster.staticAddrsFor p) ∧
      ∀ a ∈ addrs, (∃ q, lastFound b.handled p = some q ∧ a ∈ q.addrs) ∨ a ∈ b.sys.roster.staticAddrsFor p := by
  have h : Bookkeeping own.deviceId b :=
    hr.invariant (bookkeeping_start own.deviceId roster) fun _ _ _ h hok hs => bookkeeping_step h hok hs
  have hbook : addrs = bookFor (lastFound b.handled p) (b.sys.roster.staticAddrsFor p) := by
    rw [← h.known]
    exact (h.book hpending).idle hidle hd htrust
  refine ⟨hbook, fun a ha => ?_⟩
  rw [hbook] at ha
  exact mem_bookFor.1 ha

/-! ### A static address that was removed -/

/-- `b` in `peers.toml`, with these static addresses. -/
private def rosterB (addrs : List SocketAddr) : List RosterPeer := [⟨"b", "b", Vector.replicate 32 0, addrs⟩]

/-- `b` is dialed at its static address, which an edit of `peers.toml` then removes. -/
private def addressRemoved : List TEvent :=
  [.resume, .resume, .resume, .resume, .reload (rosterB []), .watch, .forward, .process, .resume, .resume]

theorem removed_address_stays :
    ¬ ∀ (own : Hello) (roster : RosterInner) (es : List TEvent) (b : Booked),
      Run (bookStep own) Always (.start roster) es b → b.sys.work = .idle → ¬ b.sys.Pending →
      ∀ p t addrs, DialedAt b.sys p t addrs → b.sys.roster.isTrustedId p = true →
        addrs = bookFor (lastFound b.handled p) (b.sys.roster.staticAddrsFor p) := by
  intro h
  obtain ⟨b, hrun, hview⟩ := run_of_exec_view (bookStep (helloOf "a")) (fun _ => True)
    (.start (.replace (rosterB ["10.0.0.9:47820"]))) addressRemoved
    (fun b => decide (b.sys.work = .idle ∧ ¬ b.sys.Pending ∧ 0 ∉ b.sys.aborted ∧
      b.sys.tasks.lookup 0 = some ⟨"b", .dial ["10.0.0.9:47820"] .top⟩ ∧ b.sys.roster.isTrustedId "b" = true ∧
      bookFor (lastFound b.handled "b") (b.sys.roster.staticAddrsFor "b") = [])) true
    (fun _ _ => trivial) (by decide +kernel)
  obtain ⟨hidle, hpending, hab, hl, htrust, hbook⟩ := of_decide_eq_true hview
  have hstale := h _ _ _ b hrun hidle hpending "b" 0 _ ⟨hab, .top, hl⟩ htrust
  rw [hbook] at hstale
  cases hstale

/-- Every peer with a static address or a dial loop has a record. -/
private def allFound (s : Sys) : Bool :=
  (staticPeers s.roster).all (fun q => (s.discovered.lookup q.deviceId).isSome) &&
    s.tasks.keys.all fun t => (s.tasks.lookup t).all fun task => (s.discovered.lookup task.peer).isSome

private theorem seedsRight_of_allFound {ownId : DeviceId} {s : Sys} (h : allFound s = true) : SeedsRight ownId s := by
  rw [allFound, Bool.and_eq_true, List.all_eq_true, List.all_eq_true] at h
  refine ⟨fun q hq _ hnone => ?_, fun p t addrs hd _ hnone => ?_⟩
  · have hfound := h.1 q hq
    rw [hnone] at hfound
    cases hfound
  · obtain ⟨-, phase, hl⟩ := hd
    have hfound := h.2 t (AList.lookup_isSome.1 (by rw [hl]; rfl))
    rw [hl, Option.all_some, hnone] at hfound
    cases hfound

/-- `b` is found and then gets a static address. -/
private def addressAdded : List TEvent :=
  [.resume, .resume, .discover (.found ⟨"b", "b", ["10.0.0.2:47820"]⟩), .process, .resume, .resume,
    .reload (rosterB ["10.0.0.9:47820"]), .watch, .forward, .process, .resume, .resume, .resume, .resume]

theorem book_current_added :
    ∃ b, Run (bookStep (helloOf "a")) (fun b e => SeedsTimely "a" b.sys e) (.start (.replace (rosterB [])))
        addressAdded b ∧
      DialedAt b.sys "b" 0 ["10.0.0.2:47820", "10.0.0.9:47820"] ∧
      ["10.0.0.2:47820", "10.0.0.9:47820"] =
        bookFor (lastFound b.handled "b") (b.sys.roster.staticAddrsFor "b") := by
  obtain ⟨b, hrun, hview⟩ := run_of_exec_checked (bookStep (helloOf "a"))
    (fun b e => e = .process ∧ b.sys.queue.head? = some .rosterChanged ∨ e = .resume ∧ b.sys.work = .startup →
      allFound b.sys = true)
    (.start (.replace (rosterB []))) addressAdded
    (fun b => decide (b.sys.work = .idle ∧ ¬ b.sys.Pending ∧ 0 ∉ b.sys.aborted ∧
      b.sys.tasks.lookup 0 = some ⟨"b", .dial ["10.0.0.2:47820", "10.0.0.9:47820"] .top⟩ ∧
      b.sys.roster.isTrustedId "b" = true)) true (by decide +kernel)
  obtain ⟨hidle, hpending, hab, hl, htrust⟩ := of_decide_eq_true hview
  have hrun : Run (bookStep (helloOf "a")) (fun b e => SeedsTimely "a" b.sys e) (.start (.replace (rosterB [])))
      addressAdded b := by
    refine hrun.mono fun b e hok => ⟨fun he rest hq _ => ?_, fun he hw _ => ?_⟩
    · exact seedsRight_of_allFound (hok (Or.inl ⟨he, by rw [hq]; rfl⟩))
    · exact seedsRight_of_allFound (hok (Or.inr ⟨he, hw⟩))
  have hd : DialedAt b.sys "b" 0 ["10.0.0.2:47820", "10.0.0.9:47820"] := ⟨hab, .top, hl⟩
  exact ⟨b, hrun, hd, (book_current (helloOf "a") _ hrun hidle hpending hd htrust).1⟩

end Qdrop
