import Qdrop.Transport.Entries
import Qdrop.Transport.Pinned

/-!
# Re-pairing under a new key

`RosterChanged` compares the ids of its entries with those of the roster.  A device that was paired again with a fresh
key keeps its id, so its entry stays, and with it a connection that was authenticated with the old key
(`old_key_survives`).  `rekeyed_dropped` is about every run: the connections left by a sweep are those of the keys the
roster pins exactly if no connected device was paired again under another key and every connection of an unpaired
device is the one its entry refers to.
-/

namespace Qdrop

open Lib

/-- The key with which the connection of the task was authenticated. -/
def Sessions.keyOf (k : Sessions) (t : Nat) : Option Key :=
  (k.sys.tasks.lookup t).bind fun task => task.conn.bind fun c => (k.links.lookup c.id).map (·.key)

/-- The manager processes a `RosterChanged`. -/
def Sweeps (k : Sessions) (e : SessionEvent) : Prop :=
  e = .other .process ∧ ∃ rest, k.sys.queue = .rosterChanged :: rest

/-- Every live connection was authenticated with the key that the roster maps its device to. -/
def KeysCurrent (k : Sessions) : Prop :=
  ∀ p t, Live k.sys p t → ∃ key, k.keyOf t = some key ∧ k.sys.roster.keyForId p = some key

/-- When a `RosterChanged` is processed, a live connection has the key that the roster has for its device, or the
device is not in the roster and its entry refers to the connection. -/
def SweepCovers (k : Sessions) (e : SessionEvent) : Prop :=
  Sweeps k e → ∀ p t, Live k.sys p t →
    match k.sys.roster.keyForId p with
    | some key => k.keyOf t = some key
    | none => ∃ entry, k.sys.peers.lookup p = some entry ∧ entry.task = some t

/-! ### Every connection has a session -/

/-- The id an `InboundReady` was submitted under. -/
def Internal.inbound : Internal → Option DeviceId
  | .inboundReady peer _ => some peer.deviceId
  | _ => none

/-- The session of a connection: a dial loop pinned its key, and an accept task submitted it under the id of the
peer. -/
def Authenticated (k : Sessions) (task : Task) (link : PeerLink) : Prop :=
  if task.isDial then PinnedLink k.passes task.peer link
  else ∃ sub ∈ k.sys.submitted, sub.deviceId = task.peer ∧ sub.key = link.key

section Steps

variable {own : Hello} {s s' : Sys} {e : TEvent}

private theorem inbound_taskStep {t : Nat} {task : Task} (h : taskStep own s t task e = some s') :
    ∃ extra, (∀ m ∈ extra, m.inbound = none) ∧ s'.queue = s.queue ++ extra ∧ s'.submitted = s.submitted := by
  obtain ⟨tasks, extra, n, hsender, -, rfl⟩ := taskStep_frame h
  refine ⟨extra, fun m hm => ?_, rfl, rfl⟩
  -- an `InboundReady` has no task for its sender
  have hm := hsender m hm
  cases m with
  | inboundReady => cases hm
  | discovery | rosterChanged | connUp | connDown => rfl

private theorem inbound_sweep (ids : List DeviceId) (s : Sys) :
    (ids.foldl dropPeer s).queue = s.queue ∧ (ids.foldl dropPeer s).submitted = s.submitted := by
  obtain ⟨_, _, _, _, heq⟩ := sweep_cases ids s
  rw [heq]
  exact ⟨rfl, rfl⟩

private theorem inbound_handleInternal (ownId : DeviceId) (s : Sys) (m : Internal) :
    (handleInternal ownId s m).queue = s.queue ∧ (handleInternal ownId s m).submitted = s.submitted := by
  cases m with
  | discovery ev => cases ev <;> exact ⟨rfl, rfl⟩
  | rosterChanged => exact inbound_sweep _ s
  | inboundReady peer caps =>
    simp only [handleInternal, onInboundReady]
    split <;> exact ⟨rfl, rfl⟩
  | connUp => exact ⟨rfl, rfl⟩
  | connDown => exact ⟨rfl, rfl⟩

private theorem inbound_resumeWork {ownId : DeviceId} (h : resumeWork ownId s = some s') :
    s'.queue = s.queue ∧ s'.submitted = s.submitted := by
  obtain ⟨work, peers, tasks, n, rfl⟩ := resumeWork_frame h
  exact ⟨rfl, rfl⟩

/-- What a step that takes no message from the queue adds to it: an `InboundReady` comes with its submission. -/
private def Submits (s s' : Sys) : Prop :=
  (∃ extra, (∀ m ∈ extra, Internal.inbound m = none) ∧ s'.queue = s.queue ++ extra ∧ s'.submitted = s.submitted) ∨
    ∃ peer caps sub, sub.deviceId = peer.deviceId ∧ s'.queue = s.queue ++ [.inboundReady peer caps] ∧
      s'.submitted = s.submitted ++ [sub]

private theorem Submits.silent (hq : s'.queue = s.queue) (hsub : s'.submitted = s.submitted) : Submits s s' :=
  Or.inl ⟨[], by simp, by rw [hq, List.append_nil], hsub⟩

private theorem submits_acceptStep {k : Nat} {a : AcceptTask} (h : acceptStep own s k a e = some s') :
    Submits s s' := by
  unfold acceptStep at h
  split at h
  · split at h
    · cases h
      exact .silent rfl rfl
    · cases h
  · split at h
    · cases h
      exact .silent rfl rfl
    · cases h
  · split at h
    · cases h
      exact .silent rfl rfl
    · cases h
  · split at h
    · split at h
      · rename_i shake _
        have h := push_eq_some h
        exact Or.inr ⟨shake.peer, shake.effectiveCaps, _, rfl, by rw [h], by rw [h]⟩
      · cases h
        exact .silent rfl rfl
    · cases h
  · cases h
    exact .silent rfl rfl
  · cases h

/-- The manager takes a message, or it takes none and what is queued is accounted for. -/
private theorem inbound_cases (h : transportStep own s e = some s') :
    (e = .process ∧ ∃ m, s.queue = m :: s'.queue ∧ s'.submitted = s.submitted) ∨ e ≠ .process ∧ Submits s s' := by
  unfold transportStep at h
  split at h
  · cases h
    exact Or.inr ⟨by simp, .silent rfl rfl⟩
  · split at h
    · cases h
      exact Or.inr ⟨by simp, .silent rfl rfl⟩
    · cases h
  · split at h
    · rw [push_eq_some h]
      exact Or.inr ⟨by simp, Or.inl ⟨[_], by simp [Internal.inbound], rfl, rfl⟩⟩
    · cases h
  · rw [push_eq_some h]
    exact Or.inr ⟨by simp, Or.inl ⟨[_], by simp [Internal.inbound], rfl, rfl⟩⟩
  · split at h
    · rename_i m rest _ hq
      cases h
      obtain ⟨hqueue, hsub⟩ := inbound_handleInternal own.deviceId { s with queue := rest } m
      exact Or.inl ⟨rfl, m, by rw [hqueue, hq], hsub⟩
    · cases h
  · obtain ⟨hqueue, hsub⟩ := inbound_resumeWork h
    exact Or.inr ⟨by simp, .silent hqueue hsub⟩
  · split at h
    · cases h
    · cases h
      exact Or.inr ⟨by simp, .silent rfl rfl⟩
  · rename_i hprocess _ _
    refine Or.inr ⟨fun he => hprocess he, ?_⟩
    split at h
    · obtain ⟨task, -, htask⟩ := Option.bind_eq_some_iff.1 h
      exact Or.inl (inbound_taskStep htask)
    · obtain ⟨a, -, haccept⟩ := Option.bind_eq_some_iff.1 h
      exact submits_acceptStep haccept
    · cases h

end Steps

/-- The submissions whose `InboundReady` is still queued are the last ones, and every inbound connection has the
session of one. -/
private structure Linked (k : Sessions) : Prop where
  pending : k.sys.queue.filterMap Internal.inbound = (k.sys.submitted.drop k.taken).map (·.deviceId)
  taken : k.taken ≤ k.sys.submitted.length
  accepted : ∀ t task c, k.sys.tasks.lookup t = some task → task.isDial = false → task.conn = some c →
    ∃ link, k.links.lookup c.id = some link ∧ ∃ sub ∈ k.sys.submitted, sub.deviceId = task.peer ∧ sub.key = link.key

section Links

variable {own : Hello} {k k' : Sessions}

/-- The next submission is that of the `InboundReady` at the head of the queue. -/
private theorem Linked.next (h : Linked k) {peer : Hello} {caps : Caps} {rest : List Internal}
    (hq : k.sys.queue = .inboundReady peer caps :: rest) :
    ∃ sub, k.sys.submitted[k.taken]? = some sub ∧ sub.deviceId = peer.deviceId ∧ k.taken < k.sys.submitted.length ∧
      rest.filterMap Internal.inbound = (k.sys.submitted.drop (k.taken + 1)).map (·.deviceId) := by
  have hpending := h.pending
  rw [hq, List.filterMap_cons_some (f := Internal.inbound) (b := peer.deviceId) rfl] at hpending
  have hlt : k.taken < k.sys.submitted.length := by
    by_contra hge
    rw [List.drop_eq_nil_of_le (by omega)] at hpending
    cases hpending
  rw [List.drop_eq_getElem_cons hlt, List.map_cons, List.cons.injEq] at hpending
  exact ⟨_, List.getElem?_eq_getElem hlt, hpending.1.symm, hlt, hpending.2⟩

/-- A step that takes no message keeps the count and the sessions. -/
private theorem note_of_ne (own : Hello) (k : Sessions) (sys : Sys) {e : TEvent} (he : e ≠ .process) :
    (k.note own sys e).sys = sys ∧ (k.note own sys e).taken = k.taken ∧ (k.note own sys e).links = k.links := by
  cases e with
  | process => exact absurd rfl he
  | _ => exact ⟨rfl, rfl, rfl⟩

/-- A connection task goes on, or it drives the inbound connection the manager has just taken. -/
private theorem drive_origin {s s' : Sys} {e : TEvent} (hhello : ∀ t addr first, e ≠ .dialHello t addr first)
    (h : transportStep own s e = some s') {t : Nat} {task' : Task} (hl : s'.tasks.lookup t = some task')
    (hd : task'.isDial = false) :
    (∃ task, s.tasks.lookup t = some task ∧ task.Continues task') ∨
      ∃ peer caps rest c, e = .process ∧ s.queue = .inboundReady peer caps :: rest ∧
        roleFor own.deviceId peer.deviceId = .acceptor ∧ task'.peer = peer.deviceId ∧ task'.conn = some c ∧
        c.id = s.nextConn := by
  by_cases hread : ∃ u, e = .dialRead u
  · obtain ⟨u, rfl⟩ := hread
    obtain ⟨peer, addrs, hu, hcases⟩ := dialRead_cases h
    -- the loop itself goes on dialing
    have hother : ∀ next : Task, next.isDial = true → s'.tasks = s.tasks.insert u next →
        ∃ task, s.tasks.lookup t = some task ∧ task.Continues task' := by
      intro next hnext heq
      rw [heq] at hl
      rcases lookup_insert_eq_some.1 hl with ⟨rfl, rfl⟩ | ⟨-, hl⟩
      · rw [hnext] at hd
        cases hd
      · exact ⟨task', hl, .refl task'⟩
    rcases hcases with ⟨expect, -, rfl⟩ | rfl
    · exact Or.inl (hother _ rfl rfl)
    · exact Or.inl (hother _ rfl rfl)
  · rcases task_origin (fun u he => hread ⟨u, he⟩) hhello h hl with hcont | ⟨hd', -⟩ |
      ⟨-, he, peer, caps, rest, c, hq, hrole, hpeer, hc, hid, -⟩
    · exact Or.inl hcont
    · rw [hd] at hd'
      cases hd'
    · exact Or.inr ⟨peer, caps, rest, c, he, hq, hrole, hpeer, hc, hid⟩

/-- The session of a connection that goes on, when the sessions of the connections so far are kept. -/
private theorem Linked.continue (h : Linked k) (hpin : OnlyPinned k) {t : Nat} {task task' : Task} {c : Conn}
    (hl : k.sys.tasks.lookup t = some task) (hcont : task.Continues task') (hd : task'.isDial = false)
    (hc : task'.conn = some c) (hlinks : ∀ id, id < k.sys.nextConn → k'.links.lookup id = k.links.lookup id)
    (hsub : k.sys.submitted ⊆ k'.sys.submitted) :
    ∃ link, k'.links.lookup c.id = some link ∧
      ∃ sub ∈ k'.sys.submitted, sub.deviceId = task'.peer ∧ sub.key = link.key := by
  obtain ⟨c₀, hc₀, hid⟩ := hcont.conn c hc
  obtain ⟨link, hlink, sub, hmem, hpeer, hkey⟩ := h.accepted t task c₀ hl (hcont.isDial ▸ hd) hc₀
  refine ⟨link, ?_, sub, hsub hmem, by rw [hcont.peer, hpeer], hkey⟩
  rw [← hid, hlinks c₀.id ((hpin.tasks t task hl).fresh c₀ hc₀), hlink]

private theorem linked_connect {t : Nat} {addr : SocketAddr} {cert : ServerCert}
    {first : Option (Except String Message)} (h : Linked k) (hpin : OnlyPinned k)
    (hs : sessionStep own k (.connect t addr cert first) = some k') : Linked k' := by
  simp only [sessionStep] at hs
  split at hs
  · cases hs
  rename_i task hl
  split at hs
  · cases hs
  rename_i expect he
  split at hs
  · cases hs
    exact h
  rename_i key hkey
  obtain ⟨sys, hsys, rfl⟩ := Option.map_eq_some_iff.1 hs
  obtain ⟨peer, addrs, expect, candidates, hl', hcases⟩ := dialHello_cases hsys
  obtain rfl := Option.some.inj (hl.symm.trans hl')
  rcases hcases with ⟨shake, hshake, rfl⟩ | ⟨⟨err, herr⟩, rfl⟩
  · rw [hshake]
    refine ⟨h.pending, h.taken, fun u task' c hu hd hc => ?_⟩
    rcases lookup_insert_eq_some.1 hu with ⟨rfl, rfl⟩ | ⟨-, hu⟩
    · cases hd
    · refine h.continue hpin hu (.refl task') hd hc (fun id hlt => ?_) (List.Subset.refl _)
      exact AList.lookup_insert_ne (Nat.ne_of_lt hlt)
  · rw [herr]
    exact h

/-- A step of the system that takes no message. -/
private theorem linked_submits {e : TEvent} {sys : Sys} (h : Linked k) (hpin : OnlyPinned k)
    (hhello : ∀ t addr first, e ≠ .dialHello t addr first) (he : e ≠ .process)
    (hsys : transportStep own k.sys e = some sys) (hsub : Submits k.sys sys) : Linked (k.note own sys e) := by
  obtain ⟨hnote, htaken, hlinks⟩ := note_of_ne own k sys he
  have hgrow : k.sys.submitted ⊆ sys.submitted := by
    rcases hsub with ⟨_, -, -, heq⟩ | ⟨_, _, _, -, -, heq⟩
    · rw [heq]
      exact List.Subset.refl _
    · rw [heq]
      exact List.subset_append_left _ _
  refine ⟨?_, ?_, fun t task' c hl hd hc => ?_⟩
  · rw [hnote, htaken]
    rcases hsub with ⟨extra, hextra, hq, heq⟩ | ⟨peer, caps, sub, hid, hq, heq⟩
    · rw [hq, heq, List.filterMap_append, h.pending, List.filterMap_eq_nil_iff.2 hextra, List.append_nil]
    · rw [hq, heq, List.filterMap_append, h.pending, List.drop_append_of_le_length h.taken, List.map_append]
      simp [Internal.inbound, hid]
  · rw [hnote, htaken]
    rcases hsub with ⟨_, -, -, heq⟩ | ⟨_, _, _, -, -, heq⟩
    · rw [heq]
      exact h.taken
    · rw [heq, List.length_append]
      exact Nat.le_add_right_of_le h.taken
  · rw [hnote] at hl
    rcases drive_origin hhello hsys hl hd with ⟨task, hl₀, hcont⟩ | ⟨_, _, _, _, hproc, -⟩
    · refine h.continue hpin hl₀ hcont hd hc (fun id _ => by rw [hlinks]) ?_
      rw [hnote]
      exact hgrow
    · exact absurd hproc he

/-- The manager takes a message: an `InboundReady` is followed by its connection. -/
private theorem linked_process {sys : Sys} (h : Linked k) (hpin : OnlyPinned k)
    (hsys : transportStep own k.sys .process = some sys) {m : Internal} (hq : k.sys.queue = m :: sys.queue)
    (hsub : sys.submitted = k.sys.submitted) : Linked (k.note own sys .process) := by
  have hpending := h.pending
  rw [hq] at hpending
  by_cases hm : ∃ peer caps, m = .inboundReady peer caps
  · obtain ⟨peer, caps, rfl⟩ := hm
    obtain ⟨sub, hnext, hid, hlt, hrest⟩ := h.next hq
    rw [Sessions.note_inboundReady hq hnext]
    refine ⟨?_, ?_, fun t task' c hl hd hc => ?_⟩
    · rw [hsub]
      exact hrest
    · rw [hsub]
      exact hlt
    · rcases drive_origin (by simp) hsys hl hd with ⟨task, hl₀, hcont⟩ |
        ⟨peer', caps', rest', c', -, hq', hrole, hpeer, hc', hnew⟩
      · refine h.continue hpin hl₀ hcont hd hc (fun id hlt => ?_) (by rw [hsub]; exact List.Subset.refl _)
        dsimp only
        split
        · exact AList.lookup_insert_ne (Nat.ne_of_lt hlt)
        · rfl
      · rw [hq] at hq'
        cases hq'
        rw [hc] at hc'
        cases hc'
        rw [hrole, hnew]
        refine ⟨_, AList.lookup_insert _, sub, ?_, by rw [hid, hpeer], rfl⟩
        rw [hsub]
        exact List.mem_of_getElem? hnext
  · have hnone : m.inbound = none := by
      cases m with
      | inboundReady peer caps => exact absurd ⟨peer, caps, rfl⟩ hm
      | _ => rfl
    have hnote : k.note own sys .process = { k with sys := sys } := by
      unfold Sessions.note
      rw [hq]
      cases m with
      | inboundReady peer caps => exact absurd ⟨peer, caps, rfl⟩ hm
      | _ => rfl
    rw [hnote]
    refine ⟨?_, by rw [hsub]; exact h.taken, fun t task' c hl hd hc => ?_⟩
    · rw [List.filterMap_cons_none hnone] at hpending
      rw [hsub]
      exact hpending
    · rcases drive_origin (by simp) hsys hl hd with ⟨task, hl₀, hcont⟩ | ⟨peer, caps, _, _, -, hq', -⟩
      · exact h.continue hpin hl₀ hcont hd hc (fun _ _ => rfl) (by rw [hsub]; exact List.Subset.refl _)
      · rw [hq] at hq'
        cases hq'
        exact absurd ⟨peer, caps, rfl⟩ hm

private theorem linked_step {e : SessionEvent} (h : Linked k) (hpin : OnlyPinned k)
    (hs : sessionStep own k e = some k') : Linked k' := by
  cases e with
  | connect t addr cert first => exact linked_connect h hpin hs
  | other e =>
    by_cases hhello : ∃ t addr first, e = .dialHello t addr first
    · obtain ⟨t, addr, first, rfl⟩ := hhello
      cases hs
    have hhello' : ∀ t addr first, e ≠ .dialHello t addr first := fun t addr first he => hhello ⟨t, addr, first, he⟩
    rw [sessionStep_other hhello'] at hs
    obtain ⟨sys, hsys, rfl⟩ := Option.map_eq_some_iff.1 hs
    rcases inbound_cases hsys with ⟨rfl, m, hq, hsub⟩ | ⟨he, hsub⟩
    · exact linked_process h hpin hsys hq hsub
    · exact linked_submits h hpin hhello' he hsys hsub

end Links

/-! ### The sweep -/

section Sweep

variable {own : Hello} {k k' : Sessions} {e : SessionEvent}

private theorem sweep_eq {rest : List Internal} (hq : k.sys.queue = .rosterChanged :: rest)
    (hs : sessionStep own k (.other .process) = some k') :
    k' = { k with sys := onRosterChanged { k.sys with queue := rest } } := by
  rw [sessionStep_other (by simp)] at hs
  obtain ⟨sys, hsys, rfl⟩ := Option.map_eq_some_iff.1 hs
  have hsys' : sys = onRosterChanged { k.sys with queue := rest } := by
    simp only [transportStep] at hsys
    split at hsys
    · rename_i hq'
      rw [hq] at hq'
      cases hq'
      cases hsys
      rfl
    · cases hsys
  rw [← hsys']
  simp only [Sessions.note, hq]

/-- What the sweep leaves has the keys of the roster exactly if the sweep covers what has not. -/
private theorem sweep_iff (h : Attached own.deviceId k.sys) (hs : sessionStep own k e = some k') :
    (Sweeps k e → KeysCurrent k') ↔ SweepCovers k e := by
  refine forall_congr' fun ⟨he, rest, hq⟩ => ?_
  subst he
  obtain rfl := sweep_eq hq hs
  have hpop : Attached own.deviceId { k.sys with queue := rest } := ⟨h.fresh, h.role, h.kind, h.own, h.fed⟩
  have hroster : (onRosterChanged { k.sys with queue := rest }).roster = k.sys.roster := roster_sweep _ _
  have htasks : (onRosterChanged { k.sys with queue := rest }).tasks = k.sys.tasks := tasks_sweep _ _
  have hkey : ∀ t, Sessions.keyOf { k with sys := onRosterChanged { k.sys with queue := rest } } t = k.keyOf t := by
    intro t
    simp only [Sessions.keyOf, htasks]
  refine forall_congr' fun p => forall_congr' fun t => ?_
  rw [live_onRosterChanged hpop, hkey, hroster]
  have htrust : k.sys.roster.isTrustedId p = (k.sys.roster.keyForId p).isSome := rfl
  dsimp only
  rw [htrust]
  cases hk : k.sys.roster.keyForId p with
  | some key =>
    constructor
    · intro hcur hlive
      obtain ⟨key', hkey', heq⟩ := hcur ⟨hlive, fun hu => by cases hu.1⟩
      cases heq
      exact hkey'
    · rintro hcovers ⟨hlive, -⟩
      exact ⟨key, hcovers hlive, rfl⟩
  | none =>
    constructor
    · intro hcur hlive
      by_contra hentry
      obtain ⟨key, -, heq⟩ := hcur ⟨hlive, fun hu => hentry hu.2⟩
      cases heq
    · rintro hcovers ⟨hlive, hkeep⟩
      exact absurd ⟨rfl, hcovers hlive⟩ hkeep

end Sweep

/-- Every connection of every run has the key with which its device was authenticated, and after every `RosterChanged`
of a run the connections left have the keys the roster then maps their devices to exactly if every sweep of the run
covers the others: no device with a live connection is in the roster with another key, and every live connection of a
device that is not in the roster is the one its entry refers to. -/
theorem rekeyed_dropped (own : Hello) (roster : RosterInner) {es : List SessionEvent} {k : Sessions}
    (hr : Run (sessionStep own) Always (.start roster) es k) :
    (∀ t task c, k.sys.tasks.lookup t = some task → task.conn = some c →
      ∃ link, k.links.lookup c.id = some link ∧ Authenticated k task link) ∧
    (EveryStep (sessionStep own) (fun k e k' => Sweeps k e → KeysCurrent k') (.start roster) es ↔
      Run (sessionStep own) SweepCovers (.start roster) es k) := by
  constructor
  · have hpin : OnlyPinned k := onlyPinned_run hr
    have hlinked : OnlyPinned k ∧ Linked k := by
      refine hr.invariant (I := fun k => OnlyPinned k ∧ Linked k)
        ⟨onlyPinned_start roster, rfl, le_rfl, fun t task c h => by cases h⟩ ?_
      exact fun _ _ _ h _ hs => ⟨onlyPinned_step h.1 hs, linked_step h.2 h.1 hs⟩
    intro t task c hl hc
    cases hd : task.isDial with
    | true =>
      obtain ⟨link, hlink, hpinned⟩ := (hpin.tasks t task hl).pinned hd c hc
      exact ⟨link, hlink, by rw [Authenticated, if_pos hd]; exact hpinned⟩
    | false =>
      obtain ⟨link, hlink, hsub⟩ := hlinked.2.accepted t task c hl hd hc
      exact ⟨link, hlink, by rw [Authenticated, if_neg (by rw [hd]; simp)]; exact hsub⟩
  · refine hr.everyStep_iff (I := fun k => Attached own.deviceId k.sys) (attached_start _ roster) ?_ ?_
    · intro k e k' h hs
      rcases sessionStep_sys hs with heq | ⟨te, hte⟩
      · rw [heq]
        exact h
      · exact attached_step h hte
    · exact fun k e k' h hs => sweep_iff h hs

/-! ### The old key stays connected -/

def oneKey : Key := Vector.replicate 32 1

/-- `b` is connected, and the roster is replaced by `peers`. -/
private def connectedThen (peers : List RosterPeer) : List SessionEvent :=
  dialedB zeroKey ++ [.other .process, .other (.reload peers), .other .watch, .other .forward]

theorem old_key_survives :
    ¬ ∀ (own : Hello) (roster : RosterInner) (es : List SessionEvent) (k : Sessions),
      Run (sessionStep own) Always (.start roster) es k →
      EveryStep (sessionStep own) (fun k e k' => Sweeps k e → KeysCurrent k') (.start roster) es := by
  intro h
  obtain ⟨u, hu, hview⟩ := run_of_exec_view (sessionStep (helloOf "a")) (fun _ => True)
    (.start (.replace (pairedWithB zeroKey []))) (connectedThen (pairedWithB oneKey []))
    (fun k => (decide (k.sys.queue = [.rosterChanged]), (sessionStep (helloOf "a") k (.other .process)).map
      fun k' : Sessions =>
        decide (Live k'.sys "b" 0 ∧ k'.keyOf 0 = some zeroKey ∧ k'.sys.roster.keyForId "b" = some oneKey)))
    (true, some true) (fun _ _ => trivial) (by decide +kernel)
  simp only [Prod.mk.injEq, decide_eq_true_eq] at hview
  obtain ⟨hq, hstep⟩ := hview
  obtain ⟨v, hs, hv⟩ := Option.map_eq_some_iff.1 hstep
  obtain ⟨hlive, hkey, hpinned⟩ := of_decide_eq_true hv
  have hrun : Run (sessionStep (helloOf "a")) Always _ _ v := Run.snoc hu trivial hs
  obtain ⟨key, hkey', hpinned'⟩ :=
    h _ _ _ _ hrun (connectedThen (pairedWithB oneKey [])) _ [] u v rfl hu hs ⟨rfl, [], hq⟩ "b" 0 hlive
  rw [hkey] at hkey'
  rw [hpinned] at hpinned'
  cases hkey'
  exact absurd hpinned' (by decide)

/-- `b` is connected and unpaired. -/
theorem rekeyed_dropped_unpaired :
    ∃ k, Run (sessionStep (helloOf "a")) Always (.start (.replace (pairedWithB zeroKey [])))
        (connectedThen [] ++ [.other .process]) k ∧
      EveryStep (sessionStep (helloOf "a")) (fun k e k' => Sweeps k e → KeysCurrent k')
        (.start (.replace (pairedWithB zeroKey []))) (connectedThen [] ++ [.other .process]) := by
  obtain ⟨k, hrun, -⟩ := run_of_exec_checked (sessionStep (helloOf "a"))
    (fun k _ => k.sys.queue.head? = some .rosterChanged → k.sys.tasks.keys = [0] ∧
      (k.sys.tasks.lookup 0).map (·.peer) = some "b" ∧ k.sys.roster.keyForId "b" = none ∧
      (k.sys.peers.lookup "b").bind (·.task) = some 0)
    (.start (.replace (pairedWithB zeroKey []))) (connectedThen [] ++ [.other .process]) (fun _ => ()) ()
    (by decide +kernel)
  refine ⟨k, hrun.always, ((rekeyed_dropped _ _ hrun.always).2).2 ?_⟩
  refine hrun.mono fun k e hok hsweep p t hlive => ?_
  obtain ⟨-, rest, hq⟩ := hsweep
  obtain ⟨hkeys, hpeer, hgone, hentry⟩ := hok (by rw [hq]; rfl)
  obtain ⟨task, hl, rfl, -, -⟩ := hlive
  have ht : t = 0 := by
    have hmem : t ∈ k.sys.tasks.keys := AList.lookup_isSome.1 (by rw [hl]; rfl)
    rw [hkeys] at hmem
    exact List.mem_singleton.1 hmem
  subst ht
  have hb : task.peer = "b" := by
    rw [hl] at hpeer
    exact Option.some.inj hpeer
  rw [hb, hgone]
  exact Option.bind_eq_some_iff.1 hentry

end Qdrop
