import Qdrop.Transport.Live

/-!
# Unpairing and connections in flight

`RosterChanged` drops the entries of the peers that are no longer trusted, which ends their connections.  An
`InboundReady` that an accept task validated against the older roster may still be in the queue (or be submitted
later), and its handler does not ask the roster again (`unpaired_peer_connects`).  `unpaired_stays_disconnected`
shows that with this `InboundReady` and the `ConnDown` of `Qdrop.Transport.Live` excluded, no connection of the peer
is started or left running until it is trusted again.
-/

namespace Qdrop

open Lib

/-- No `InboundReady` of a peer that has been swept is processed. -/
def NoStaleInbound (s : Sys) (e : TEvent) : Prop :=
  e = .process → ∀ peer caps rest, s.queue = .inboundReady peer caps :: rest → s.swept peer.deviceId = false

/-- A swept peer is not trusted, has no entry, and is not about to get one. -/
private structure Swept (s : Sys) : Prop where
  untrusted : ∀ p, s.swept p = true → s.roster.isTrustedId p = false
  absent : ∀ p, s.swept p = true → s.peers.lookup p = none
  ensured : ∀ p rest, s.work = .ensure p rest → s.swept p.deviceId = false

section Preservation

variable {ownId : DeviceId} {s s' : Sys}

/-- The roster and the swept peers stay, no entry is added, and no peer is about to get one. -/
private theorem Swept.keep (h : Swept s) (hroster : s'.roster = s.roster) (hswept : s'.swept = s.swept)
    (hpeers : ∀ p, s.peers.lookup p = none → s'.peers.lookup p = none)
    (hwork : ∀ p rest, s'.work = .ensure p rest →
      s.work = .ensure p rest ∨ s.roster.isTrustedId p.deviceId = true) : Swept s' where
  untrusted p hp := by
    rw [hswept] at hp
    rw [hroster]
    exact h.untrusted p hp
  absent p hp := by
    rw [hswept] at hp
    exact hpeers p (h.absent p hp)
  ensured p rest hw := by
    rw [hswept]
    rcases hwork p rest hw with hw | ht
    · exact h.ensured p rest hw
    · cases hs : s.swept p.deviceId with
      | false => rfl
      | true =>
        rw [h.untrusted p.deviceId hs] at ht
        cases ht

private theorem lookup_insert_none {peers : AList (fun _ : DeviceId => PeerEntry)} {p q : DeviceId}
    {entry : PeerEntry} (hp : peers.lookup p ≠ none) (hq : peers.lookup q = none) :
    (peers.insert p entry).lookup q = none := by
  refine AList.lookup_insert_eq_none.2 ⟨?_, hq⟩
  rintro rfl
  exact hp hq

theorem lookup_dropPeer (s : Sys) (id q : DeviceId) :
    (dropPeer s id).peers.lookup q = if q = id then none else s.peers.lookup q := by
  unfold dropPeer
  cases hl : s.peers.lookup id with
  | none =>
    dsimp only
    split
    · rename_i hq
      rw [hq, hl]
    · rfl
  | some entry =>
    dsimp only
    split
    · rename_i hq
      rw [hq, AList.lookup_erase]
    · rename_i hq
      rw [AList.lookup_erase_ne hq]

/-- The sweep removes exactly the entries of the given ids. -/
theorem lookup_sweep (ids : List DeviceId) (s : Sys) (q : DeviceId) :
    (ids.foldl dropPeer s).peers.lookup q = if q ∈ ids then none else s.peers.lookup q := by
  induction ids generalizing s with
  | nil => simp
  | cons id ids ih =>
    rw [List.foldl_cons, ih, lookup_dropPeer]
    by_cases hq : q = id
    · simp [hq]
    · simp [hq]

theorem roster_sweep (ids : List DeviceId) (s : Sys) : (ids.foldl dropPeer s).roster = s.roster := by
  obtain ⟨_, _, _, _, heq⟩ := sweep_cases ids s
  rw [heq]

/-- After the sweep no untrusted peer has an entry. -/
private theorem swept_onRosterChanged (h : Swept s) : Swept (onRosterChanged s) := by
  have hroster : (onRosterChanged s).roster = s.roster := roster_sweep _ s
  have hpeers : ∀ q, (onRosterChanged s).peers.lookup q = _ := lookup_sweep _ s
  refine ⟨fun p hp => ?_, fun p hp => ?_, fun p rest hw => by cases hw⟩
  · rw [hroster]
    simp only [onRosterChanged, Bool.or_eq_true, Bool.not_eq_true'] at hp
    rcases hp with hp | hp
    · exact h.untrusted p hp
    · exact hp
  · simp only [onRosterChanged, Bool.or_eq_true, Bool.not_eq_true'] at hp
    rw [hpeers]
    split
    · rfl
    · rename_i hkeep
      rcases hp with hp | hp
      · exact h.absent p hp
      · -- an untrusted peer with an entry is dropped
        cases hl : s.peers.lookup p with
        | none => rfl
        | some entry =>
          refine absurd (List.mem_filter.2 ⟨?_, ?_⟩) hkeep
          · exact AList.lookup_isSome.1 (by rw [hl]; rfl)
          · have : p ∉ s.roster.ids := by rw [RosterInner.mem_ids, hp]; simp
            simpa using this

private theorem swept_ensurePeer {p : DiscoveredPeer} (h : Swept s) (hp : s.swept p.deviceId = false) (work : Work)
    (hwork : ∀ q rest, work ≠ .ensure q rest) : Swept { ensurePeer ownId s p with work := work } := by
  have hother : ∀ q entry, s.swept q = true → (s.peers.insert p.deviceId entry).lookup q = none := by
    intro q entry hq
    have hne : q ≠ p.deviceId := by
      rintro rfl
      rw [hp] at hq
      cases hq
    rw [AList.lookup_insert_ne hne]
    exact h.absent q hq
  rcases ensurePeer_cases ownId s p with ⟨old, tasks, entry, -, -, -, -, heq⟩ | ⟨entry, -, -, -, -, heq⟩ |
    ⟨entry, addrs, -, -, -, -, heq⟩ <;> rw [heq]
  all_goals exact ⟨h.untrusted, fun q hq => hother q _ hq, fun q rest hw => absurd hw (hwork q rest)⟩

private theorem swept_handleInternal {ownId : DeviceId} (h : Swept s) {m : Internal}
    (hfresh : ∀ peer caps, m = .inboundReady peer caps → s.swept peer.deviceId = false) :
    Swept (handleInternal ownId s m) := by
  cases m with
  | discovery ev =>
    cases ev with
    | found p =>
      refine h.keep rfl rfl (fun _ hp => hp) (fun q rest hw => ?_)
      simp only [handleInternal, onFound] at hw
      split at hw
      · rename_i htrusted
        cases hw
        exact Or.inr htrusted
      · cases hw
    | lost id => exact h.keep rfl rfl (fun _ hp => hp) (fun q rest hw => Or.inl hw)
  | rosterChanged => exact swept_onRosterChanged h
  | inboundReady peer caps =>
    simp only [handleInternal, onInboundReady]
    split
    · exact h
    · refine ⟨h.untrusted, fun q hq => ?_, h.ensured⟩
      have hne : q ≠ peer.deviceId := by
        rintro rfl
        rw [hfresh peer caps rfl] at hq
        cases hq
      rw [AList.lookup_insert_ne hne]
      exact h.absent q hq
  | connUp p name caps addr out t =>
    refine h.keep rfl rfl (fun q hl => ?_) (fun q rest hw => Or.inl hw)
    simp only [handleInternal, onConnUp]
    split
    · rename_i entry hp
      exact lookup_insert_none (by rw [hp]; simp) hl
    · exact hl
  | connDown p r t =>
    refine h.keep rfl rfl (fun q hl => ?_) (fun q rest hw => Or.inl hw)
    simp only [handleInternal, onConnDown]
    split
    · rename_i entry hp
      exact lookup_insert_none (by rw [hp]; simp) hl
    · exact hl

private theorem swept_resumeWork {ownId : DeviceId} (h : Swept s) (hs : resumeWork ownId s = some s') :
    Swept s' := by
  rcases resumeWork_cases hs with ⟨work, -, htrusted, rfl⟩ | ⟨p, rest, hwork, rfl⟩
  · exact h.keep rfl rfl (fun _ hp => hp) (fun q rest hw => Or.inr (htrusted q rest hw))
  · exact swept_ensurePeer h (h.ensured p rest hwork) _ (by simp)

private theorem swept_step {own : Hello} {e : TEvent} (h : Swept s) (hi : NoStaleInbound s e)
    (hs : transportStep own s e = some s') : Swept s' := by
  rcases transportStep_cases hs with ⟨peers, rfl, rfl⟩ | ⟨_, _, _, _, extra, -, rfl⟩ |
    ⟨rfl, hw, m, rest, hq, rfl⟩ | ⟨rfl, hres⟩ | ⟨t, task, ht, htask⟩
  · -- a reload clears the mark of the peers it trusts again
    refine ⟨fun p hp => ?_, fun p hp => ?_, fun p rest hw => ?_⟩
    · simp only [Bool.and_eq_true, Bool.not_eq_true'] at hp
      exact hp.2
    · simp only [Bool.and_eq_true] at hp
      exact h.absent p hp.1
    · simp only [h.ensured p rest hw, Bool.false_and]
  · exact h.keep rfl rfl (fun _ hp => hp) (fun p rest hw => Or.inl hw)
  · have hpop : Swept { s with queue := rest } := h.keep rfl rfl (fun _ hp => hp) (fun p rest hw => Or.inl hw)
    refine swept_handleInternal hpop (fun peer caps hm => ?_)
    subst hm
    exact hi rfl peer caps rest hq
  · exact swept_resumeWork h hres
  · obtain ⟨tasks, extra, n, -, -, rfl⟩ := taskStep_frame htask
    exact h.keep rfl rfl (fun _ hp => hp) (fun q rest hw => Or.inl hw)

end Preservation

/-! ### Unpairing is final -/

/-- Once the manager has processed a `RosterChanged` with a roster without `p`, and until the roster contains `p`
again, no connection of `p` is started or left running, in every run that processes neither an `InboundReady` of a
peer swept before nor an untimely `ConnDown`. -/
theorem unpaired_stays_disconnected (own : Hello) (roster : RosterInner) (es : List TEvent) (s : Sys)
    (hr : Run (transportStep own) (fun s e => DownTimely s e ∧ NoStaleInbound s e) (Sys.start roster) es s)
    (p : DeviceId) (hp : s.swept p = true) (t : Nat) : ¬ Live s p t := by
  have href : Referenced own.deviceId s :=
    hr.invariant (referenced_start own.deviceId roster) (fun _ _ _ h hok hs => referenced_step h hok.1 hs)
  have hswept : Swept s := by
    refine hr.invariant ⟨(fun p hp => by cases hp), (fun p hp => by cases hp), (fun p rest hw => by cases hw)⟩ ?_
    exact fun _ _ _ h hok hs => swept_step h hok.2 hs
  rintro ⟨task, ht, rfl, -, hab⟩
  obtain ⟨entry, he, -⟩ := href.entry t task ht hab
  rw [hswept.absent task.peer hp] at he
  cases he

/-! ### An `InboundReady` from before the reload -/

/-- `a` passes the checks of its accept task and is unpaired; the sweep comes before its `InboundReady`. -/
private def lateInbound : List TEvent :=
  [.resume, .resume, .tcp 1 zeroKey, .verify 1, .recheck 1, .lookup 1, .reload [], .watch, .forward,
    .hello 1 (some (.ok (.hello (helloOf "a")))), .process, .resume, .resume, .process]

theorem unpaired_peer_connects :
    ¬ ∀ (own : Hello) (roster : RosterInner) (es : List TEvent) (s : Sys),
      Run (transportStep own) Always (Sys.start roster) es s → ∀ p, s.swept p = true → ∀ t, ¬ Live s p t := by
  intro h
  obtain ⟨s, hrun, hview⟩ := run_of_exec_view (transportStep (helloOf "b")) (fun _ => True)
    (Sys.start pairedWithA) lateInbound (fun s => (s.swept "a", decide (Live s "a" 0))) (true, true)
    (fun _ _ => trivial) (by decide)
  simp only [Prod.mk.injEq, decide_eq_true_eq] at hview
  exact h _ _ _ s hrun "a" hview.1 0 hview.2

/-- The next message is no `InboundReady` of a swept peer. -/
private def notStale (s : Sys) : Bool :=
  match s.queue with
  | .inboundReady peer _ :: _ => !s.swept peer.deviceId
  | _ => true

private theorem noStaleInbound_of_notStale (s : Sys) (e : TEvent) (h : notStale s = true) : NoStaleInbound s e := by
  intro _ peer caps rest hq
  simpa [notStale, hq] using h

/-- `a` is connected and then unpaired. -/
private def unpairConnected : List TEvent :=
  [.resume, .resume] ++ inboundFromA 1 ++ [.process, .announceUp 0, .process, .reload [], .watch, .forward, .process]

theorem unpaired_stays_disconnected_a :
    ∃ s, Run (transportStep (helloOf "b")) (fun s e => DownTimely s e ∧ NoStaleInbound s e) (Sys.start pairedWithA)
      unpairConnected s ∧ s.swept "a" = true ∧ ∀ t, ¬ Live s "a" t := by
  obtain ⟨s, hrun, hswept⟩ := run_of_exec_checked (transportStep (helloOf "b"))
    (fun s _ => notDown s = true ∧ notStale s = true) (Sys.start pairedWithA) unpairConnected
    (fun s => s.swept "a") true (by decide)
  have hrun : Run (transportStep (helloOf "b")) (fun s e => DownTimely s e ∧ NoStaleInbound s e)
      (Sys.start pairedWithA) unpairConnected s :=
    hrun.mono (fun s e h => ⟨downTimely_of_notDown s e h.1, noStaleInbound_of_notStale s e h.2⟩)
  exact ⟨s, hrun, hswept, fun t => unpaired_stays_disconnected _ _ _ s hrun "a" hswept t⟩

end Qdrop
