import Qdrop.Transport.Unpair

/-!
# What the entries of the manager refer to

Unlike `Referenced`, which an untimely `ConnDown` breaks, `Attached` holds in every run: the task and the channel of an
entry are those of its own peer, and every dial loop that was not aborted is the one its peer's entry feeds.
-/

namespace Qdrop

open Lib

/-- The tasks an entry refers to are its peer's, and a dial loop is fed by its peer's entry. -/
structure Attached (ownId : DeviceId) (s : Sys) : Prop where
  fresh : ∀ t task, s.tasks.lookup t = some task → t < s.nextTask
  role : ∀ p entry, s.peers.lookup p = some entry →
    entry.role = roleFor ownId p ∧ (roleFor ownId p = .dialer → entry.addrsTx.isSome = true)
  kind : ∀ t task, s.tasks.lookup t = some task → task.isDial = true → roleFor ownId task.peer = .dialer
  own : ∀ p entry t, s.peers.lookup p = some entry → entry.task = some t ∨ entry.addrsTx = some t →
    t < s.nextTask ∧ ∀ task, s.tasks.lookup t = some task → task.peer = p
  fed : ∀ t task, s.tasks.lookup t = some task → task.isDial = true → t ∉ s.aborted →
    ∃ entry, s.peers.lookup task.peer = some entry ∧ entry.addrsTx = some t ∧ entry.task = some t

section Preservation

variable {ownId : DeviceId} {s s' : Sys}

/-- A step that changes neither the wiring of the entries nor which tasks there are. -/
private theorem Attached.keep (h : Attached ownId s) (htasks : Inherits s.tasks s'.tasks)
    (hpeers : ∀ p, (s'.peers.lookup p).map PeerEntry.wiring = (s.peers.lookup p).map PeerEntry.wiring)
    (haborted : s'.aborted = s.aborted) (hnext : s'.nextTask = s.nextTask) : Attached ownId s' := by
  have hback : ∀ p entry', s'.peers.lookup p = some entry' →
      ∃ entry, s.peers.lookup p = some entry ∧ entry.wiring = entry'.wiring := by
    intro p entry' hp
    have hw := hpeers p
    rw [hp, Option.map_some] at hw
    exact Option.map_eq_some_iff.1 hw.symm
  refine ⟨?_, ?_, ?_, ?_, ?_⟩
  · intro t task' ht
    obtain ⟨task, hl, -, -⟩ := htasks t task' ht
    rw [hnext]
    exact h.fresh t task hl
  · intro p entry' hp
    obtain ⟨entry, hl, heq⟩ := hback p entry' hp
    simp only [PeerEntry.wiring, Prod.mk.injEq] at heq
    rw [← heq.1, ← heq.2.1]
    exact h.role p entry hl
  · intro t task' ht hd
    obtain ⟨task, hl, hp, hd'⟩ := htasks t task' ht
    rw [← hp]
    exact h.kind t task hl (hd'.trans hd)
  · intro p entry' t hp href
    obtain ⟨entry, hl, heq⟩ := hback p entry' hp
    simp only [PeerEntry.wiring, Prod.mk.injEq] at heq
    rw [← heq.2.1, ← heq.2.2] at href
    obtain ⟨hlt, hpeer⟩ := h.own p entry t hl href
    rw [hnext]
    refine ⟨hlt, fun task' ht => ?_⟩
    obtain ⟨task, htask, hsame, -⟩ := htasks t task' ht
    rw [← hsame]
    exact hpeer task htask
  · intro t task' ht hd hab
    obtain ⟨task, hl, hp, hd'⟩ := htasks t task' ht
    rw [haborted] at hab
    obtain ⟨entry, hentry, htx, htask⟩ := h.fed t task hl (hd'.trans hd) hab
    have hw := hpeers task.peer
    rw [hentry, Option.map_some] at hw
    obtain ⟨entry', hl', heq⟩ := Option.map_eq_some_iff.1 hw
    simp only [PeerEntry.wiring, Prod.mk.injEq] at heq
    exact ⟨entry', by rw [← hp, hl'], by rw [heq.2.1, htx], by rw [heq.2.2, htask]⟩

/-- The entry of an acceptor's peer is replaced by one that refers to no other task. -/
private theorem Attached.replace (h : Attached ownId s) (p : DeviceId) (entry : PeerEntry)
    (hrole : entry.role = roleFor ownId p) (hacc : roleFor ownId p = .acceptor)
    (href : ∀ t, entry.task = some t ∨ entry.addrsTx = some t →
      ∃ old, s.peers.lookup p = some old ∧ (old.task = some t ∨ old.addrsTx = some t))
    (hpeers : s'.peers = s.peers.insert p entry) (htasks : s'.tasks = s.tasks) (haborted : s'.aborted = s.aborted)
    (hnext : s'.nextTask = s.nextTask) : Attached ownId s' := by
  refine ⟨?_, ?_, ?_, ?_, ?_⟩
  · rw [htasks, hnext]
    exact h.fresh
  · intro q e hq
    rw [hpeers] at hq
    rcases lookup_insert_eq_some.1 hq with ⟨rfl, rfl⟩ | ⟨-, hq⟩
    · exact ⟨hrole, fun hd => by rw [hacc] at hd; cases hd⟩
    · exact h.role q e hq
  · rw [htasks]
    exact h.kind
  · intro q e t hq hr
    rw [hpeers] at hq
    rw [htasks, hnext]
    rcases lookup_insert_eq_some.1 hq with ⟨rfl, rfl⟩ | ⟨-, hq⟩
    · obtain ⟨old, hold, hr⟩ := href t hr
      exact h.own q old t hold hr
    · exact h.own q e t hq hr
  · intro t task ht hd hab
    rw [htasks] at ht
    rw [haborted] at hab
    have hne : task.peer ≠ p := by
      intro hp
      have hdial := h.kind t task ht hd
      rw [hp, hacc] at hdial
      cases hdial
    rw [hpeers, AList.lookup_insert_ne hne]
    exact h.fed t task ht hd hab

/-- A new task `s.nextTask` for `p`, referred to by the entry of `p`. -/
private theorem Attached.spawn (h : Attached ownId s) {p : DeviceId} {entry : PeerEntry} {task : Task}
    (hrole : entry.role = roleFor ownId p ∧ (roleFor ownId p = .dialer → entry.addrsTx.isSome = true))
    (hpeer : task.peer = p)
    (hkind : task.isDial = true → roleFor ownId p = .dialer ∧ entry.addrsTx = some s.nextTask)
    (htask : entry.task = some s.nextTask)
    (htx : ∀ t, entry.addrsTx = some t → t = s.nextTask ∨ ∃ old, s.peers.lookup p = some old ∧ old.addrsTx = some t)
    (hold : roleFor ownId p = .dialer → ∀ old, s.peers.lookup p = some old → old.addrsTx = none)
    (hpeers : s'.peers = s.peers.insert p entry) (htasks : s'.tasks = s.tasks.insert s.nextTask task)
    (hnext : s'.nextTask = s.nextTask + 1) (haborted : ∀ t, t ∉ s'.aborted → t ∉ s.aborted) : Attached ownId s' := by
  refine ⟨?_, ?_, ?_, ?_, ?_⟩
  · intro t task' ht
    rw [htasks] at ht
    rw [hnext]
    by_cases htn : t = s.nextTask
    · omega
    · rw [AList.lookup_insert_ne htn] at ht
      have := h.fresh t task' ht
      omega
  · intro q e hq
    rw [hpeers] at hq
    rcases lookup_insert_eq_some.1 hq with ⟨rfl, rfl⟩ | ⟨-, hq⟩
    · exact hrole
    · exact h.role q e hq
  · intro t task' ht hd
    rw [htasks] at ht
    rcases lookup_insert_eq_some.1 ht with ⟨rfl, rfl⟩ | ⟨-, ht⟩
    · rw [hpeer]
      exact (hkind hd).1
    · exact h.kind t task' ht hd
  · intro q e t hq hr
    rw [hpeers] at hq
    rw [htasks, hnext]
    -- a task that was there before keeps its peer
    have hkeep : t < s.nextTask ∧ (∀ task', s.tasks.lookup t = some task' → task'.peer = q) →
        t < s.nextTask + 1 ∧ ∀ task', (s.tasks.insert s.nextTask task).lookup t = some task' → task'.peer = q := by
      rintro ⟨hlt, hold⟩
      refine ⟨by omega, fun task' ht => ?_⟩
      rw [AList.lookup_insert_ne (Nat.ne_of_lt hlt)] at ht
      exact hold task' ht
    rcases lookup_insert_eq_some.1 hq with ⟨rfl, rfl⟩ | ⟨-, hq⟩
    · have hnew : t = s.nextTask ∨ ∃ old, s.peers.lookup q = some old ∧ old.addrsTx = some t := by
        rcases hr with hr | hr
        · rw [htask] at hr
          exact Or.inl (Option.some.inj hr).symm
        · exact htx t hr
      rcases hnew with rfl | ⟨old, hl, hold⟩
      · refine ⟨Nat.lt_succ_self _, fun task' ht => ?_⟩
        rw [AList.lookup_insert] at ht
        cases ht
        exact hpeer
      · exact hkeep (h.own q old t hl (Or.inr hold))
    · exact hkeep (h.own q e t hq hr)
  · intro t task' ht hd hab
    rw [htasks] at ht
    rw [hpeers]
    rcases lookup_insert_eq_some.1 ht with ⟨rfl, rfl⟩ | ⟨-, ht⟩
    · rw [hpeer]
      exact ⟨entry, AList.lookup_insert _, (hkind hd).2, htask⟩
    · obtain ⟨e, he, het, hetask⟩ := h.fed t task' ht hd (haborted t hab)
      -- a dial loop of `p` would be fed already
      have hne : task'.peer ≠ p := by
        rintro rfl
        rw [hold (h.kind t task' ht hd) e he] at het
        cases het
      exact ⟨e, by rw [AList.lookup_insert_ne hne, he], het, hetask⟩

private theorem attached_taskStep {own : Hello} {t : Nat} {task : Task} {e : TEvent} (h : Attached own.deviceId s)
    (ht : s.tasks.lookup t = some task) (hs : taskStep own s t task e = some s') : Attached own.deviceId s' := by
  rcases taskStep_cases hs with ⟨c, -, -, rfl⟩ | ⟨c, r, -, -, rfl⟩ | ⟨c, r, task', -, -, haft, rfl⟩ |
    ⟨c, r, -, -, -, rfl⟩ | ⟨addrs, phase, phase', n, hd, -, -, -, -, rfl⟩ | rfl | ⟨-, rfl⟩
  · exact h.keep (Inherits.insert ht (by simp) (by simp)) (fun _ => rfl) rfl rfl
  · exact h.keep (Inherits.insert ht (by simp) (by simp)) (fun _ => rfl) rfl rfl
  · obtain ⟨hp, hd, hd'⟩ := Task.afterConn_some haft
    exact h.keep (Inherits.insert ht hp (by rw [hd, hd'])) (fun _ => rfl) rfl rfl
  · exact h.keep (Inherits.erase _ t) (fun _ => rfl) rfl rfl
  · exact h.keep (Inherits.insert ht rfl (by rw [hd]; rfl)) (fun _ => rfl) rfl rfl
  · exact h
  · exact h.keep (Inherits.erase _ t) (fun _ => rfl) rfl rfl

private theorem attached_ensurePeer (h : Attached ownId s) (p : DiscoveredPeer) :
    Attached ownId (ensurePeer ownId s p) := by
  rcases ensurePeer_cases ownId s p with ⟨old, tasks, entry, hl, hw, -, htasks, heq⟩ |
    ⟨entry, hl, hrole, hw, -, heq⟩ | ⟨entry, addrs, hrole, hnew, htx, htask, heq⟩
  · rw [heq]
    refine h.keep ?_ (wiring_insert hl _ hw) rfl rfl
    rcases htasks with rfl | ⟨t, addrs, rfl⟩
    · exact Inherits.refl _
    · exact Inherits.sendAddrs _ t addrs
  · rw [heq]
    simp only [PeerEntry.wiring, Prod.mk.injEq] at hw
    refine h.replace _ _ (hw.1.trans hrole.symm) hrole (fun t hr => ?_) rfl rfl rfl rfl
    rw [hw.2.1, hw.2.2] at hr
    rcases hr with hr | hr <;> cases hr
  · rw [heq]
    rcases hnew with ⟨hnone, hr, -⟩ | ⟨old, hl, hold⟩
    · refine h.spawn (p := p.deviceId) ⟨hr.trans hrole.symm, fun _ => by rw [htx]; rfl⟩ rfl (fun _ => ⟨hrole, htx⟩)
        htask (fun t ht => ?_) (fun _ old hl => ?_) rfl rfl rfl (fun _ hab => hab)
      · rw [htx] at ht
        exact Or.inl (Option.some.inj ht).symm
      · rw [hnone] at hl
        cases hl
    · -- a dialer's entry always has its channel
      have := (h.role p.deviceId old hl).2 hrole
      rw [hold] at this
      cases this

private theorem attached_onInboundReady (h : Attached ownId s) (peer : Hello) (caps : Caps) :
    Attached ownId (onInboundReady ownId s peer caps) := by
  unfold onInboundReady
  cases hrole : roleFor ownId peer.deviceId with
  | dialer => exact h
  | acceptor =>
    refine h.spawn (p := peer.deviceId) ⟨?_, fun hd => by rw [hrole] at hd; cases hd⟩ rfl (fun hd => by cases hd) rfl
      (fun t ht => ?_) (fun hd => by rw [hrole] at hd; cases hd) rfl rfl rfl
      (fun t hab hold => hab (List.mem_append_right _ hold))
    · cases hl : s.peers.lookup peer.deviceId with
      | some old => exact (h.role peer.deviceId old hl).1
      | none => exact hrole.symm
    · cases hl : s.peers.lookup peer.deviceId with
      | some old =>
        rw [hl] at ht
        exact Or.inr ⟨old, rfl, ht⟩
      | none =>
        rw [hl] at ht
        cases ht

private theorem attached_onConnDown (h : Attached ownId s) (p : DeviceId) (r : DisconnectReason) :
    Attached ownId (onConnDown s p r) := by
  unfold onConnDown
  cases hl : s.peers.lookup p with
  | none => exact h.keep (Inherits.refl _) (fun _ => rfl) rfl rfl
  | some entry =>
    by_cases hacc : entry.role = .acceptor
    · have hrole := (h.role p entry hl).1
      refine h.replace p { entry with connected := false, task := none } hrole
        (hrole.symm.trans hacc) (fun t hr => ⟨entry, hl, ?_⟩) ?_ rfl rfl rfl
      · rcases hr with hr | hr
        · cases hr
        · exact Or.inr hr
      · dsimp only
        rw [if_pos hacc]
    · refine h.keep (Inherits.refl _) (fun q => ?_) rfl rfl
      dsimp only
      rw [if_neg hacc]
      exact wiring_insert hl { entry with connected := false } rfl q

private theorem attached_dropPeer (h : Attached ownId s) (id : DeviceId) : Attached ownId (dropPeer s id) := by
  unfold dropPeer
  cases hl : s.peers.lookup id with
  | none => exact h.keep (Inherits.refl _) (fun _ => rfl) rfl rfl
  | some entry =>
    have hback : ∀ q e, (s.peers.erase id).lookup q = some e → s.peers.lookup q = some e := by
      intro q e hq
      obtain ⟨-, hq⟩ := lookup_erase_eq_some.1 hq
      exact hq
    refine ⟨h.fresh, fun q e hq => h.role q e (hback q e hq), h.kind, fun q e t hq => h.own q e t (hback q e hq), ?_⟩
    intro t task ht hd hab
    simp only [List.mem_append, Option.mem_toList, not_or] at hab
    obtain ⟨e, he, htx, htask⟩ := h.fed t task ht hd hab.2
    have hne : task.peer ≠ id := by
      intro hp
      rw [hp, hl] at he
      cases he
      exact hab.1 htask
    exact ⟨e, by rw [AList.lookup_erase_ne hne, he], htx, htask⟩

private theorem attached_sweep (h : Attached ownId s) (ids : List DeviceId) :
    Attached ownId (ids.foldl dropPeer s) := by
  induction ids generalizing s with
  | nil => exact h
  | cons id ids ih => exact ih (attached_dropPeer h id)

theorem attached_step {own : Hello} {e : TEvent} (h : Attached own.deviceId s) (hs : transportStep own s e = some s') :
    Attached own.deviceId s' := by
  rcases transportStep_cases hs with ⟨peers, rfl, rfl⟩ | ⟨_, _, _, _, _, -, rfl⟩ | ⟨rfl, -, m, rest, -, rfl⟩ |
    ⟨rfl, hres⟩ | ⟨t, task, ht, htask⟩
  · exact h.keep (Inherits.refl _) (fun _ => rfl) rfl rfl
  · exact h.keep (Inherits.refl _) (fun _ => rfl) rfl rfl
  · have hpop : Attached own.deviceId { s with queue := rest } := h.keep (Inherits.refl _) (fun _ => rfl) rfl rfl
    cases m with
    | discovery ev =>
      cases ev with
      | found p => exact hpop.keep (Inherits.refl _) (fun _ => rfl) rfl rfl
      | lost id =>
        refine hpop.keep ?_ (fun _ => rfl) rfl rfl
        simp only [handleInternal, onLost]
        split
        · exact Inherits.sendAddrs _ _ _
        · exact Inherits.refl _
    | rosterChanged => exact (attached_sweep hpop _).keep (Inherits.refl _) (fun _ => rfl) rfl rfl
    | inboundReady peer caps => exact attached_onInboundReady hpop peer caps
    | connUp p name caps addr out t =>
      refine hpop.keep (Inherits.refl _) (fun q => ?_) rfl rfl
      simp only [handleInternal, onConnUp]
      split
      · rename_i entry hl
        exact wiring_insert hl { entry with connected := true, deviceName := name } rfl q
      · rfl
    | connDown p r t => exact attached_onConnDown hpop p r
  · rcases resumeWork_cases hres with ⟨work, -, -, rfl⟩ | ⟨p, rest, -, rfl⟩
    · exact h.keep (Inherits.refl _) (fun _ => rfl) rfl rfl
    · exact (attached_ensurePeer h _).keep (Inherits.refl _) (fun _ => rfl) rfl rfl
  · exact attached_taskStep h ht htask

end Preservation

theorem attached_start (ownId : DeviceId) (roster : RosterInner) : Attached ownId (Sys.start roster) where
  fresh t task h := by cases h
  role p entry h := by cases h
  kind t task h := by cases h
  own p entry t h := by cases h
  fed t task h := by cases h

/-! ### What the sweep ends -/

/-- The sweep aborts the tasks that the entries of the given ids refer to. -/
theorem mem_aborted_sweep (ids : List DeviceId) (s : Sys) (t : Nat) :
    t ∈ (ids.foldl dropPeer s).aborted ↔
      t ∈ s.aborted ∨ ∃ id ∈ ids, ∃ entry, s.peers.lookup id = some entry ∧ entry.task = some t := by
  induction ids generalizing s with
  | nil => simp
  | cons id ids ih =>
    have haborted : t ∈ (dropPeer s id).aborted ↔
        t ∈ s.aborted ∨ ∃ entry, s.peers.lookup id = some entry ∧ entry.task = some t := by
      unfold dropPeer
      cases hl : s.peers.lookup id with
      | none => simp
      | some entry => simp [or_comm]
    have hlookup : ∀ q entry, (dropPeer s id).peers.lookup q = some entry ↔
        q ≠ id ∧ s.peers.lookup q = some entry := by
      intro q entry
      rw [lookup_dropPeer]
      split
      · simp [*]
      · simp [*]
    rw [List.foldl_cons, ih, haborted]
    constructor
    · rintro ((h | h) | ⟨q, hq, entry, hl, ht⟩)
      · exact Or.inl h
      · exact Or.inr ⟨id, List.mem_cons_self, h⟩
      · exact Or.inr ⟨q, List.mem_cons_of_mem _ hq, entry, ((hlookup q entry).1 hl).2, ht⟩
    · rintro (h | ⟨q, hq, entry, hl, ht⟩)
      · exact Or.inl (Or.inl h)
      · by_cases hqid : q = id
        · subst hqid
          exact Or.inl (Or.inr ⟨entry, hl, ht⟩)
        · rcases List.mem_cons.1 hq with hq | hq
          · exact absurd hq hqid
          · exact Or.inr ⟨q, hq, entry, (hlookup q entry).2 ⟨hqid, hl⟩, ht⟩

/-- `RosterChanged` ends exactly the connections that the entries of untrusted peers refer to. -/
theorem live_onRosterChanged {ownId : DeviceId} {s : Sys} (h : Attached ownId s) {p : DeviceId} {t : Nat} :
    Live (onRosterChanged s) p t ↔ Live s p t ∧
      ¬ (s.roster.isTrustedId p = false ∧ ∃ entry, s.peers.lookup p = some entry ∧ entry.task = some t) := by
  have htasks : (onRosterChanged s).tasks = s.tasks := tasks_sweep _ s
  have haborted : t ∈ (onRosterChanged s).aborted ↔ _ := mem_aborted_sweep _ s t
  have hdropped : ∀ id, id ∈ s.peers.keys.filter (fun id => !s.roster.ids.contains id) ↔
      id ∈ s.peers.keys ∧ s.roster.isTrustedId id = false := by
    intro id
    rw [List.mem_filter, Bool.not_eq_true', ← Bool.not_eq_true, ← Bool.not_eq_true, List.contains_iff_mem,
      RosterInner.mem_ids]
  unfold Live
  rw [htasks]
  constructor
  · rintro ⟨task, ht, hp, hc, hab⟩
    rw [haborted, not_or] at hab
    refine ⟨⟨task, ht, hp, hc, hab.1⟩, fun ⟨hu, entry, hl, het⟩ => hab.2 ⟨p, (hdropped p).2 ⟨?_, hu⟩, entry, hl, het⟩⟩
    exact AList.lookup_isSome.1 (by rw [hl]; rfl)
  · rintro ⟨⟨task, ht, hp, hc, hab⟩, hkeep⟩
    refine ⟨task, ht, hp, hc, ?_⟩
    rw [haborted, not_or]
    refine ⟨hab, fun ⟨id, hid, entry, hl, het⟩ => ?_⟩
    -- the entry is that of the task's own peer
    have hpeer : task.peer = id := (h.own id entry t hl (Or.inl het)).2 task ht
    obtain rfl : id = p := hpeer.symm.trans hp
    exact hkeep ⟨((hdropped id).1 hid).2, entry, hl, het⟩

end Qdrop
