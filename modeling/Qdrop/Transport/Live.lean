import Qdrop.Lib.Run
import Qdrop.Lib.Table
import Qdrop.Transport.Manager

/-!
# Live connections

A connection is live while its `drive_connection` has not returned and its task has not been aborted.  The manager
keeps the handle of one task for each peer; as long as every live task is the one its peer's entry refers to
(`Referenced`), a peer has at most one live connection, and dropping the entry ends it.  The only handler that loses a
handle is `ConnDown`: it carries the peer's id and not the connection it belongs to, so one that is queued behind a
newer `InboundReady` clears the newer connection's handle.
-/

namespace Qdrop

open Lib

/-- The task that sent the message. -/
def Internal.sender : Internal → Option Nat
  | .connUp _ _ _ _ _ t => some t
  | .connDown _ _ t => some t
  | _ => none

def Task.isDial : Task → Bool
  | ⟨_, .dial _ _⟩ => true
  | ⟨_, .drive _⟩ => false

/-- `t` executes a `drive_connection` for `p` and has not been aborted. -/
def Live (s : Sys) (p : DeviceId) (t : Nat) : Prop :=
  ∃ task ∈ s.tasks.lookup t, task.peer = p ∧ task.conn.isSome = true ∧ t ∉ s.aborted

instance (s : Sys) (p : DeviceId) (t : Nat) : Decidable (Live s p t) :=
  inferInstanceAs (Decidable (∃ task ∈ s.tasks.lookup t, task.peer = p ∧ task.conn.isSome = true ∧ t ∉ s.aborted))

/-- A `ConnDown` is not processed while the entry of its peer refers to the task of another connection that is still
running. -/
def DownTimely (s : Sys) (e : TEvent) : Prop :=
  e = .process → ∀ p r t rest entry t', s.queue = .connDown p r t :: rest → s.peers.lookup p = some entry →
    entry.role = .acceptor → entry.task = some t' → t' ≠ t → s.tasks.lookup t' = none

/-- Every task that has not been aborted is the one its peer's entry refers to. -/
structure Referenced (ownId : DeviceId) (s : Sys) : Prop where
  fresh : ∀ t task, s.tasks.lookup t = some task → t < s.nextTask
  role : ∀ p entry, s.peers.lookup p = some entry →
    entry.role = roleFor ownId p ∧ (roleFor ownId p = .dialer → entry.addrsTx.isSome = true)
  kind : ∀ t task, s.tasks.lookup t = some task → (task.isDial = true ↔ roleFor ownId task.peer = .dialer)
  entry : ∀ t task, s.tasks.lookup t = some task → t ∉ s.aborted →
    ∃ entry, s.peers.lookup task.peer = some entry ∧ entry.task = some t
  /-- An acceptor's task is gone once its `ConnDown` is queued. -/
  gone : ∀ p r t, Internal.connDown p r t ∈ s.queue →
    t < s.nextTask ∧ (roleFor ownId p = .acceptor → s.tasks.lookup t = none)

/-! ### What a step can do -/

section Cases

variable {own : Hello} {s s' : Sys} {e : TEvent}

theorem push_eq_some {m : Internal} (h : s.push m = some s') : s' = { s with queue := s.queue ++ [m] } := by
  unfold Sys.push at h
  split at h
  · cases h
    rfl
  · cases h

/-- The steps of a task: it announces its connection, leaves `run`, announces the end, goes on dialing, or stops. -/
theorem taskStep_cases {t : Nat} {task : Task} (h : taskStep own s t task e = some s') :
    (∃ c, task.conn = some c ∧ c.phase = .starting ∧
      s' = { s with
        tasks := s.tasks.insert t (task.setPhase .running)
        queue := s.queue ++ [.connUp task.peer c.deviceName c.caps c.addr c.id t] }) ∨
    (∃ c r, task.conn = some c ∧ c.phase = .running ∧
      s' = { s with tasks := s.tasks.insert t (task.setPhase (.ending r)) }) ∨
    (∃ c r task', task.conn = some c ∧ c.phase = .ending r ∧ task.afterConn = some task' ∧
      s' = { s with tasks := s.tasks.insert t task', queue := s.queue ++ [.connDown task.peer r t] }) ∨
    (∃ c r, task.conn = some c ∧ c.phase = .ending r ∧ task.afterConn = none ∧
      s' = { s with tasks := s.tasks.erase t, queue := s.queue ++ [.connDown task.peer r t] }) ∨
    (∃ addrs phase phase' n, task = ⟨task.peer, .dial addrs phase⟩ ∧ task.conn = none ∧
      (∀ c, Task.conn ⟨task.peer, .dial addrs phase'⟩ = some c → c.phase = .starting) ∧
      (phase' = .top ∨ phase' = .resting ∨ (∃ u, e = .dialRead u) ∨ ∃ u addr first, e = .dialHello u addr first) ∧
      s.nextConn ≤ n ∧
      s' = { s with tasks := s.tasks.insert t ⟨task.peer, .dial addrs phase'⟩, nextConn := n }) ∨
    s' = s ∨
    (t ∈ s.aborted ∧ s' = { s with tasks := s.tasks.erase t }) := by
  unfold taskStep at h
  split at h
  · -- `announceUp`
    split at h
    · rename_i c hc
      split at h
      · rename_i hph
        exact Or.inl ⟨c, hc, hph, push_eq_some h⟩
      · cases h
    · cases h
  · -- `connEnd`
    rename_i r
    split at h
    · rename_i c hc
      split at h
      · rename_i hph
        cases h
        exact Or.inr (Or.inl ⟨c, r, hc, hph, rfl⟩)
      · cases h
    · cases h
  · -- `announceDown`
    split at h
    · rename_i r hc
      have h := push_eq_some h
      split at h
      · rename_i task' haft
        exact Or.inr (Or.inr (Or.inl ⟨_, r, task', hc, rfl, haft, h⟩))
      · rename_i haft
        exact Or.inr (Or.inr (Or.inr (Or.inl ⟨_, r, hc, rfl, haft, h⟩)))
    · cases h
  · -- `dialRead`
    right; right; right; right; left
    obtain ⟨peer, state⟩ := task
    split at h
    · rename_i addrs hst
      cases hst
      cases h
      refine ⟨addrs, _, _, s.nextConn, rfl, rfl, fun c hc => ?_, Or.inr (Or.inr (Or.inl ⟨_, rfl⟩)), le_rfl, rfl⟩
      split at hc <;> cases hc
    · cases h
  · -- `dialHello`
    obtain ⟨peer, state⟩ := task
    split at h
    · rename_i addrs expect candidates hst
      cases hst
      split at h
      · split at h
        · cases h
          right; right; right; right; left
          refine ⟨addrs, _, _, s.nextConn + 1, rfl, rfl, fun c hc => ?_, Or.inr (Or.inr (Or.inr ⟨_, _, _, rfl⟩)),
            Nat.le_succ _, rfl⟩
          cases hc
          rfl
        · cases h
          exact Or.inr (Or.inr (Or.inr (Or.inr (Or.inr (Or.inl rfl)))))
      · cases h
    · cases h
  · -- `dialFail`
    right; right; right; right; left
    obtain ⟨peer, state⟩ := task
    split at h
    · rename_i addrs _ _ hst
      cases hst
      cases h
      exact ⟨addrs, _, _, s.nextConn, rfl, rfl, (fun _ hc => by cases hc), Or.inr (Or.inl rfl), le_rfl, rfl⟩
    · cases h
  · -- `dialWake`
    right; right; right; right; left
    obtain ⟨peer, state⟩ := task
    split at h
    · rename_i addrs hst
      cases hst
      cases h
      exact ⟨addrs, _, _, s.nextConn, rfl, rfl, (fun _ hc => by cases hc), Or.inl rfl, le_rfl, rfl⟩
    · cases h
  · -- `cancel`
    split at h
    · rename_i hab
      cases h
      exact Or.inr (Or.inr (Or.inr (Or.inr (Or.inr (Or.inr ⟨hab, rfl⟩)))))
    · cases h
  · cases h

/-- A task changes its own state, takes connection numbers and sends messages of its own. -/
theorem taskStep_frame {t : Nat} {task : Task} (h : taskStep own s t task e = some s') :
    ∃ tasks extra n, (∀ m ∈ extra, Internal.sender m = some t) ∧ s.nextConn ≤ n ∧
      s' = { s with tasks := tasks, queue := s.queue ++ extra, nextConn := n } := by
  have silent : ∀ tasks n, s.nextConn ≤ n → ∃ tasks' extra n', (∀ m ∈ extra, Internal.sender m = some t) ∧
      s.nextConn ≤ n' ∧ { s with tasks := tasks, nextConn := n } =
        { s with tasks := tasks', queue := s.queue ++ extra, nextConn := n' } := by
    intro tasks n hn
    exact ⟨tasks, [], n, by simp, hn, by simp⟩
  rcases taskStep_cases h with ⟨c, -, -, rfl⟩ | ⟨c, r, -, -, rfl⟩ | ⟨c, r, task', -, -, -, rfl⟩ |
    ⟨c, r, -, -, -, rfl⟩ | ⟨addrs, phase, phase', n, -, -, -, -, hn, rfl⟩ | rfl | ⟨-, rfl⟩
  · exact ⟨_, [_], s.nextConn, by simp [Internal.sender], le_rfl, rfl⟩
  · exact silent _ _ le_rfl
  · exact ⟨_, [_], s.nextConn, by simp [Internal.sender], le_rfl, rfl⟩
  · exact ⟨_, [_], s.nextConn, by simp [Internal.sender], le_rfl, rfl⟩
  · exact silent _ _ hn
  · exact silent s'.tasks s'.nextConn le_rfl
  · exact silent _ _ le_rfl

/-- An accept task changes its own state and may submit an `InboundReady`. -/
theorem acceptStep_cases {k : Nat} {a : AcceptTask} (h : acceptStep own s k a e = some s') :
    ∃ accepts submitted extra, (∀ m ∈ extra, m.sender = none) ∧
      s' = { s with accepts := accepts, submitted := submitted, queue := s.queue ++ extra } := by
  have none_extra : ∀ accepts, ∃ accepts' submitted extra, (∀ m ∈ extra, Internal.sender m = none) ∧
      { s with accepts := accepts } =
        { s with accepts := accepts', submitted := submitted, queue := s.queue ++ extra } := by
    intro accepts
    exact ⟨accepts, s.submitted, [], by simp, by simp⟩
  unfold acceptStep at h
  split at h
  · split at h
    · cases h; exact none_extra _
    · cases h
  · split at h
    · cases h; exact none_extra _
    · cases h
  · split at h
    · cases h; exact none_extra _
    · cases h
  · split at h
    · split at h
      · rename_i hs _
        have h := push_eq_some h
        exact ⟨_, _, [.inboundReady hs.peer hs.effectiveCaps], by simp [Internal.sender], h⟩
      · cases h; exact none_extra _
    · cases h
  · cases h; exact none_extra _
  · cases h

/-- A step of the system: a reload; a message of the watcher, of discovery or of an accept task; a message taken by
the manager; the rest of a handler; a step of a task. -/
theorem transportStep_cases (h : transportStep own s e = some s') :
    (∃ peers, e = .reload peers ∧
      s' = { s with
        roster := RosterInner.replace peers
        rosters := s.rosters ++ [RosterInner.replace peers]
        changed := true
        swept := fun id => s.swept id && !(RosterInner.replace peers).isTrustedId id }) ∨
    (∃ changed forwarding accepts submitted extra, (∀ m ∈ extra, Internal.sender m = none) ∧
      s' = { s with
        changed := changed
        forwarding := forwarding
        accepts := accepts
        submitted := submitted
        queue := s.queue ++ extra }) ∨
    (e = .process ∧ s.work = .idle ∧ ∃ m rest, s.queue = m :: rest ∧
      s' = handleInternal own.deviceId { s with queue := rest } m) ∨
    (e = .resume ∧ resumeWork own.deviceId s = some s') ∨
    (∃ t task, s.tasks.lookup t = some task ∧ taskStep own s t task e = some s') := by
  have task_step : ∀ t, (s.tasks.lookup t).bind (fun task => taskStep own s t task e) = some s' →
      ∃ t task, s.tasks.lookup t = some task ∧ taskStep own s t task e = some s' := by
    intro t ht
    obtain ⟨task, hl, hs⟩ := Option.bind_eq_some_iff.1 ht
    exact ⟨t, task, hl, hs⟩
  have accept_step : ∀ k, (s.accepts.lookup k).bind (fun a => acceptStep own s k a e) = some s' →
      ∃ changed forwarding accepts submitted extra, (∀ m ∈ extra, Internal.sender m = none) ∧
        s' = { s with
          changed := changed
          forwarding := forwarding
          accepts := accepts
          submitted := submitted
          queue := s.queue ++ extra } := by
    intro k hk
    obtain ⟨a, -, hs⟩ := Option.bind_eq_some_iff.1 hk
    obtain ⟨accepts, submitted, extra, hextra, heq⟩ := acceptStep_cases hs
    exact ⟨s.changed, s.forwarding, accepts, submitted, extra, hextra, heq⟩
  unfold transportStep at h
  split at h
  · cases h
    exact Or.inl ⟨_, rfl, rfl⟩
  · split at h
    · cases h
      exact Or.inr (Or.inl ⟨false, true, s.accepts, s.submitted, [], by simp, by simp⟩)
    · cases h
  · split at h
    · exact Or.inr (Or.inl ⟨s.changed, false, s.accepts, s.submitted, [.rosterChanged], by simp [Internal.sender],
        push_eq_some h⟩)
    · cases h
  · rename_i ev
    exact Or.inr (Or.inl ⟨s.changed, s.forwarding, s.accepts, s.submitted, [.discovery ev],
      by simp [Internal.sender], push_eq_some h⟩)
  · split at h
    · rename_i m rest hw hq
      cases h
      exact Or.inr (Or.inr (Or.inl ⟨rfl, hw, m, rest, hq, rfl⟩))
    · cases h
  · exact Or.inr (Or.inr (Or.inr (Or.inl ⟨rfl, h⟩)))
  · split at h
    · cases h
    · rename_i k key _
      cases h
      exact Or.inr (Or.inl ⟨s.changed, s.forwarding, s.accepts.insert k ⟨key, .tls, s.rosters.length - 1⟩, s.submitted,
        [], by simp, by simp⟩)
  · split at h
    · exact Or.inr (Or.inr (Or.inr (Or.inr (task_step _ h))))
    · exact Or.inr (Or.inl (accept_step _ h))
    · cases h

end Cases

/-! ### Tasks keep their peer and their kind -/

@[simp] theorem Task.setPhase_peer (phase : ConnPhase) (task : Task) :
    (task.setPhase phase).peer = task.peer := by
  unfold Task.setPhase
  split <;> rfl

@[simp] theorem Task.setPhase_isDial (phase : ConnPhase) (task : Task) :
    (task.setPhase phase).isDial = task.isDial := by
  unfold Task.setPhase
  split <;> rfl

theorem Task.afterConn_some {task task' : Task} (h : task.afterConn = some task') :
    task'.peer = task.peer ∧ task.isDial = true ∧ task'.isDial = true := by
  unfold Task.afterConn at h
  split at h
  · cases h
  · cases h
    exact ⟨rfl, rfl, rfl⟩

/-- Every task of `tasks'` is one of `tasks`, with the same peer and of the same kind. -/
def Inherits (tasks tasks' : AList (fun _ : Nat => Task)) : Prop :=
  ∀ t task', tasks'.lookup t = some task' →
    ∃ task, tasks.lookup t = some task ∧ task.peer = task'.peer ∧ task.isDial = task'.isDial

theorem Inherits.refl (tasks : AList (fun _ : Nat => Task)) : Inherits tasks tasks :=
  fun _ task h => ⟨task, h, rfl, rfl⟩

theorem Inherits.insert {tasks : AList (fun _ : Nat => Task)} {t : Nat} {task task' : Task}
    (h : tasks.lookup t = some task) (hp : task'.peer = task.peer) (hd : task'.isDial = task.isDial) :
    Inherits tasks (tasks.insert t task') := by
  intro u task'' hu
  rcases lookup_insert_eq_some.1 hu with ⟨rfl, rfl⟩ | ⟨-, hu⟩
  · exact ⟨task, h, hp.symm, hd.symm⟩
  · exact ⟨task'', hu, rfl, rfl⟩

theorem Inherits.erase (tasks : AList (fun _ : Nat => Task)) (t : Nat) : Inherits tasks (tasks.erase t) := by
  intro u task hu
  obtain ⟨-, hu⟩ := lookup_erase_eq_some.1 hu
  exact ⟨task, hu, rfl, rfl⟩

theorem Inherits.sendAddrs (tasks : AList (fun _ : Nat => Task)) (t : Nat) (addrs : List SocketAddr) :
    Inherits tasks (sendAddrs tasks t addrs) := by
  unfold Qdrop.sendAddrs
  split
  · rename_i peer addrs' phase hl
    exact Inherits.insert hl rfl rfl
  · exact Inherits.refl tasks

/-! ### Every step keeps the reference -/

/-- What the reference depends on in an entry. -/
def PeerEntry.wiring (entry : PeerEntry) : Role × Option Nat × Option Nat := (entry.role, entry.addrsTx, entry.task)

section Preservation

variable {ownId : DeviceId} {s s' : Sys}

/-- A step that changes neither the wiring of the entries nor which tasks there are. -/
private theorem Referenced.keep (h : Referenced ownId s) (htasks : Inherits s.tasks s'.tasks)
    (hpeers : ∀ p, (s'.peers.lookup p).map PeerEntry.wiring = (s.peers.lookup p).map PeerEntry.wiring)
    (haborted : s'.aborted = s.aborted) (hnext : s'.nextTask = s.nextTask)
    (hqueue : ∀ p r t, Internal.connDown p r t ∈ s'.queue → Internal.connDown p r t ∈ s.queue ∨
      (t < s.nextTask ∧ (roleFor ownId p = .acceptor → s'.tasks.lookup t = none))) : Referenced ownId s' where
  fresh t task' ht := by
    obtain ⟨task, hl, -, -⟩ := htasks t task' ht
    rw [hnext]
    exact h.fresh t task hl
  role p entry' hp := by
    have hw := hpeers p
    rw [hp, Option.map_some] at hw
    obtain ⟨entry, hl, heq⟩ := Option.map_eq_some_iff.1 hw.symm
    simp only [PeerEntry.wiring, Prod.mk.injEq] at heq
    rw [← heq.1, ← heq.2.1]
    exact h.role p entry hl
  kind t task' ht := by
    obtain ⟨task, hl, hp, hd⟩ := htasks t task' ht
    rw [← hp, ← hd]
    exact h.kind t task hl
  entry t task' ht hab := by
    obtain ⟨task, hl, hp, -⟩ := htasks t task' ht
    rw [haborted] at hab
    obtain ⟨entry, hentry, htask⟩ := h.entry t task hl hab
    have hw := hpeers task.peer
    rw [hentry, Option.map_some] at hw
    obtain ⟨entry', hl', heq⟩ := Option.map_eq_some_iff.1 hw
    simp only [PeerEntry.wiring, Prod.mk.injEq] at heq
    exact ⟨entry', by rw [← hp, hl'], by rw [heq.2.2, htask]⟩
  gone p r t hm := by
    rw [hnext]
    rcases hqueue p r t hm with hm | hm
    · obtain ⟨hlt, hnone⟩ := h.gone p r t hm
      refine ⟨hlt, fun hacc => ?_⟩
      cases ht : s'.tasks.lookup t with
      | none => rfl
      | some task' =>
        obtain ⟨task, hl, -, -⟩ := htasks t task' ht
        rw [hnone hacc] at hl
        cases hl
    · exact hm

/-- Taking a message from the queue. -/
private theorem Referenced.pop {m : Internal} {rest : List Internal} (h : Referenced ownId s)
    (hq : s.queue = m :: rest) : Referenced ownId { s with queue := rest } :=
  h.keep (Inherits.refl _) (fun _ => rfl) rfl rfl (fun p r t hm => Or.inl (by rw [hq]; exact List.mem_cons_of_mem _ hm))

private theorem referenced_taskStep {own : Hello} {t : Nat} {task : Task} {e : TEvent}
    (h : Referenced own.deviceId s) (ht : s.tasks.lookup t = some task)
    (hs : taskStep own s t task e = some s') : Referenced own.deviceId s' := by
  rcases taskStep_cases hs with ⟨c, -, -, rfl⟩ | ⟨c, r, -, -, rfl⟩ | ⟨c, r, task', -, -, haft, rfl⟩ |
    ⟨c, r, -, -, haft, rfl⟩ | ⟨addrs, phase, phase', n, hd, -, -, -, -, rfl⟩ | rfl | ⟨-, rfl⟩
  · refine h.keep (Inherits.insert ht (by simp) (by simp)) (fun _ => rfl) rfl rfl (fun p r u hm => Or.inl ?_)
    simpa using hm
  · exact h.keep (Inherits.insert ht (by simp) (by simp)) (fun _ => rfl) rfl rfl (fun _ _ _ hm => Or.inl hm)
  · obtain ⟨hp, hd, hd'⟩ := Task.afterConn_some haft
    refine h.keep (Inherits.insert ht hp (by rw [hd, hd'])) (fun _ => rfl) rfl rfl (fun p r' u hm => ?_)
    rcases List.mem_append.1 hm with hm | hm
    · exact Or.inl hm
    · simp only [List.mem_singleton, Internal.connDown.injEq] at hm
      obtain ⟨rfl, rfl, rfl⟩ := hm
      refine Or.inr ⟨h.fresh u task ht, fun hacc => ?_⟩
      rw [(h.kind u task ht).1 hd] at hacc
      cases hacc
  · refine h.keep (Inherits.erase _ t) (fun _ => rfl) rfl rfl (fun p r' u hm => ?_)
    rcases List.mem_append.1 hm with hm | hm
    · exact Or.inl hm
    · simp only [List.mem_singleton, Internal.connDown.injEq] at hm
      obtain ⟨rfl, rfl, rfl⟩ := hm
      exact Or.inr ⟨h.fresh u task ht, fun _ => AList.lookup_erase u s.tasks⟩
  · exact h.keep (Inherits.insert ht rfl (by rw [hd]; rfl)) (fun _ => rfl) rfl rfl (fun _ _ _ hm => Or.inl hm)
  · exact h
  · exact h.keep (Inherits.erase _ t) (fun _ => rfl) rfl rfl (fun _ _ _ hm => Or.inl hm)

/-- A new task `s.nextTask` of the right kind for `p`, referred to by the entry of `p`; the task that entry referred
to before is aborted, if there was one. -/
private theorem Referenced.spawn (h : Referenced ownId s) {p : DeviceId} {entry : PeerEntry} {task : Task}
    (hrole : entry.role = roleFor ownId p ∧ (roleFor ownId p = .dialer → entry.addrsTx.isSome = true))
    (hpeer : task.peer = p) (hkind : task.isDial = true ↔ roleFor ownId p = .dialer)
    (htask : entry.task = some s.nextTask) (hpeers : s'.peers = s.peers.insert p entry)
    (htasks : s'.tasks = s.tasks.insert s.nextTask task) (hnext : s'.nextTask = s.nextTask + 1)
    (hqueue : s'.queue = s.queue)
    (haborted : ∀ t, t ∉ s'.aborted → t ∉ s.aborted ∧
      ∀ old, s.peers.lookup p = some old → old.task ≠ some t) : Referenced ownId s' where
  fresh t task' ht := by
    rw [htasks] at ht
    rw [hnext]
    by_cases htn : t = s.nextTask
    · omega
    · rw [AList.lookup_insert_ne htn] at ht
      have := h.fresh t task' ht
      omega
  role q e hq := by
    rw [hpeers] at hq
    rcases lookup_insert_eq_some.1 hq with ⟨rfl, rfl⟩ | ⟨-, hq⟩
    · exact hrole
    · exact h.role q e hq
  kind t task' ht := by
    rw [htasks] at ht
    rcases lookup_insert_eq_some.1 ht with ⟨rfl, rfl⟩ | ⟨-, ht⟩
    · rw [hpeer]
      exact hkind
    · exact h.kind t task' ht
  entry t task' ht hab := by
    rw [htasks] at ht
    rw [hpeers]
    rcases lookup_insert_eq_some.1 ht with ⟨rfl, rfl⟩ | ⟨-, ht⟩
    · rw [hpeer]
      exact ⟨entry, AList.lookup_insert _, htask⟩
    · obtain ⟨hab, hold⟩ := haborted t hab
      obtain ⟨e, he, het⟩ := h.entry t task' ht hab
      -- a task of `p` would be the one the entry referred to, which is aborted
      have hne : task'.peer ≠ p := by
        intro hp
        rw [hp] at he
        exact hold e he het
      exact ⟨e, by rw [AList.lookup_insert_ne hne, he], het⟩
  gone q r t hm := by
    rw [hqueue] at hm
    obtain ⟨hlt, hnone⟩ := h.gone q r t hm
    rw [hnext, htasks]
    refine ⟨by omega, fun hacc => ?_⟩
    rw [AList.lookup_insert_ne (by omega)]
    exact hnone hacc

/-- Replacing an entry by one with the same wiring. -/
theorem wiring_insert {peers : AList (fun _ : DeviceId => PeerEntry)} {p : DeviceId} {old : PeerEntry}
    (hl : peers.lookup p = some old) (entry : PeerEntry) (hw : entry.wiring = old.wiring) (q : DeviceId) :
    ((peers.insert p entry).lookup q).map PeerEntry.wiring = (peers.lookup q).map PeerEntry.wiring := by
  by_cases hq : q = p
  · subst hq
    rw [AList.lookup_insert, hl, Option.map_some, Option.map_some, hw]
  · rw [AList.lookup_insert_ne hq]

/-- `ensure_peer` leaves the wiring alone, makes an entry without a task, or spawns a dial loop for a new entry. -/
theorem ensurePeer_cases (ownId : DeviceId) (s : Sys) (p : DiscoveredPeer) :
    (∃ old tasks entry, s.peers.lookup p.deviceId = some old ∧ entry.wiring = old.wiring ∧
      entry.connected = old.connected ∧ (tasks = s.tasks ∨ ∃ t addrs, tasks = sendAddrs s.tasks t addrs) ∧
      ensurePeer ownId s p = { s with peers := s.peers.insert p.deviceId entry, tasks := tasks }) ∨
    (∃ entry, s.peers.lookup p.deviceId = none ∧ roleFor ownId p.deviceId = .acceptor ∧
      entry.wiring = (.acceptor, none, none) ∧ entry.connected = false ∧
      ensurePeer ownId s p = { s with peers := s.peers.insert p.deviceId entry }) ∨
    (∃ entry addrs, roleFor ownId p.deviceId = .dialer ∧
      (s.peers.lookup p.deviceId = none ∧ entry.role = .dialer ∧ entry.connected = false ∨
        ∃ old, s.peers.lookup p.deviceId = some old ∧ old.addrsTx = none) ∧
      entry.addrsTx = some s.nextTask ∧ entry.task = some s.nextTask ∧
      ensurePeer ownId s p = { s with
        peers := s.peers.insert p.deviceId entry
        tasks := s.tasks.insert s.nextTask ⟨p.deviceId, .dial addrs .top⟩
        nextTask := s.nextTask + 1 }) := by
  unfold ensurePeer
  cases hrole : roleFor ownId p.deviceId with
  | acceptor =>
    cases hl : s.peers.lookup p.deviceId with
    | some old =>
      left
      exact ⟨old, s.tasks, { old with deviceName := p.deviceName }, rfl, rfl, rfl, Or.inl rfl, rfl⟩
    | none =>
      right; left
      exact ⟨{ PeerEntry.new .acceptor with deviceName := p.deviceName }, rfl, rfl, rfl, rfl, rfl⟩
  | dialer =>
    cases hl : s.peers.lookup p.deviceId with
    | some old =>
      cases htx : old.addrsTx with
      | some t =>
        left
        refine ⟨old, _, { old with deviceName := p.deviceName }, rfl, rfl, rfl,
          Or.inr ⟨t, withStatic p.addrs (s.roster.staticAddrsFor p.deviceId), rfl⟩, ?_⟩
        simp only [Option.getD_some, htx]
      | none =>
        right; right
        refine ⟨{ old with deviceName := p.deviceName, addrsTx := some s.nextTask, task := some s.nextTask },
          withStatic p.addrs (s.roster.staticAddrsFor p.deviceId), rfl, Or.inr ⟨old, rfl, htx⟩, rfl, rfl, ?_⟩
        simp only [Option.getD_some, htx]
    | none =>
      right; right
      exact ⟨_, _, rfl, Or.inl ⟨rfl, rfl, rfl⟩, rfl, rfl, rfl⟩

/-- `ensure_peer` works on the entries and the tasks. -/
theorem ensurePeer_frame (ownId : DeviceId) (s : Sys) (p : DiscoveredPeer) :
    ∃ peers tasks n, ensurePeer ownId s p = { s with peers := peers, tasks := tasks, nextTask := n } := by
  rcases ensurePeer_cases ownId s p with ⟨_, _, _, -, -, -, -, heq⟩ | ⟨_, -, -, -, -, heq⟩ | ⟨_, _, -, -, -, -, heq⟩
  · exact ⟨_, _, s.nextTask, heq⟩
  · exact ⟨_, s.tasks, s.nextTask, heq⟩
  · exact ⟨_, _, _, heq⟩

/-- A handler goes on: it has something else to do next, a trusted peer if any, or it ensures a peer. -/
theorem resumeWork_cases {s' : Sys} (h : resumeWork ownId s = some s') :
    (∃ work, work ≠ .startup ∧ (∀ p rest, work = .ensure p rest → s.roster.isTrustedId p.deviceId = true) ∧
      s' = { s with work := work }) ∨
    (∃ p rest, s.work = .ensure p rest ∧ s' = { ensurePeer ownId s p with work := .check rest }) := by
  unfold resumeWork at h
  split at h
  · cases h
    exact Or.inl ⟨_, by simp, by simp, rfl⟩
  · cases h
    exact Or.inl ⟨_, by simp, by simp, rfl⟩
  · cases h
    exact Or.inl ⟨_, by simp, by simp, rfl⟩
  · rename_i p ps hw
    cases h
    refine Or.inl ⟨_, ?_, ?_, rfl⟩
    · split <;> simp
    · intro q rest hq
      split at hq
      · rename_i htrusted
        cases hq
        exact htrusted
      · cases hq
  · rename_i p rest hw
    cases h
    exact Or.inr ⟨p, rest, hw, rfl⟩
  · cases h

/-- The rest of a handler works on the entries and the tasks. -/
theorem resumeWork_frame {s' : Sys} (h : resumeWork ownId s = some s') :
    ∃ work peers tasks n,
      s' = { s with work := work, peers := peers, tasks := tasks, nextTask := n } := by
  rcases resumeWork_cases h with ⟨work, -, -, rfl⟩ | ⟨p, rest, -, rfl⟩
  · exact ⟨work, s.peers, s.tasks, s.nextTask, rfl⟩
  · obtain ⟨peers, tasks, n, heq⟩ := ensurePeer_frame ownId s p
    rw [heq]
    exact ⟨_, peers, tasks, n, rfl⟩

private theorem referenced_ensurePeer (h : Referenced ownId s) (p : DiscoveredPeer) :
    Referenced ownId (ensurePeer ownId s p) := by
  rcases ensurePeer_cases ownId s p with ⟨old, tasks, entry, hl, hw, -, htasks, heq⟩ |
    ⟨entry, hl, hrole, hw, -, heq⟩ | ⟨entry, addrs, hrole, hnew, htx, htask, heq⟩
  · rw [heq]
    refine h.keep ?_ (wiring_insert hl _ hw) rfl rfl (fun _ _ _ hm => Or.inl hm)
    rcases htasks with rfl | ⟨t, addrs, rfl⟩
    · exact Inherits.refl _
    · exact Inherits.sendAddrs _ t addrs
  · rw [heq]
    simp only [PeerEntry.wiring, Prod.mk.injEq] at hw
    refine ⟨h.fresh, fun q e hq => ?_, h.kind, fun t task ht hab => ?_, h.gone⟩
    · rcases lookup_insert_eq_some.1 hq with ⟨rfl, rfl⟩ | ⟨-, hq⟩
      · exact ⟨hw.1.trans hrole.symm, fun hd => by rw [hrole] at hd; cases hd⟩
      · exact h.role q e hq
    · obtain ⟨e, he, het⟩ := h.entry t task ht hab
      have hne : task.peer ≠ p.deviceId := by
        intro hp
        rw [hp, hl] at he
        cases he
      exact ⟨e, by rw [AList.lookup_insert_ne hne, he], het⟩
  · rw [heq]
    -- a dialer's entry always has its channel, so the dial loop is for a new entry
    rcases hnew with ⟨hnone, hr, -⟩ | ⟨old, hl, hold⟩
    · refine h.spawn (p := p.deviceId) ⟨hr.trans hrole.symm, fun _ => by rw [htx]; rfl⟩ rfl
        (by simp [Task.isDial, hrole]) htask rfl rfl rfl rfl (fun t hab => ⟨hab, fun old hl => ?_⟩)
      rw [hnone] at hl
      cases hl
    · have := (h.role p.deviceId old hl).2 hrole
      rw [hold] at this
      cases this

private theorem referenced_onInboundReady (h : Referenced ownId s) (peer : Hello) (caps : Caps) :
    Referenced ownId (onInboundReady ownId s peer caps) := by
  unfold onInboundReady
  cases hrole : roleFor ownId peer.deviceId with
  | dialer => exact h
  | acceptor =>
    refine h.spawn (p := peer.deviceId) ⟨?_, fun hd => by rw [hrole] at hd; cases hd⟩ rfl
      (by simp [Task.isDial, hrole]) rfl rfl rfl rfl rfl (fun t hab => ?_)
    · cases hl : s.peers.lookup peer.deviceId with
      | some old => exact (h.role peer.deviceId old hl).1
      | none => exact hrole.symm
    · simp only [List.mem_append, Option.mem_toList, not_or] at hab
      refine ⟨hab.2, fun old hl hold => hab.1 ?_⟩
      rw [hl]
      exact hold

/-- The one handler that can lose a live task. -/
private theorem referenced_onConnDown {p : DeviceId} {r : DisconnectReason} {t : Nat} {rest : List Internal}
    (h : Referenced ownId s) (hq : s.queue = .connDown p r t :: rest)
    (htimely : ∀ entry t', s.peers.lookup p = some entry → entry.role = .acceptor → entry.task = some t' →
      t' ≠ t → s.tasks.lookup t' = none) :
    Referenced ownId (onConnDown { s with queue := rest } p r) := by
  have hpop := h.pop hq
  unfold onConnDown
  cases hl : s.peers.lookup p with
  | none => exact hpop.keep (Inherits.refl _) (fun _ => rfl) rfl rfl (fun _ _ _ hm => Or.inl hm)
  | some entry =>
    dsimp only
    by_cases hacc : entry.role = .acceptor
    · -- the task the handle referred to has ended
      have hended : ∀ t', entry.task = some t' → s.tasks.lookup t' = none := by
        intro t' ht'
        by_cases htt : t' = t
        · subst htt
          refine (h.gone p r t' (by rw [hq]; exact List.mem_cons_self ..)).2 ?_
          rw [← (h.role p entry hl).1, hacc]
        · exact htimely entry t' hl hacc ht' htt
      simp only [hacc, if_true]
      refine ⟨hpop.fresh, fun q e hq' => ?_, hpop.kind, fun u task hu hab => ?_, hpop.gone⟩
      · rcases lookup_insert_eq_some.1 hq' with ⟨rfl, rfl⟩ | ⟨-, hq'⟩
        · rw [← hacc]
          exact h.role q entry hl
        · exact h.role q e hq'
      · obtain ⟨e, he, het⟩ := h.entry u task hu hab
        have hne : task.peer ≠ p := by
          intro hp
          rw [hp, hl] at he
          cases he
          rw [hended u het] at hu
          cases hu
        exact ⟨e, by rw [AList.lookup_insert_ne hne, he], het⟩
    · simp only [hacc, if_false]
      exact hpop.keep (Inherits.refl _) (wiring_insert hl _ rfl) rfl rfl (fun _ _ _ hm => Or.inl hm)

private theorem referenced_dropPeer (h : Referenced ownId s) (id : DeviceId) : Referenced ownId (dropPeer s id) := by
  unfold dropPeer
  cases hl : s.peers.lookup id with
  | none => exact h.keep (Inherits.refl _) (fun _ => rfl) rfl rfl (fun _ _ _ hm => Or.inl hm)
  | some entry =>
    refine ⟨h.fresh, fun q e hq => ?_, h.kind, fun t task ht hab => ?_, h.gone⟩
    · obtain ⟨-, hq⟩ := lookup_erase_eq_some.1 hq
      exact h.role q e hq
    · simp only [List.mem_append, Option.mem_toList, not_or] at hab
      obtain ⟨e, he, het⟩ := h.entry t task ht hab.2
      have hne : task.peer ≠ id := by
        intro hp
        rw [hp, hl] at he
        cases he
        exact hab.1 het
      exact ⟨e, by rw [AList.lookup_erase_ne hne, he], het⟩

/-- The sweep changes the entries, the bus, the events and what is aborted, and nothing else. -/
theorem sweep_cases (ids : List DeviceId) (s : Sys) :
    ∃ bus peers aborted events, ids.foldl dropPeer s =
      { s with bus := bus, peers := peers, aborted := aborted, events := events } := by
  induction ids generalizing s with
  | nil => exact ⟨s.bus, s.peers, s.aborted, s.events, rfl⟩
  | cons id ids ih =>
    obtain ⟨bus, peers, aborted, events, heq⟩ := ih (dropPeer s id)
    refine ⟨bus, peers, aborted, events, ?_⟩
    rw [List.foldl_cons, heq]
    unfold dropPeer
    split <;> rfl

theorem tasks_sweep (ids : List DeviceId) (s : Sys) : (ids.foldl dropPeer s).tasks = s.tasks := by
  obtain ⟨_, _, _, _, heq⟩ := sweep_cases ids s
  rw [heq]

private theorem referenced_sweep (h : Referenced ownId s) (ids : List DeviceId) :
    Referenced ownId (ids.foldl dropPeer s) := by
  induction ids generalizing s with
  | nil => exact h
  | cons id ids ih => exact ih (referenced_dropPeer h id)

/-- The step lemma: a step that processes no untimely `ConnDown` keeps every live task referenced. -/
theorem referenced_step {own : Hello} {e : TEvent} (h : Referenced own.deviceId s) (hd : DownTimely s e)
    (hs : transportStep own s e = some s') : Referenced own.deviceId s' := by
  rcases transportStep_cases hs with ⟨peers, rfl, rfl⟩ | ⟨_, _, _, _, extra, hextra, rfl⟩ |
    ⟨rfl, hw, m, rest, hq, rfl⟩ | ⟨rfl, hres⟩ | ⟨t, task, ht, htask⟩
  · exact h.keep (Inherits.refl _) (fun _ => rfl) rfl rfl (fun _ _ _ hm => Or.inl hm)
  · refine h.keep (Inherits.refl _) (fun _ => rfl) rfl rfl (fun p r t hm => ?_)
    rcases List.mem_append.1 hm with hm | hm
    · exact Or.inl hm
    · have := hextra _ hm
      cases this
  · have hpop := h.pop hq
    cases m with
    | discovery ev =>
      cases ev with
      | found p => exact hpop.keep (Inherits.refl _) (fun _ => rfl) rfl rfl (fun _ _ _ hm => Or.inl hm)
      | lost id =>
        refine hpop.keep ?_ (fun _ => rfl) rfl rfl (fun _ _ _ hm => Or.inl hm)
        simp only [handleInternal, onLost]
        split
        · exact Inherits.sendAddrs _ _ _
        · exact Inherits.refl _
    | rosterChanged =>
      exact (referenced_sweep hpop _).keep (Inherits.refl _) (fun _ => rfl) rfl rfl (fun _ _ _ hm => Or.inl hm)
    | inboundReady peer caps => exact referenced_onInboundReady hpop peer caps
    | connUp p name caps addr out t =>
      refine hpop.keep (Inherits.refl _) (fun q => ?_) rfl rfl (fun _ _ _ hm => Or.inl hm)
      simp only [handleInternal, onConnUp]
      split
      · rename_i entry hl
        have hw : { entry with connected := true, deviceName := name }.wiring = entry.wiring := rfl
        exact wiring_insert hl _ hw q
      · rfl
    | connDown p r t =>
      exact referenced_onConnDown h hq (fun entry t' hl hacc ht' hne => hd rfl p r t rest entry t' hq hl hacc ht' hne)
  · rcases resumeWork_cases hres with ⟨work, -, -, rfl⟩ | ⟨p, rest, -, rfl⟩
    · exact h.keep (Inherits.refl _) (fun _ => rfl) rfl rfl (fun _ _ _ hm => Or.inl hm)
    · exact (referenced_ensurePeer h _).keep (Inherits.refl _) (fun _ => rfl) rfl rfl (fun _ _ _ hm => Or.inl hm)
  · exact referenced_taskStep h ht htask

end Preservation

theorem referenced_start (ownId : DeviceId) (roster : RosterInner) : Referenced ownId (Sys.start roster) where
  fresh t task h := by cases h
  role p entry h := by cases h
  kind t task h := by cases h
  entry t task h := by cases h
  gone p r t h := by cases h

/-! ### At most one live connection -/

theorem live_unique {ownId : DeviceId} {s : Sys} (h : Referenced ownId s) {p : DeviceId} {t t' : Nat}
    (ht : Live s p t) (ht' : Live s p t') : t = t' := by
  obtain ⟨task, hl, rfl, -, hab⟩ := ht
  obtain ⟨task', hl', hp', -, hab'⟩ := ht'
  obtain ⟨entry, he, het⟩ := h.entry t task hl hab
  obtain ⟨entry', he', het'⟩ := h.entry t' task' hl' hab'
  rw [hp', he] at he'
  cases he'
  rw [het] at het'
  cases het'
  rfl

/-- In every run in which no `ConnDown` is processed while its peer's entry refers to a newer connection that is
still running, each peer has at most one live connection in every state reached. -/
theorem one_live_connection (own : Hello) (roster : RosterInner) (es : List TEvent) (s : Sys)
    (hr : Run (transportStep own) DownTimely (Sys.start roster) es s) (p : DeviceId) (t t' : Nat)
    (ht : Live s p t) (ht' : Live s p t') : t = t' := by
  have h : Referenced own.deviceId s :=
    hr.invariant (referenced_start own.deviceId roster) (fun _ _ _ h hd hs => referenced_step h hd hs)
  exact live_unique h ht ht'

/-! ### A `ConnDown` behind a newer connection -/

/-- The device under observation, paired with the peer `a`. -/
def helloOf (id : DeviceId) : Hello := ⟨protocolVersion, id, id, Caps.all⟩

def zeroKey : Key := Vector.replicate 32 0

def pairedWithA : RosterInner := RosterInner.replace [⟨"a", "a", zeroKey, []⟩]

/-- An accept task runs to its end: `a` connects and an `InboundReady` is queued. -/
def inboundFromA (k : Nat) : List TEvent :=
  [.tcp k zeroKey, .verify k, .recheck k, .lookup k, .hello k (some (.ok (.hello (helloOf "a"))))]

/-- The first connection ends while the second is already queued, so its `ConnDown` is processed after the second has
started; the third then finds no task to abort. -/
private def threeConnections : List TEvent :=
  [.resume, .resume] ++ inboundFromA 1 ++ [.process, .announceUp 0, .process] ++ inboundFromA 2 ++
    [.connEnd 0 .peerClosed, .announceDown 0, .process, .process] ++ inboundFromA 3 ++ [.process]

theorem stale_conn_down_detaches :
    ¬ ∀ (own : Hello) (roster : RosterInner) (es : List TEvent) (s : Sys),
      Run (transportStep own) Always (Sys.start roster) es s →
      ∀ p t t', Live s p t → Live s p t' → t = t' := by
  intro h
  obtain ⟨s, hrun, hview⟩ := run_of_exec_view (transportStep (helloOf "b")) (fun _ => True)
    (Sys.start pairedWithA) threeConnections (fun s => (decide (Live s "a" 1), decide (Live s "a" 2))) (true, true)
    (fun _ _ => trivial) (by decide)
  simp only [Prod.mk.injEq, decide_eq_true_eq] at hview
  exact absurd (h _ _ _ s hrun "a" 1 2 hview.1 hview.2) (by decide)

/-- The next message is no `ConnDown`. -/
def notDown (s : Sys) : Bool :=
  match s.queue with
  | .connDown .. :: _ => false
  | _ => true

theorem downTimely_of_notDown (s : Sys) (e : TEvent) (h : notDown s = true) : DownTimely s e := by
  intro _ p r t rest entry t' hq
  simp [notDown, hq] at h

/-- The peer connects a second time while its first connection is up. -/
private def twoConnections : List TEvent :=
  [.resume, .resume] ++ inboundFromA 1 ++ [.process, .announceUp 0, .process] ++ inboundFromA 2 ++ [.process]

theorem one_live_connection_replaced :
    ∃ s, Run (transportStep (helloOf "b")) DownTimely (Sys.start pairedWithA) twoConnections s ∧
      Live s "a" 1 ∧ ∀ t, Live s "a" t → t = 1 := by
  obtain ⟨s, hrun, hview⟩ := run_of_exec_checked (transportStep (helloOf "b"))
    (fun s _ => notDown s = true) (Sys.start pairedWithA) twoConnections (fun s => decide (Live s "a" 1)) true
    (by decide)
  have hrun : Run (transportStep (helloOf "b")) DownTimely (Sys.start pairedWithA) twoConnections s :=
    hrun.mono downTimely_of_notDown
  have hlive : Live s "a" 1 := by simpa using hview
  exact ⟨s, hrun, hlive, fun t ht => one_live_connection _ _ _ s hrun "a" t 1 ht hlive⟩

end Qdrop
