import Qdrop.Transport.Pinned

/-!
# Backoff between the passes of a dial loop (`dial_loop` of `qdropd/src/transport.rs`, `qdropd/src/backoff.rs`)

The system of the connection manager with a clock: after a pass a dial loop rests until the delay that its `Backoff`
drew is over or its watch channel holds a list that it has not seen.  `send` marks the channel as changed whatever the
list is, and the handlers of the manager send without looking at the list before.  So the loop dials the same
addresses again without the delay where one of them repeats the list of the pass (`repeated_record_dials_again`), and
only there (`dials_throttled`).
-/

namespace Qdrop

open Lib

/-! ### `Backoff` -/

/-- Durations are in nanoseconds. -/
structure Backoff where
  base : Nat
  max : Nat
  current : Nat
deriving DecidableEq, Repr

namespace Backoff

def new (base max : Nat) : Backoff := ⟨base, max, base⟩

/-- Reset after a successful connection. -/
def reset (b : Backoff) : Backoff := { b with current := b.base }

def nanosPerMilli : Nat := 1000000

/-- The next delay, for the number of milliseconds that the random generator gives, which is at most the ceiling. -/
def nextDelay (b : Backoff) (jitter : Nat) : Option (Nat × Backoff) :=
  if jitter ≤ Max.max (b.current / nanosPerMilli) 1 then
    some (jitter * nanosPerMilli, { b with current := min (b.current * 2) b.max })
  else none

end Backoff

/-! ### Dial loops with a clock -/

/-- A pass over the addresses: when it started, and when it ended with which delay. -/
structure DialPass where
  addrs : List SocketAddr
  started : Nat
  ended : Option (Nat × Nat)
deriving DecidableEq, Repr

/-- What a resting dial loop waits for. -/
inductive DialWait where
  /-- New addresses. -/
  | changed
  /-- The end of the delay, or new addresses. -/
  | delay (deadline : Nat)
deriving DecidableEq, Repr

/-- What a dial loop has besides its phase: `unseen` is set while its channel holds a list it has not seen. -/
structure DialClock where
  backoff : Backoff
  unseen : Bool
  wait : DialWait
  /-- The passes, the newest first. -/
  passes : List DialPass
deriving DecidableEq, Repr

namespace DialClock

def new (backoff : Backoff) : DialClock := ⟨backoff, false, .changed, []⟩

/-- `watch::Sender::send`. -/
def send (c : DialClock) : DialClock := { c with unseen := true }

/-- `borrow_and_update` at the top of the loop, and a pass begins if there are addresses and a key. -/
def read (c : DialClock) (now : Nat) : Option Task → DialClock
  | some ⟨_, .dial addrs (.dialing ..)⟩ => { c with unseen := false, passes := ⟨addrs, now, none⟩ :: c.passes }
  | _ => { c with unseen := false, wait := .changed }

/-- `dial_once` returns, and the delay is drawn. -/
def finish (c : DialClock) (connected : Bool) (now jitter : Nat) : Option DialClock :=
  ((if connected then c.backoff.reset else c.backoff).nextDelay jitter).map fun drawn =>
    { c with
      backoff := drawn.2
      wait := .delay (now + drawn.1)
      passes := match c.passes with
        | p :: ps => { p with ended := some (now, drawn.1) } :: ps
        | [] => [] }

/-- The delay is over, or `changed` returns, which marks the list as seen. -/
def wake (c : DialClock) (now : Nat) : Option DialClock :=
  let due := match c.wait with
    | .changed => false
    | .delay deadline => decide (deadline ≤ now)
  if due then some c else if c.unseen then some { c with unseen := false } else none

end DialClock

/-- The system, the time, and the clocks of the dial loops. -/
structure Dials where
  sys : Sys
  now : Nat
  clocks : Nat → DialClock

def Dials.start (backoff : Backoff) (roster : RosterInner) : Dials := ⟨Sys.start roster, 0, fun _ => .new backoff⟩

inductive DialsEvent where
  | tick (n : Nat)
  /-- A step of the system; `jitter` is what the random generator gives where a delay is drawn. -/
  | step (e : TEvent) (jitter : Nat)
deriving DecidableEq

/-- The dial loop whose channel a handler sends to in this step, and the list it sends. -/
def Sys.sentTo (ownId : DeviceId) (s : Sys) : TEvent → Option (Nat × List SocketAddr)
  | .process =>
    match s.work, s.queue with
    | .idle, .discovery (.lost deviceId) :: _ =>
      ((s.peers.lookup deviceId).bind (·.addrsTx)).map fun t => (t, s.roster.staticAddrsFor deviceId)
    | _, _ => none
  | .resume =>
    match s.work with
    | .ensure p _ =>
      match roleFor ownId p.deviceId with
      | .dialer =>
        ((s.peers.lookup p.deviceId).bind (·.addrsTx)).map fun t =>
          (t, withStatic p.addrs (s.roster.staticAddrsFor p.deviceId))
      | .acceptor => none
    | _ => none
  | _ => none

/-- What the step to `sys` does to the clocks; `none` where a loop may not wake up yet. -/
def Dials.clocksAfter (ownId : DeviceId) (backoff : Backoff) (s : Dials) (sys : Sys) (jitter : Nat) (e : TEvent) :
    Option (Nat → DialClock) :=
  let set := fun t c => Function.update s.clocks t c
  match e with
  | .dialRead t => some (set t ((s.clocks t).read s.now (sys.tasks.lookup t)))
  | .dialFail t => ((s.clocks t).finish false s.now jitter).map (set t)
  | .announceDown t =>
    match s.sys.tasks.lookup t with
    | some ⟨_, .dial ..⟩ => ((s.clocks t).finish true s.now jitter).map (set t)
    | _ => some s.clocks
  | .dialWake t => ((s.clocks t).wake s.now).map (set t)
  | e =>
    match s.sys.sentTo ownId e with
    | some (t, _) => some (set t (s.clocks t).send)
    -- a new dial loop has a backoff of its own
    | none => some (if sys.nextTask = s.sys.nextTask then s.clocks else set s.sys.nextTask (.new backoff))

def dialsStep (own : Hello) (backoff : Backoff) (s : Dials) : DialsEvent → Option Dials
  | .tick n => some { s with now := s.now + n }
  | .step e jitter =>
    (transportStep own s.sys e).bind fun sys =>
      (s.clocksAfter own.deviceId backoff sys jitter e).map fun clocks => { s with sys := sys, clocks := clocks }

/-! ### Throttled passes -/

/-- The pass has ended, and its delay is over. -/
def DialPass.Over (p : DialPass) (now : Nat) : Prop :=
  ∃ ended delay, p.ended = some (ended, delay) ∧ ended + delay ≤ now

/-- The pass `p` has ended, and a pass over `addrs` may start: the delay is over, or the list is another one. -/
def DialPass.Allows (p : DialPass) (addrs : List SocketAddr) (now : Nat) : Prop :=
  p.ended.isSome ∧ (p.Over now ∨ addrs ≠ p.addrs)

/-- Every pass but the first was allowed by the one before it. -/
def Throttled (passes : List DialPass) : Prop := passes.IsChain fun q p => p.Allows q.addrs q.started

/-- No handler sends a dial loop the list of its pass before the delay after that pass is over. -/
def NoRepeat (ownId : DeviceId) (s : Dials) : DialsEvent → Prop
  | .tick _ => True
  | .step e _ => ∀ t addrs, s.sys.sentTo ownId e = some (t, addrs) →
      ∀ p, (s.clocks t).passes.head? = some p → p.Over s.now ∨ addrs ≠ p.addrs

instance (p : DialPass) (now : Nat) : Decidable (p.Over now) :=
  decidable_of_iff (∃ x ∈ p.ended, x.1 + x.2 ≤ now)
    ⟨fun ⟨⟨ended, delay⟩, h, hle⟩ => ⟨ended, delay, h, hle⟩, fun ⟨ended, delay, h, hle⟩ => ⟨(ended, delay), h, hle⟩⟩

instance (p : DialPass) (addrs : List SocketAddr) (now : Nat) : Decidable (p.Allows addrs now) :=
  inferInstanceAs (Decidable (_ ∧ _))

instance (passes : List DialPass) : Decidable (Throttled passes) := inferInstanceAs (Decidable (List.IsChain _ _))

instance (ownId : DeviceId) (s : Dials) : (e : DialsEvent) → Decidable (NoRepeat ownId s e)
  | .tick _ => .isTrue trivial
  | .step e _ =>
    decidable_of_iff
      (∀ x ∈ s.sys.sentTo ownId e, ∀ p ∈ (s.clocks x.1).passes.head?, p.Over s.now ∨ x.2 ≠ p.addrs)
      ⟨fun h t addrs hsent p hp => h (t, addrs) hsent p hp, fun h x hsent p hp => h x.1 x.2 hsent p hp⟩

/-! ### What a step does to a dial loop -/

section Steps

variable {own : Hello} {s s' : Sys} {e : TEvent}

/-- In a pass. -/
def DialPhase.isBusy : DialPhase → Bool
  | .dialing .. | .driving _ => true
  | .top | .resting => false

/-- The list of a dial loop after a `send`. -/
theorem lookup_sent {tasks : AList (fun _ : Nat => Task)} {t u : Nat} {addrs l : List SocketAddr} {peer : DeviceId}
    {phase : DialPhase} (h : (sendAddrs tasks t addrs).lookup u = some ⟨peer, .dial l phase⟩) :
    ∃ old, tasks.lookup u = some ⟨peer, .dial old phase⟩ ∧ l = if u = t then addrs else old := by
  unfold sendAddrs at h
  split at h
  · rename_i old _ ht
    rcases lookup_insert_eq_some.1 h with ⟨rfl, heq⟩ | ⟨hne, h⟩
    · cases heq
      exact ⟨old, ht, (if_pos rfl).symm⟩
    · exact ⟨l, h, (if_neg hne).symm⟩
  · rename_i hnot
    refine ⟨l, h, ?_⟩
    split
    · rename_i heq
      subst heq
      exact absurd h (hnot peer l phase)
    · rfl

/-- What a handler does to the tasks: it sends to a dial loop, leaves them alone, or spawns one. -/
inductive HandlerStep (ownId : DeviceId) (s : Sys) (e : TEvent) (s' : Sys) : Prop
  | sent (t : Nat) (addrs : List SocketAddr) (hsent : s.sentTo ownId e = some (t, addrs))
      (htasks : s'.tasks = sendAddrs s.tasks t addrs)
  | kept (hsent : s.sentTo ownId e = none) (htasks : s'.tasks = s.tasks) (hnext : s'.nextTask = s.nextTask)
  | spawned (task : Task) (hsent : s.sentTo ownId e = none) (htasks : s'.tasks = s.tasks.insert s.nextTask task)
      (hnext : s'.nextTask = s.nextTask + 1)
      (hnew : ∀ peer addrs phase, task = ⟨peer, .dial addrs phase⟩ → phase = .top)

private theorem handled_ensurePeer {p : DiscoveredPeer} {rest : List DiscoveredPeer} (hw : s.work = .ensure p rest) :
    HandlerStep own.deviceId s .resume { ensurePeer own.deviceId s p with work := .check rest } := by
  unfold ensurePeer
  cases hrole : roleFor own.deviceId p.deviceId with
  | acceptor => exact .kept (by simp only [Sys.sentTo, hw, hrole]) rfl rfl
  | dialer =>
    cases hl : s.peers.lookup p.deviceId with
    | none =>
      refine .spawned _ (by simp only [Sys.sentTo, hw, hrole, hl, Option.bind_none, Option.map_none]) rfl rfl ?_
      intro peer addrs phase heq
      cases heq
      rfl
    | some entry =>
      cases htx : entry.addrsTx with
      | some t =>
        refine .sent t (withStatic p.addrs (s.roster.staticAddrsFor p.deviceId)) ?_ ?_
        · simp only [Sys.sentTo, hw, hrole, hl, Option.bind_some, htx, Option.map_some]
        · simp only [Option.getD_some, htx]
      | none =>
        simp only [Option.getD_some, htx]
        refine .spawned _ ?_ rfl rfl ?_
        · simp only [Sys.sentTo, hw, hrole, hl, Option.bind_some, htx, Option.map_none]
        · intro peer addrs phase heq
          cases heq
          rfl

private theorem handled_process {m : Internal} {rest : List Internal} (hw : s.work = .idle) (hq : s.queue = m :: rest) :
    HandlerStep own.deviceId s .process (handleInternal own.deviceId { s with queue := rest } m) := by
  cases m with
  | discovery ev =>
    cases ev with
    | found p => exact .kept (by simp only [Sys.sentTo, hw, hq]) rfl rfl
    | lost id =>
      simp only [handleInternal, onLost]
      cases hl : s.peers.lookup id with
      | none => exact .kept (by simp only [Sys.sentTo, hw, hq, hl, Option.bind_none, Option.map_none]) rfl rfl
      | some entry =>
        obtain ⟨role, name, connected, tx, task⟩ := entry
        cases tx with
        | none => exact .kept (by simp only [Sys.sentTo, hw, hq, hl, Option.bind_some, Option.map_none]) rfl rfl
        | some t =>
          exact .sent t _ (by simp only [Sys.sentTo, hw, hq, hl, Option.bind_some, Option.map_some]) rfl
  | rosterChanged =>
    obtain ⟨_, _, _, _, heq⟩ := sweep_cases (s.peers.keys.filter fun id => !s.roster.ids.contains id)
      { s with queue := rest }
    simp only [handleInternal, onRosterChanged, heq]
    exact .kept (by simp only [Sys.sentTo, hw, hq]) rfl rfl
  | inboundReady peer caps =>
    simp only [handleInternal, onInboundReady]
    split
    · exact .kept (by simp only [Sys.sentTo, hw, hq]) rfl rfl
    · refine .spawned _ (by simp only [Sys.sentTo, hw, hq]) rfl rfl ?_
      intro peer addrs phase heq
      cases heq
  | connUp => exact .kept (by simp only [Sys.sentTo, hw, hq]) rfl rfl
  | connDown => exact .kept (by simp only [Sys.sentTo, hw, hq]) rfl rfl

/-- An event that is no step of a connection or dial task. -/
theorem handled_step (ht : e.task? = none) (h : transportStep own s e = some s') : HandlerStep own.deviceId s e s' := by
  by_cases he : e = .process ∨ e = .resume
  · rcases he with rfl | rfl
    · simp only [transportStep] at h
      split at h
      · rename_i m rest hw hq
        cases h
        exact handled_process hw hq
      · cases h
    · have hresume : resumeWork own.deviceId s = some s' := h
      cases hw : s.work with
      | ensure p rest =>
        simp only [resumeWork, hw, Option.some.injEq] at hresume
        rw [← hresume]
        exact handled_ensurePeer hw
      | check ps =>
        cases ps with
        | nil =>
          simp only [resumeWork, hw, Option.some.injEq] at hresume
          exact .kept (by simp only [Sys.sentTo, hw]) (by rw [← hresume]) (by rw [← hresume])
        | cons p ps =>
          simp only [resumeWork, hw, Option.some.injEq] at hresume
          exact .kept (by simp only [Sys.sentTo, hw]) (by rw [← hresume]) (by rw [← hresume])
      | startup | seed =>
        simp only [resumeWork, hw, Option.some.injEq] at hresume
        exact .kept (by simp only [Sys.sentTo, hw]) (by rw [← hresume]) (by rw [← hresume])
      | idle =>
        simp only [resumeWork, hw] at hresume
        cases hresume
  · rw [not_or] at he
    have hsent : s.sentTo own.deviceId e = none := by
      cases e <;> first | rfl | simp at he
    rcases transportStep_cases h with ⟨_, -, rfl⟩ | ⟨_, _, _, _, _, -, rfl⟩ | ⟨rfl, -⟩ | ⟨rfl, -⟩ | ⟨t, task, -, h⟩
    · exact .kept hsent rfl rfl
    · exact .kept hsent rfl rfl
    · exact absurd rfl he.1
    · exact absurd rfl he.2
    · have hnone : taskStep own s t task e = none := by
        cases e <;> first | rfl | cases ht
      rw [hnone] at h
      cases h

/-- An event of a task is a step of that task, and the other tasks stay. -/
theorem task_step {t : Nat} (ht : e.task? = some t) (h : transportStep own s e = some s') :
    ∃ task, s.tasks.lookup t = some task ∧ taskStep own s t task e = some s' ∧ s'.nextTask = s.nextTask ∧
      ∀ u, u ≠ t → s'.tasks.lookup u = s.tasks.lookup u := by
  have hbind : (s.tasks.lookup t).bind (fun task => taskStep own s t task e) = some s' := by
    cases e <;> first | (cases ht; exact h) | cases ht
  obtain ⟨task, hl, hs⟩ := Option.bind_eq_some_iff.1 hbind
  refine ⟨task, hl, hs, ?_, fun u hu => ?_⟩
  · obtain ⟨_, _, _, -, -, rfl⟩ := taskStep_frame hs
    rfl
  · have hinsert : ∀ next : Task, (s.tasks.insert t next).lookup u = s.tasks.lookup u := fun next =>
      AList.lookup_insert_ne hu
    have herase : (s.tasks.erase t).lookup u = s.tasks.lookup u := AList.lookup_erase_ne hu
    rcases taskStep_cases hs with ⟨_, -, -, heq⟩ | ⟨_, _, -, -, heq⟩ | ⟨_, _, _, -, -, -, heq⟩ | ⟨_, _, -, -, -, heq⟩ |
      ⟨_, _, _, _, -, -, -, -, -, heq⟩ | heq | ⟨-, heq⟩
    · rw [heq, hinsert]
    · rw [heq, hinsert]
    · rw [heq, hinsert]
    · rw [heq, herase]
    · rw [heq, hinsert]
    · rw [heq]
    · rw [heq, herase]

/-- Every address of the pass failed. -/
theorem dialFail_cases {t : Nat} (h : transportStep own s (.dialFail t) = some s') :
    ∃ peer addrs expect candidates, s.tasks.lookup t = some ⟨peer, .dial addrs (.dialing expect candidates)⟩ ∧
      s'.tasks = s.tasks.insert t ⟨peer, .dial addrs .resting⟩ := by
  obtain ⟨⟨peer, state⟩, hl, hs, -⟩ := task_step rfl h
  dsimp only [taskStep] at hs
  split at hs
  · cases hs
    exact ⟨_, _, _, _, hl, rfl⟩
  · cases hs

theorem dialWake_cases {t : Nat} (h : transportStep own s (.dialWake t) = some s') :
    ∃ peer addrs, s.tasks.lookup t = some ⟨peer, .dial addrs .resting⟩ ∧
      s'.tasks = s.tasks.insert t ⟨peer, .dial addrs .top⟩ := by
  obtain ⟨⟨peer, state⟩, hl, hs, -⟩ := task_step rfl h
  dsimp only [taskStep] at hs
  split at hs
  · cases hs
    exact ⟨_, _, hl, rfl⟩
  · cases hs

/-- The connection of a dial loop has ended. -/
theorem announceDown_cases {t : Nat} (h : transportStep own s (.announceDown t) = some s') :
    (∃ peer addrs c, s.tasks.lookup t = some ⟨peer, .dial addrs (.driving c)⟩ ∧
      s'.tasks = s.tasks.insert t ⟨peer, .dial addrs .resting⟩) ∨
    (∃ peer c, s.tasks.lookup t = some ⟨peer, .drive c⟩ ∧ s'.tasks = s.tasks.erase t) := by
  obtain ⟨⟨peer, state⟩, hl, hs, -⟩ := task_step rfl h
  dsimp only [taskStep] at hs
  split at hs
  · rename_i hconn
    cases state with
    | drive c =>
      rw [push_eq_some hs]
      exact Or.inr ⟨peer, c, hl, rfl⟩
    | dial addrs phase =>
      cases phase with
      | driving c =>
        rw [push_eq_some hs]
        exact Or.inl ⟨peer, addrs, c, hl, rfl⟩
      | top | dialing | resting => cases hconn
  · cases hs

private theorem busy_setPhase {task : Task} {ph : ConnPhase} {peer : DeviceId} {addrs : List SocketAddr}
    {phase' : DialPhase} (h : task.setPhase ph = ⟨peer, .dial addrs phase'⟩) :
    ∃ phase, task = ⟨peer, .dial addrs phase⟩ ∧ (phase = phase' ∨ phase.isBusy = true ∧ phase'.isBusy = true) := by
  obtain ⟨q, state⟩ := task
  cases state with
  | drive c => cases h
  | dial l phase =>
    cases phase with
    | driving c =>
      cases h
      exact ⟨.driving c, rfl, Or.inr ⟨rfl, rfl⟩⟩
    | top | dialing | resting =>
      cases h
      exact ⟨_, rfl, Or.inl rfl⟩

/-- A step after which a dial loop is in the same pass or where it was. -/
theorem busy_step {t : Nat} (ht : e.task? = some t) (hread : e ≠ .dialRead t) (hfail : e ≠ .dialFail t)
    (hdown : e ≠ .announceDown t) (hwake : e ≠ .dialWake t) (h : transportStep own s e = some s') {peer : DeviceId}
    {addrs : List SocketAddr} {phase' : DialPhase} (hl' : s'.tasks.lookup t = some ⟨peer, .dial addrs phase'⟩) :
    ∃ phase, s.tasks.lookup t = some ⟨peer, .dial addrs phase⟩ ∧
      (phase = phase' ∨ phase.isBusy = true ∧ phase'.isBusy = true) := by
  obtain ⟨task, hl, hs, -⟩ := task_step ht h
  -- the connection that the task drives goes on
  have hdriven : ∀ ph, s'.tasks = s.tasks.insert t (task.setPhase ph) → ∃ phase,
      s.tasks.lookup t = some ⟨peer, .dial addrs phase⟩ ∧
        (phase = phase' ∨ phase.isBusy = true ∧ phase'.isBusy = true) := by
    intro ph heq
    rw [heq, AList.lookup_insert, Option.some.injEq] at hl'
    obtain ⟨phase, rfl, hphase⟩ := busy_setPhase hl'
    exact ⟨phase, hl, hphase⟩
  cases e with
  | announceUp u =>
    cases ht
    dsimp only [taskStep] at hs
    split at hs
    · split at hs
      · exact hdriven _ (by rw [push_eq_some hs])
      · cases hs
    · cases hs
  | connEnd u reason =>
    cases ht
    dsimp only [taskStep] at hs
    split at hs
    · split at hs
      · cases hs
        exact hdriven _ rfl
      · cases hs
    · cases hs
  | dialHello u addr first =>
    cases ht
    obtain ⟨q, l, expect, candidates, hq, ⟨hs', -, rfl⟩ | ⟨-, rfl⟩⟩ := dialHello_cases h
    · rw [AList.lookup_insert] at hl'
      cases hl'
      exact ⟨_, hq, Or.inr ⟨rfl, rfl⟩⟩
    · exact ⟨_, hl', Or.inl rfl⟩
  | cancel u =>
    cases ht
    dsimp only [taskStep] at hs
    split at hs
    · cases hs
      rw [AList.lookup_erase] at hl'
      cases hl'
    · cases hs
  | dialRead u =>
    cases ht
    exact absurd rfl hread
  | dialFail u =>
    cases ht
    exact absurd rfl hfail
  | announceDown u =>
    cases ht
    exact absurd rfl hdown
  | dialWake u =>
    cases ht
    exact absurd rfl hwake
  | _ => cases ht

end Steps

/-! ### The invariant -/

/-- The last pass allows one over `addrs`. -/
def DialClock.Ready (c : DialClock) (addrs : List SocketAddr) (now : Nat) : Prop :=
  ∀ p, c.passes.head? = some p → p.Allows addrs now

/-- In a pass: a list that the loop has not seen is not that of the pass. -/
def DialClock.InPass (c : DialClock) (addrs : List SocketAddr) : Prop :=
  ∃ p ps, c.passes = p :: ps ∧ p.ended = none ∧ (c.unseen = true → addrs ≠ p.addrs)

/-- What holds of a dial loop with `addrs` in its channel. -/
def ClockOk (now : Nat) (addrs : List SocketAddr) (c : DialClock) : DialPhase → Prop
  | .top => c.Ready addrs now
  | .dialing .. | .driving _ => c.InPass addrs
  | .resting =>
    match c.wait with
    | .changed => c.Ready addrs now
    | .delay deadline => ∃ p ps ended delay, c.passes = p :: ps ∧ p.ended = some (ended, delay) ∧
        deadline = ended + delay ∧ (c.unseen = true → p.Allows addrs now)

structure Throttling (s : Dials) : Prop where
  passes : ∀ t, Throttled (s.clocks t).passes
  clock : ∀ t peer addrs phase, s.sys.tasks.lookup t = some ⟨peer, .dial addrs phase⟩ →
    ClockOk s.now addrs (s.clocks t) phase

section Clocks

variable {now now' jitter : Nat} {addrs addrs' : List SocketAddr} {c c' : DialClock} {phase phase' : DialPhase}
  {p : DialPass}

theorem DialPass.Over.later (h : p.Over now) (hle : now ≤ now') : p.Over now' := by
  obtain ⟨ended, delay, hended, hover⟩ := h
  exact ⟨ended, delay, hended, hover.trans hle⟩

theorem DialPass.Allows.later (h : p.Allows addrs now) (hle : now ≤ now') : p.Allows addrs now' :=
  ⟨h.1, h.2.imp_left fun hover => hover.later hle⟩

theorem ClockOk.later (h : ClockOk now addrs c phase) (hle : now ≤ now') : ClockOk now' addrs c phase := by
  cases phase with
  | top => exact fun p hp => (h p hp).later hle
  | dialing expect candidates => exact h
  | driving conn => exact h
  | resting =>
    unfold ClockOk at h ⊢
    dsimp only at h ⊢
    split
    · rename_i hwait
      rw [hwait] at h
      exact fun p hp => (h p hp).later hle
    · rename_i deadline hwait
      rw [hwait] at h
      obtain ⟨p, ps, ended, delay, hpasses, hended, hdeadline, hunseen⟩ := h
      exact ⟨p, ps, ended, delay, hpasses, hended, hdeadline, fun hu => (hunseen hu).later hle⟩

/-- All phases of a pass are alike. -/
theorem clockOk_busy (h : phase.isBusy = true) : ClockOk now addrs c phase ↔ c.InPass addrs := by
  cases phase with
  | dialing expect candidates => exact Iff.rfl
  | driving conn => exact Iff.rfl
  | top | resting => cases h

/-- A list may be sent that is not that of the pass, or when the delay is over. -/
theorem ClockOk.send (h : ClockOk now addrs c phase)
    (hnew : ∀ p, c.passes.head? = some p → p.Over now ∨ addrs' ≠ p.addrs) : ClockOk now addrs' c.send phase := by
  have hready : c.Ready addrs now → c.send.Ready addrs' now := fun hr p hp => ⟨(hr p hp).1, hnew p hp⟩
  have hbusy : c.InPass addrs → c.send.InPass addrs' := by
    rintro ⟨p, ps, hpasses, hended, -⟩
    refine ⟨p, ps, hpasses, hended, fun _ => (hnew p (by rw [hpasses]; rfl)).resolve_left ?_⟩
    rintro ⟨_, _, hsome, -⟩
    rw [hended] at hsome
    cases hsome
  cases phase with
  | top => exact hready h
  | dialing expect candidates => exact hbusy h
  | driving conn => exact hbusy h
  | resting =>
    unfold ClockOk at h ⊢
    dsimp only [DialClock.send] at h ⊢
    split
    · rename_i hwait
      rw [hwait] at h
      exact hready h
    · rename_i deadline hwait
      rw [hwait] at h
      obtain ⟨p, ps, ended, delay, hpasses, hended, hdeadline, -⟩ := h
      exact ⟨p, ps, ended, delay, hpasses, hended, hdeadline, fun _ =>
        ⟨by rw [hended]; rfl, hnew p (by rw [hpasses]; rfl)⟩⟩

/-- A pass begins where the last one allows it. -/
theorem ClockOk.begin (h : ClockOk now addrs c .top) (hpasses : Throttled c.passes) (peer : DeviceId) (expect : Key) :
    Throttled (c.read now (some ⟨peer, .dial addrs (.dialing expect addrs)⟩)).passes ∧
      ClockOk now addrs (c.read now (some ⟨peer, .dial addrs (.dialing expect addrs)⟩)) (.dialing expect addrs) := by
  constructor
  · cases hc : c.passes with
    | nil =>
      simp only [DialClock.read, hc]
      exact .singleton _
    | cons p ps =>
      simp only [DialClock.read, hc]
      rw [Throttled, hc] at hpasses
      exact .cons_cons (h p (by rw [hc]; rfl)) hpasses
  · exact ⟨⟨addrs, now, none⟩, c.passes, rfl, rfl, fun hu => by cases hu⟩

/-- Without addresses or a key the loop waits for a change. -/
theorem ClockOk.idle (h : ClockOk now addrs c .top) (peer : DeviceId) :
    (c.read now (some ⟨peer, .dial addrs .resting⟩)).passes = c.passes ∧
      ClockOk now addrs (c.read now (some ⟨peer, .dial addrs .resting⟩)) .resting := ⟨rfl, h⟩

/-- At the end of a pass its delay is drawn. -/
theorem ClockOk.finish {connected : Bool} (h : ClockOk now addrs c phase) (hbusy : phase.isBusy = true)
    (hpasses : Throttled c.passes) (hc : c.finish connected now jitter = some c') :
    Throttled c'.passes ∧ ClockOk now addrs c' .resting := by
  obtain ⟨p, ps, hp, hended, hunseen⟩ := (clockOk_busy hbusy).1 h
  obtain ⟨⟨delay, backoff⟩, -, rfl⟩ := Option.map_eq_some_iff.1 hc
  simp only [hp]
  constructor
  · rw [Throttled, hp] at hpasses
    cases hps : ps with
    | nil => exact .singleton _
    | cons q qs =>
      rw [hps, List.isChain_cons_cons] at hpasses
      exact .cons_cons hpasses.1 hpasses.2
  · exact ⟨_, ps, now, delay, rfl, rfl, rfl, fun hu => ⟨rfl, Or.inr (hunseen hu)⟩⟩

/-- Inversion: the delay is over, or there is a list that the loop has not seen. -/
theorem DialClock.wake_cases (hc : c.wake now = some c') :
    (c' = c ∧ ∃ deadline, c.wait = .delay deadline ∧ deadline ≤ now) ∨
      (c.unseen = true ∧ c' = { c with unseen := false }) := by
  unfold DialClock.wake at hc
  dsimp only at hc
  by_cases hdue : (match c.wait with
      | .changed => false
      | .delay deadline => decide (deadline ≤ now)) = true
  · rw [if_pos hdue] at hc
    split at hdue
    · cases hdue
    · rename_i deadline hwait
      exact Or.inl ⟨(Option.some.inj hc).symm, deadline, hwait, of_decide_eq_true hdue⟩
  · rw [if_neg hdue] at hc
    split at hc
    · rename_i hunseen
      exact Or.inr ⟨hunseen, (Option.some.inj hc).symm⟩
    · cases hc

/-- A loop wakes up when its last pass allows the next. -/
theorem ClockOk.wake (h : ClockOk now addrs c .resting) (hc : c.wake now = some c') :
    c'.passes = c.passes ∧ ClockOk now addrs c' .top := by
  unfold ClockOk at h
  dsimp only at h
  rcases DialClock.wake_cases hc with ⟨rfl, deadline, hwait, hover⟩ | ⟨hunseen, rfl⟩
  · rw [hwait] at h
    obtain ⟨p, ps, ended, delay, hpasses, hended, rfl, -⟩ := h
    refine ⟨rfl, fun q hq => ?_⟩
    rw [hpasses] at hq
    cases hq
    exact ⟨by rw [hended]; rfl, Or.inl ⟨ended, delay, hended, hover⟩⟩
  · refine ⟨rfl, fun q hq => ?_⟩
    split at h
    · exact h q hq
    · obtain ⟨p, ps, ended, delay, hpasses, hended, -, hallows⟩ := h
      dsimp only at hq
      rw [hpasses] at hq
      cases hq
      exact hallows hunseen

end Clocks

/-! ### Runs -/

section Runs

variable {own : Hello} {backoff : Backoff} {s s' : Dials} {e : DialsEvent}

/-- Only the dial loop `t` and its clock change. -/
private theorem Throttling.set (h : Throttling s) {sys : Sys} {t : Nat} {c : DialClock}
    (hother : ∀ u, u ≠ t → sys.tasks.lookup u = s.sys.tasks.lookup u) (hpasses : Throttled c.passes)
    (hclock : ∀ peer addrs phase, sys.tasks.lookup t = some ⟨peer, .dial addrs phase⟩ → ClockOk s.now addrs c phase) :
    Throttling { s with sys := sys, clocks := Function.update s.clocks t c } := by
  constructor
  · intro u
    by_cases hu : u = t
    · subst hu
      simpa using hpasses
    · simpa [hu] using h.passes u
  · intro u peer addrs phase hl
    by_cases hu : u = t
    · subst hu
      simpa using hclock peer addrs phase hl
    · rw [hother u hu] at hl
      simpa [hu] using h.clock u peer addrs phase hl

/-- The dial loop `t` goes to another phase. -/
private theorem Throttling.put (h : Throttling s) {sys : Sys} {t : Nat} {c : DialClock} {peer : DeviceId}
    {addrs : List SocketAddr} {phase : DialPhase} (htasks : sys.tasks = s.sys.tasks.insert t ⟨peer, .dial addrs phase⟩)
    (hpasses : Throttled c.passes) (hclock : ClockOk s.now addrs c phase) :
    Throttling { s with sys := sys, clocks := Function.update s.clocks t c } := by
  refine h.set (fun u hu => ?_) hpasses fun q l phase' hq => ?_
  · rw [htasks]
    exact AList.lookup_insert_ne hu
  · rw [htasks, AList.lookup_insert] at hq
    cases hq
    exact hclock

/-- A handler sends to a dial loop, or spawns one. -/
private theorem throttling_handled {te : TEvent} {sys : Sys} {jitter : Nat} {clocks : Nat → DialClock}
    (h : Throttling s) (hok : NoRepeat own.deviceId s (.step te jitter)) (ht : te.task? = none)
    (hs : transportStep own s.sys te = some sys)
    (hc : s.clocksAfter own.deviceId backoff sys jitter te = some clocks) :
    Throttling { s with sys := sys, clocks := clocks } := by
  have hafter : s.clocksAfter own.deviceId backoff sys jitter te = match s.sys.sentTo own.deviceId te with
      | some (t, _) => some (Function.update s.clocks t (s.clocks t).send)
      | none => some (if sys.nextTask = s.sys.nextTask then s.clocks
          else Function.update s.clocks s.sys.nextTask (.new backoff)) := by
    cases te <;> first | rfl | cases ht
  rw [hafter] at hc
  cases handled_step ht hs with
  | sent t addrs hsent htasks =>
    rw [hsent] at hc
    cases hc
    refine h.set (fun u hu => ?_) (h.passes t) fun peer l phase hl => ?_
    · rw [htasks]
      unfold sendAddrs
      split
      · exact AList.lookup_insert_ne hu
      · rfl
    · rw [htasks] at hl
      obtain ⟨old, hold, hl⟩ := lookup_sent hl
      rw [if_pos rfl] at hl
      rw [hl]
      exact (h.clock t peer old phase hold).send (hok t addrs hsent)
  | kept hsent htasks hnext =>
    rw [hsent, if_pos hnext] at hc
    cases hc
    refine ⟨h.passes, fun u peer addrs phase hl => ?_⟩
    dsimp only at hl
    rw [htasks] at hl
    exact h.clock u peer addrs phase hl
  | spawned task hsent htasks hnext hnew =>
    rw [hsent, if_neg (by omega)] at hc
    cases hc
    refine h.set (fun u hu => ?_) .nil fun peer addrs phase hl => ?_
    · rw [htasks]
      exact AList.lookup_insert_ne hu
    · rw [htasks, AList.lookup_insert, Option.some.injEq] at hl
      rw [hnew peer addrs phase hl]
      exact fun p hp => by cases hp

/-- Step lemma. -/
theorem throttling_step (h : Throttling s) (hok : NoRepeat own.deviceId s e)
    (hs : dialsStep own backoff s e = some s') : Throttling s' := by
  cases e with
  | tick n =>
    cases hs
    exact ⟨h.passes, fun t peer addrs phase hl => (h.clock t peer addrs phase hl).later (Nat.le_add_right ..)⟩
  | step te jitter =>
    obtain ⟨sys, hsys, hmap⟩ := Option.bind_eq_some_iff.1 hs
    obtain ⟨clocks, hc, rfl⟩ := Option.map_eq_some_iff.1 hmap
    cases ht : te.task? with
    | none => exact throttling_handled h hok ht hsys hc
    | some t =>
      obtain ⟨task, hl, hstep, hnext, hother⟩ := task_step ht hsys
      have hkeep : clocks = s.clocks →
          (∀ peer addrs phase, sys.tasks.lookup t = some ⟨peer, .dial addrs phase⟩ →
            ClockOk s.now addrs (s.clocks t) phase) →
          Throttling { s with sys := sys, clocks := clocks } := by
        rintro rfl hclock
        have hset := h.set hother (h.passes t) hclock
        rwa [Function.update_eq_self] at hset
      by_cases hread : te = .dialRead t
      · subst hread
        have hclocks := (Option.some.inj hc).symm
        obtain ⟨peer, addrs, htop, ⟨expect, -, rfl⟩ | rfl⟩ := dialRead_cases hsys
        · rw [AList.lookup_insert] at hclocks
          obtain ⟨hpasses, hclock⟩ := (h.clock t peer addrs .top htop).begin (h.passes t) peer expect
          rw [hclocks]
          exact h.put rfl hpasses hclock
        · rw [AList.lookup_insert] at hclocks
          obtain ⟨hpasses, hclock⟩ := (h.clock t peer addrs .top htop).idle peer
          rw [hclocks]
          exact h.put rfl (by rw [hpasses]; exact h.passes t) hclock
      by_cases hfail : te = .dialFail t
      · subst hfail
        obtain ⟨c, hfinish, rfl⟩ := Option.map_eq_some_iff.1 hc
        obtain ⟨peer, addrs, expect, candidates, hdial, htasks⟩ := dialFail_cases hsys
        obtain ⟨hpasses, hclock⟩ := (h.clock t peer addrs _ hdial).finish rfl (h.passes t) hfinish
        exact h.put htasks hpasses hclock
      by_cases hdown : te = .announceDown t
      · subst hdown
        rcases announceDown_cases hsys with ⟨peer, addrs, conn, hdial, htasks⟩ | ⟨peer, conn, hdrive, htasks⟩
        · simp only [Dials.clocksAfter, hdial] at hc
          obtain ⟨c, hfinish, rfl⟩ := Option.map_eq_some_iff.1 hc
          obtain ⟨hpasses, hclock⟩ := (h.clock t peer addrs _ hdial).finish rfl (h.passes t) hfinish
          exact h.put htasks hpasses hclock
        · simp only [Dials.clocksAfter, hdrive, Option.some.injEq] at hc
          refine hkeep hc.symm fun q l phase hq => ?_
          rw [htasks, AList.lookup_erase] at hq
          cases hq
      by_cases hwake : te = .dialWake t
      · subst hwake
        obtain ⟨c, hawake, rfl⟩ := Option.map_eq_some_iff.1 hc
        obtain ⟨peer, addrs, hrest, htasks⟩ := dialWake_cases hsys
        obtain ⟨hpasses, hclock⟩ := (h.clock t peer addrs _ hrest).wake hawake
        exact h.put htasks (by rw [hpasses]; exact h.passes t) hclock
      -- the other events of a task leave the clocks alone
      have hsilent : s.clocksAfter own.deviceId backoff sys jitter te = some s.clocks := by
        cases te with
        | announceUp | connEnd | dialHello | cancel => simp only [Dials.clocksAfter, Sys.sentTo, hnext, if_true]
        | dialRead u =>
          cases ht
          exact absurd rfl hread
        | dialFail u =>
          cases ht
          exact absurd rfl hfail
        | announceDown u =>
          cases ht
          exact absurd rfl hdown
        | dialWake u =>
          cases ht
          exact absurd rfl hwake
        | _ => cases ht
      refine hkeep (Option.some.inj (hc.symm.trans hsilent)) fun peer addrs phase hq => ?_
      obtain ⟨phase₀, hq₀, hphase⟩ := busy_step ht hread hfail hdown hwake hsys hq
      have hclock := h.clock t peer addrs phase₀ hq₀
      rcases hphase with rfl | ⟨hbusy, hbusy'⟩
      · exact hclock
      · exact (clockOk_busy hbusy').2 ((clockOk_busy hbusy).1 hclock)

theorem throttling_start (backoff : Backoff) (roster : RosterInner) : Throttling (Dials.start backoff roster) where
  passes _ := .nil
  clock t peer addrs phase hl := by cases hl

/-- In every run in which no handler repeats to a dial loop the list of its pass before the delay after that pass is
over: between the end of a pass and the start of the next the whole delay has gone by, or the list is another one. -/
theorem dials_throttled (own : Hello) (backoff : Backoff) (roster : RosterInner) (es : List DialsEvent) (s : Dials)
    (hr : Run (dialsStep own backoff) (NoRepeat own.deviceId) (Dials.start backoff roster) es s) (t : Nat) :
    Throttled (s.clocks t).passes :=
  (hr.invariant (throttling_start backoff roster) fun _ _ _ => throttling_step).passes t

/-- `b` is found, and the pass over its addresses fails; the delay is one second. -/
private def firstPass : List DialsEvent :=
  [.step .resume 0, .step .resume 0, .step (.discover (.found ⟨"b", "b", ["10.0.0.2:47820"]⟩)) 0, .step .process 0,
    .step .resume 0, .step .resume 0, .step (.dialRead 0) 0, .tick 5, .step (.dialFail 0) 1000]

/-- `b` is found again, and its dial loop wakes up. -/
private def foundAgain (addrs : List SocketAddr) : List DialsEvent :=
  [.step (.discover (.found ⟨"b", "b", addrs⟩)) 0, .step .process 0, .step .resume 0, .step .resume 0,
    .step (.dialWake 0) 0, .step (.dialRead 0) 0]

theorem dials_throttled_moved :
    ∃ s, Run (dialsStep (helloOf "a") (.new 1000000000 60000000000)) (NoRepeat "a")
        (.start (.new 1000000000 60000000000) (.replace (pairedWithB zeroKey [])))
        (firstPass ++ foundAgain ["10.0.0.3:47820"]) s ∧
      (s.clocks 0).passes.length = 2 ∧ Throttled (s.clocks 0).passes := by
  obtain ⟨s, hr, hlen⟩ := run_of_exec_checked (dialsStep (helloOf "a") (.new 1000000000 60000000000)) (NoRepeat "a")
    (.start (.new 1000000000 60000000000) (.replace (pairedWithB zeroKey [])))
    (firstPass ++ foundAgain ["10.0.0.3:47820"]) (fun s => (s.clocks 0).passes.length) 2 (by decide +kernel)
  exact ⟨s, hr, hlen, dials_throttled (helloOf "a") _ _ _ s hr 0⟩

/-- The same record again during the delay: a second pass over the same addresses begins at once. -/
theorem repeated_record_dials_again :
    ¬ ∀ (own : Hello) (backoff : Backoff) (roster : RosterInner) (es : List DialsEvent) (s : Dials),
      Run (dialsStep own backoff) Always (.start backoff roster) es s → ∀ t, Throttled (s.clocks t).passes := by
  intro h
  obtain ⟨s, hr, hpasses⟩ := run_of_exec_view (dialsStep (helloOf "a") (.new 1000000000 60000000000)) (fun _ => True)
    (.start (.new 1000000000 60000000000) (.replace (pairedWithB zeroKey [])))
    (firstPass ++ foundAgain ["10.0.0.2:47820"]) (fun s => (s.clocks 0).passes)
    [⟨["10.0.0.2:47820"], 5, none⟩, ⟨["10.0.0.2:47820"], 0, some (5, 1000000000)⟩] (fun _ _ => trivial)
    (by decide +kernel)
  exact absurd (h _ _ _ _ s hr 0) (by rw [hpasses]; decide)

private theorem DialClock.wake_of_unseen {c : DialClock} (h : c.unseen = true) (now : Nat) :
    ∃ c', c.wake now = some c' ∧ c'.passes = c.passes := by
  unfold DialClock.wake
  dsimp only
  by_cases hdue : (match c.wait with
      | .changed => false
      | .delay deadline => decide (deadline ≤ now)) = true
  · exact ⟨c, if_pos hdue, rfl⟩
  · exact ⟨{ c with unseen := false }, (if_neg hdue).trans (if_pos h), rfl⟩

/-- A loop that is resting with a list it has not seen begins a pass over that list at once. -/
theorem unseen_list_dials {t : Nat} {peer : DeviceId} {addrs : List SocketAddr} {expect : Key}
    (hl : s.sys.tasks.lookup t = some ⟨peer, .dial addrs .resting⟩) (hunseen : (s.clocks t).unseen = true)
    (hne : addrs ≠ []) (hkey : s.sys.roster.keyForId peer = some expect) :
    ∃ u, Run (dialsStep own backoff) Always s [.step (.dialWake t) 0, .step (.dialRead t) 0] u ∧
      (u.clocks t).passes = ⟨addrs, s.now, none⟩ :: (s.clocks t).passes := by
  obtain ⟨c, hwake, hpasses⟩ := DialClock.wake_of_unseen hunseen s.now
  let sys₁ : Sys := { s.sys with tasks := s.sys.tasks.insert t ⟨peer, .dial addrs .top⟩ }
  let sys₂ : Sys := { sys₁ with tasks := sys₁.tasks.insert t ⟨peer, .dial addrs (.dialing expect addrs)⟩ }
  let s₁ : Dials := { s with sys := sys₁, clocks := Function.update s.clocks t c }
  have hsys₁ : transportStep own s.sys (.dialWake t) = some sys₁ := by
    change (s.sys.tasks.lookup t).bind _ = _
    rw [hl]
    rfl
  have hsys₂ : transportStep own sys₁ (.dialRead t) = some sys₂ := by
    have htop : sys₁.tasks.lookup t = some ⟨peer, .dial addrs .top⟩ := AList.lookup_insert _
    have hkey₁ : sys₁.roster.keyForId peer = some expect := hkey
    change (sys₁.tasks.lookup t).bind _ = _
    rw [htop, Option.bind_some]
    simp only [taskStep, List.isEmpty_eq_false_iff.2 hne, hkey₁]
    rfl
  have hstep₁ : dialsStep own backoff s (.step (.dialWake t) 0) = some s₁ := by
    simp only [dialsStep, hsys₁, Option.bind_some, Dials.clocksAfter, hwake, Option.map_some, s₁]
  have hstep₂ : dialsStep own backoff s₁ (.step (.dialRead t) 0) = some
      { s₁ with
        sys := sys₂
        clocks := Function.update s₁.clocks t (c.read s.now (some ⟨peer, .dial addrs (.dialing expect addrs)⟩)) } := by
    have htask : sys₂.tasks.lookup t = some ⟨peer, .dial addrs (.dialing expect addrs)⟩ := AList.lookup_insert _
    have hclock : s₁.clocks t = c := Function.update_self ..
    have hsys : transportStep own s₁.sys (.dialRead t) = some sys₂ := hsys₂
    simp only [dialsStep, hsys, Option.bind_some, Dials.clocksAfter, htask, hclock, Option.map_some]
    rfl
  refine ⟨_, ((Run.nil _).snoc trivial hstep₁).snoc trivial hstep₂, ?_⟩
  simp only [Function.update_self, DialClock.read, hpasses]

/-- A loop that is resting wakes up at once when the list of its pass is sent to it again, and dials it without the
delay. -/
theorem repeated_list_dials_at_once (h : Throttling s) {te : TEvent} {jitter t deadline : Nat} {peer : DeviceId}
    {old : List SocketAddr} {p : DialPass} {expect : Key}
    (hl : s.sys.tasks.lookup t = some ⟨peer, .dial old .resting⟩) (hwait : (s.clocks t).wait = .delay deadline)
    (hearly : s.now < deadline) (hp : (s.clocks t).passes.head? = some p) (hne : p.addrs ≠ [])
    (hsent : s.sys.sentTo own.deviceId te = some (t, p.addrs))
    (hs : dialsStep own backoff s (.step te jitter) = some s')
    (hkey : s'.sys.roster.keyForId peer = some expect) :
    ∃ u, Run (dialsStep own backoff) Always s' [.step (.dialWake t) 0, .step (.dialRead t) 0] u ∧
      ¬ Throttled (u.clocks t).passes := by
  have hte : te.task? = none := by
    cases te <;> first | rfl | cases hsent
  obtain ⟨sys, hsys, hmap⟩ := Option.bind_eq_some_iff.1 hs
  obtain ⟨clocks, hc, rfl⟩ := Option.map_eq_some_iff.1 hmap
  have hclocks : clocks = Function.update s.clocks t (s.clocks t).send := by
    have hafter : s.clocksAfter own.deviceId backoff sys jitter te =
        some (Function.update s.clocks t (s.clocks t).send) := by
      cases te with
      | process | resume => simp only [Dials.clocksAfter, hsent]
      | _ => cases hsent
    exact Option.some.inj (hc.symm.trans hafter)
  have hclock : clocks t = (s.clocks t).send := by rw [hclocks, Function.update_self]
  have htask : sys.tasks.lookup t = some ⟨peer, .dial p.addrs .resting⟩ := by
    cases handled_step hte hsys with
    | sent u addrs hsent' htasks =>
      obtain ⟨rfl, rfl⟩ := Prod.mk.inj (Option.some.inj (hsent.symm.trans hsent'))
      rw [htasks, sendAddrs, hl]
      exact AList.lookup_insert _
    | kept hsent' =>
      rw [hsent] at hsent'
      cases hsent'
    | spawned task hsent' =>
      rw [hsent] at hsent'
      cases hsent'
  have hunseen : (clocks t).unseen = true := by
    rw [hclock]
    rfl
  obtain ⟨u, hrun, hpasses⟩ : ∃ u, Run (dialsStep own backoff) Always ⟨sys, s.now, clocks⟩
      [.step (.dialWake t) 0, .step (.dialRead t) 0] u ∧
        (u.clocks t).passes = ⟨p.addrs, s.now, none⟩ :: (clocks t).passes :=
    unseen_list_dials htask hunseen hne hkey
  refine ⟨u, hrun, ?_⟩
  -- the delay after the last pass is not over
  have hnot : ¬ p.Over s.now := by
    rintro ⟨ended, delay, hended, hover⟩
    have hclock := h.clock t peer old .resting hl
    simp only [ClockOk, hwait] at hclock
    obtain ⟨q, ps, ended', delay', hpasses, hended', rfl, -⟩ := hclock
    rw [hpasses] at hp
    cases hp
    rw [hended] at hended'
    cases hended'
    omega
  obtain ⟨ps, hlast⟩ : ∃ ps, (s.clocks t).passes = p :: ps := List.head?_eq_some_iff.1 hp
  have hsend : (clocks t).passes = p :: ps := by
    rw [hclock]
    exact hlast
  rw [hpasses, hsend, Throttled, List.isChain_cons_cons]
  rintro ⟨⟨-, hover | hdiff⟩, -⟩
  · exact hnot hover
  · exact hdiff rfl

end Runs

end Qdrop
