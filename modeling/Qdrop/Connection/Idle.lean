import Qdrop.Connection.Relay

/-!
# The idle timeout (`qdropd/src/connection.rs`)

`run` with a clock that goes on while the loop is inside a branch or between two iterations.  The `select!` polls the
idle timer first, then the ping timer, the outbound channel and the frames channel, and the idle deadline is moved when
a frame is taken, not when the reader task places it on the channel.  `timed_out_idle_iff` says which runs end with
`IdleTimeout` only after an idle window.  Times are in milliseconds.
-/

namespace Qdrop

open Lib

/-- Keepalive tuning of `run`. -/
structure KeepAlive where
  /-- How often to send a `Ping`. -/
  interval : Nat
  /-- Drop the connection if no frame arrives within this window. -/
  idleTimeout : Nat

/-- `KeepAlive::default`. -/
def KeepAlive.default : KeepAlive := ⟨15000, 45000⟩

structure TimedRelay where
  relay : Relay
  now : Nat
  idleDeadline : Nat
  nextPing : Nat
  /-- For each frame on the frames channel, when it was placed there. -/
  since : List Nat
  /-- When the peer's frames were placed on the frames channel so far. -/
  received : List Nat
  /-- When the loop ended with `IdleTimeout`. -/
  timedOut : Option Nat

/-- How late a tick of `interval` may be and not count as missed. -/
def tickSlack : Nat := 5

namespace TimedRelay

def start (ka : KeepAlive) (now : Nat) : TimedRelay :=
  ⟨.start, now, now + ka.idleTimeout, now + ka.interval, [], [], none⟩

/-- Whether the branch is the first one that is ready, as far as the timers go. -/
def due (s : TimedRelay) : LocalEvent → Bool
  | .idleTimeout => s.idleDeadline ≤ s.now
  | .tick => s.now < s.idleDeadline && s.nextPing ≤ s.now
  | .takeOutbound | .takeFrame => s.now < s.idleDeadline && s.now < s.nextPing
  | .push _ | .dropSenders | .forward => true

/-- The timers after an event of the endpoint. -/
def record (ka : KeepAlive) (s : TimedRelay) (e : LocalEvent) (relay : Relay) : TimedRelay :=
  match e with
  | .tick =>
    -- `MissedTickBehavior::Delay`
    let next := if s.nextPing + tickSlack < s.now then s.now + ka.interval else s.nextPing + ka.interval
    { s with relay := relay, nextPing := next }
  | .idleTimeout => { s with relay := relay, timedOut := some s.now }
  | .takeFrame =>
    match s.relay.ep.nextFrame .takeFrame with
    | some _ => { s with relay := relay, since := s.since.tail, idleDeadline := s.now + ka.idleTimeout }
    | none => { s with relay := relay }
  | .forward =>
    let received := match s.relay.ep.reader with
      | .sending (.ok _) => s.received ++ [s.now]
      | _ => s.received
    { s with relay := relay, since := s.since ++ [s.now], received := received }
  | .push _ | .dropSenders | .takeOutbound => { s with relay := relay }

end TimedRelay

inductive TimedEvent where
  /-- Time goes by. -/
  | elapse (d : Nat)
  | act (e : RelayEvent)

def timedStep (ka : KeepAlive) (codec : Codec) (peerId : DeviceId) (s : TimedRelay) : TimedEvent → Option TimedRelay
  | .elapse d => some { s with now := s.now + d }
  | .act (.own e) => if s.due e then (relayStep codec peerId s.relay (.own e)).map (s.record ka e) else none
  | .act e => (relayStep codec peerId s.relay e).map fun relay => { s with relay := relay }

/-- The connection timed out only when no frame of the peer came within the last `idle_timeout`. -/
def TimedRelay.TimedOutIdle (ka : KeepAlive) (s : TimedRelay) : Prop :=
  ∀ t, s.timedOut = some t → ∀ p ∈ s.received, p + ka.idleTimeout ≤ t

/-- The frames on the channel with the times they were placed there. -/
def TimedRelay.waiting (s : TimedRelay) : List (ReadResult × Nat) := s.relay.ep.frames.zip s.since

/-- When the idle timer fires, no frame that came within the last `idle_timeout` is waiting on the channel. -/
def NoneWaiting (ka : KeepAlive) (s : TimedRelay) (e : TimedEvent) : Prop :=
  e = .act (.own .idleTimeout) → ∀ msg p, (.ok msg, p) ∈ s.waiting → p + ka.idleTimeout ≤ s.now

/-! ### What the clock says about the frames -/

structure Clocked (ka : KeepAlive) (s : TimedRelay) : Prop where
  length_eq : s.since.length = s.relay.ep.frames.length
  past : ∀ p ∈ s.since, p ≤ s.now
  deadline_le : s.idleDeadline ≤ s.now + ka.idleTimeout
  /-- A frame that was received is waiting, or it moved the deadline. -/
  received : ∀ p ∈ s.received, p + ka.idleTimeout ≤ s.idleDeadline ∨ ∃ msg, (.ok msg, p) ∈ s.waiting
  waiting : ∀ msg p, (.ok msg, p) ∈ s.waiting → p ∈ s.received
  ended : s.timedOut ≠ none → s.relay.ep.loop.hasEnded = true

section Steps

variable {ka : KeepAlive} {codec : Codec} {peerId : DeviceId} {s t : TimedRelay}

theorem clocked_start (ka : KeepAlive) (now : Nat) : Clocked ka (.start ka now) where
  length_eq := rfl
  past p hp := by cases hp
  deadline_le := Nat.le_refl _
  received p hp := by cases hp
  waiting msg p hp := by cases hp
  ended h := absurd rfl h

/-- The end that an event of its own leads to. -/
private theorem own_stepped {r r' : Relay} {e : LocalEvent} (h : relayStep codec peerId r (.own e) = some r') :
    r.ep.loop.hasEnded = false ∧ r.ep.Stepped codec e r'.ep := by
  simp only [relayStep] at h
  split at h
  · cases h
  · obtain ⟨ep, hs, rfl⟩ := Option.map_eq_some_iff.1 h
    exact Endpoint.stepped hs

/-- The other events leave the frames channel alone, and a loop that has ended stays so. -/
private theorem other_step {r r' : Relay} {e : RelayEvent} (hne : ∀ e', e ≠ .own e')
    (h : relayStep codec peerId r e = some r') :
    r'.ep.frames = r.ep.frames ∧ (r.ep.loop.hasEnded = true → r'.ep.loop.hasEnded = true) := by
  cases e with
  | own e => exact absurd rfl (hne e)
  | read bytes =>
    obtain ⟨rd, -, rfl⟩ := Option.map_eq_some_iff.1 h
    exact ⟨rfl, id⟩
  | readFails stop =>
    simp only [relayStep] at h
    split at h <;> cases h
    exact ⟨rfl, id⟩
  | wrote n =>
    simp only [relayStep] at h
    split at h
    · rename_i hw
      cases h
      refine ⟨rfl, fun hend => ?_⟩
      cases hl : r.ep.loop <;> simp [hl, LoopState.hasEnded, LoopState.isWriting] at hend hw
    · cases h
  | writeFails =>
    simp only [relayStep] at h
    split at h <;> cases h
    exact ⟨rfl, fun _ => rfl⟩
  | handOver =>
    simp only [relayStep] at h
    split at h
    · split at h <;> cases h
      exact ⟨rfl, id⟩
    · cases h
  | hubClosed =>
    simp only [relayStep] at h
    split at h <;> cases h
    exact ⟨rfl, fun _ => rfl⟩

/-- The times of the frames of the peer after `frame` was placed on the channel. -/
def receivedAfter (received : List Nat) (now : Nat) : ReadResult → List Nat
  | .ok _ => received ++ [now]
  | .error _ => received

/-- What a step does to the clock, the deadline and the frames channel. -/
inductive TimedStepped (ka : KeepAlive) (s : TimedRelay) : TimedEvent → TimedRelay → Prop
  | quiet (e : TimedEvent) (relay : Relay) (now nextPing : Nat) (he : e ≠ .act (.own .idleTimeout))
      (hf : relay.ep.frames = s.relay.ep.frames) (hnow : s.now ≤ now)
      (hend : s.relay.ep.loop.hasEnded = true → relay.ep.loop.hasEnded = true) :
      TimedStepped ka s e { s with relay := relay, now := now, nextPing := nextPing }
  | taken (relay : Relay) (msg : Message) (hopen : s.relay.ep.loop.hasEnded = false)
      (hf : s.relay.ep.frames = .ok msg :: relay.ep.frames) :
      TimedStepped ka s (.act (.own .takeFrame))
        { s with relay := relay, since := s.since.tail, idleDeadline := s.now + ka.idleTimeout }
  | placed (relay : Relay) (frame : ReadResult) (hopen : s.relay.ep.loop.hasEnded = false)
      (hf : relay.ep.frames = s.relay.ep.frames ++ [frame]) :
      TimedStepped ka s (.act (.own .forward))
        { s with relay := relay, since := s.since ++ [s.now], received := receivedAfter s.received s.now frame }
  | timedOut (relay : Relay) (hopen : s.relay.ep.loop.hasEnded = false) (hend : relay.ep.loop.hasEnded = true)
      (hf : relay.ep.frames = s.relay.ep.frames) (hdue : s.idleDeadline ≤ s.now) :
      TimedStepped ka s (.act (.own .idleTimeout)) { s with relay := relay, timedOut := some s.now }

theorem timedStepped {e : TimedEvent} (h : timedStep ka codec peerId s e = some t) : TimedStepped ka s e t := by
  cases e with
  | elapse d =>
    cases h
    exact .quiet _ s.relay (s.now + d) s.nextPing (fun h => by cases h) rfl (Nat.le_add_right ..) id
  | act ev =>
    cases ev with
    | own e =>
      simp only [timedStep] at h
      split at h
      · rename_i hdue
        obtain ⟨relay, hr, rfl⟩ := Option.map_eq_some_iff.1 h
        obtain ⟨hopen, hs⟩ := own_stepped hr
        have hno : s.relay.ep.loop.hasEnded = true → relay.ep.loop.hasEnded = true := fun hend => by
          rw [hopen] at hend
          cases hend
        generalize hep : relay.ep = ep at hs
        cases hs with
        | push msg =>
          exact .quiet _ relay s.now s.nextPing (fun h => by cases h) (by rw [hep]) (Nat.le_refl _) hno
        | dropSenders =>
          exact .quiet _ relay s.now s.nextPing (fun h => by cases h) (by rw [hep]) (Nat.le_refl _) hno
        | tick hl =>
          refine .quiet _ relay s.now _ (fun h => by cases h) ?_ (Nat.le_refl _) hno
          rw [hep, Endpoint.onTick, Endpoint.startWrite_frames]
        | idleTimeout hl =>
          exact .timedOut relay hopen (by rw [hep]; rfl) (by rw [hep]; rfl) (by simpa [TimedRelay.due] using hdue)
        | takeOutbound hl msg rest ho =>
          refine .quiet _ relay s.now s.nextPing (fun h => by cases h) ?_ (Nat.le_refl _) hno
          rw [hep, Endpoint.startWrite_frames]
        | noSenders hl ho =>
          exact .quiet _ relay s.now s.nextPing (fun h => by cases h) (by rw [hep]; rfl) (Nat.le_refl _) hno
        | takeError hl err rest hf =>
          have hnext : s.relay.ep.nextFrame .takeFrame = none := by rw [Endpoint.nextFrame, hf]
          have hrec : s.record ka .takeFrame relay = { s with relay := relay } := by rw [TimedRelay.record, hnext]
          rw [hrec]
          exact .quiet _ relay s.now s.nextPing (fun h => by cases h) (by rw [hep]; rfl) (Nat.le_refl _) hno
        | takeFrame hl msg rest hf =>
          have hnext : s.relay.ep.nextFrame .takeFrame = some msg := by rw [Endpoint.nextFrame, hf]
          have hrec : s.record ka .takeFrame relay =
              { s with relay := relay, since := s.since.tail, idleDeadline := s.now + ka.idleTimeout } := by
            rw [TimedRelay.record, hnext]
          rw [hrec]
          refine .taken relay msg hopen ?_
          rw [hep, hf]
          cases msg <;> simp [Endpoint.onFrame]
        | noFrames hl hf hr' =>
          have hnext : s.relay.ep.nextFrame .takeFrame = none := by rw [Endpoint.nextFrame, hf]
          have hrec : s.record ka .takeFrame relay = { s with relay := relay } := by rw [TimedRelay.record, hnext]
          rw [hrec]
          exact .quiet _ relay s.now s.nextPing (fun h => by cases h) (by rw [hep]; rfl) (Nat.le_refl _) hno
        | forward frame hrd =>
          have hrec : s.record ka .forward relay =
              { s with relay := relay, since := s.since ++ [s.now],
                       received := receivedAfter s.received s.now frame } := by
            rw [TimedRelay.record, hrd]
            cases frame <;> rfl
          rw [hrec]
          exact .placed relay frame hopen (by rw [hep])
      · cases h
    | read | readFails | wrote | writeFails | handOver | hubClosed =>
      obtain ⟨relay, hr, rfl⟩ := Option.map_eq_some_iff.1 h
      obtain ⟨hf, hend⟩ := other_step (fun _ h => by cases h) hr
      exact .quiet _ relay s.now s.nextPing (fun h => by cases h) hf (Nat.le_refl _) hend

/-! ### Runs -/

/-- An open loop has not timed out. -/
private theorem Clocked.timedOut_eq_none (h : Clocked ka s) (hopen : s.relay.ep.loop.hasEnded = false) :
    s.timedOut = none := by
  by_contra hne
  rw [h.ended hne] at hopen
  cases hopen

/-- Time passes and the frames channel stays as it is. -/
private theorem Clocked.same_frames (h : Clocked ka s) {relay : Relay} {now nextPing : Nat} {timedOut : Option Nat}
    (hf : relay.ep.frames = s.relay.ep.frames) (hnow : s.now ≤ now)
    (hended : timedOut ≠ none → relay.ep.loop.hasEnded = true) :
    Clocked ka { s with relay := relay, now := now, nextPing := nextPing, timedOut := timedOut } := by
  have hwaiting : ∀ x, x ∈ relay.ep.frames.zip s.since ↔ x ∈ s.waiting := fun x => by
    rw [TimedRelay.waiting, hf]
  exact {
    length_eq := h.length_eq.trans (congrArg List.length hf).symm
    past := fun p hp => Nat.le_trans (h.past p hp) hnow
    deadline_le := Nat.le_trans h.deadline_le (Nat.add_le_add_right hnow _)
    received := fun p hp => (h.received p hp).imp id fun ⟨msg, hm⟩ => ⟨msg, (hwaiting _).2 hm⟩
    waiting := fun msg p hm => h.waiting msg p ((hwaiting _).1 hm)
    ended := hended }

/-- Step lemma for the clock. -/
theorem Clocked.step {e : TimedEvent} (h : Clocked ka s) (hs : TimedStepped ka s e t) : Clocked ka t := by
  cases hs with
  | quiet e relay now nextPing he hf hnow hend => exact h.same_frames hf hnow fun hto => hend (h.ended hto)
  | taken relay msg hopen hf =>
    obtain ⟨p₀, since, hsince⟩ : ∃ p₀ since, s.since = p₀ :: since := by
      have hlen := h.length_eq
      rw [hf, List.length_cons] at hlen
      exact List.exists_cons_of_length_eq_add_one hlen
    have hwaiting : s.waiting = (.ok msg, p₀) :: relay.ep.frames.zip since := by
      rw [TimedRelay.waiting, hf, hsince, List.zip_cons_cons]
    have hpast : p₀ ≤ s.now := h.past p₀ (by rw [hsince]; exact List.mem_cons_self ..)
    exact {
      length_eq := by
        have hlen := h.length_eq
        rw [hf, List.length_cons] at hlen
        rw [List.length_tail, hlen, Nat.add_sub_cancel]
      past := fun p hp => h.past p (List.mem_of_mem_tail hp)
      deadline_le := Nat.le_refl _
      received := by
        intro p hp
        rcases h.received p hp with hle | ⟨m, hm⟩
        · exact Or.inl (Nat.le_trans hle h.deadline_le)
        · rw [hwaiting, List.mem_cons] at hm
          rcases hm with heq | hm
          · cases heq
            exact Or.inl (Nat.add_le_add_right hpast _)
          · refine Or.inr ⟨m, ?_⟩
            rw [TimedRelay.waiting, hsince]
            exact hm
      waiting := by
        intro m p hm
        rw [TimedRelay.waiting, hsince] at hm
        refine h.waiting m p ?_
        rw [hwaiting]
        exact List.mem_cons_of_mem _ hm
      ended := fun hto => absurd (h.timedOut_eq_none hopen) hto }
  | placed relay frame hopen hf =>
    have hwaiting : relay.ep.frames.zip (s.since ++ [s.now]) = s.waiting ++ [(frame, s.now)] := by
      rw [hf, List.zip_append h.length_eq.symm]
      rfl
    have hreceived : ∀ p, p ∈ receivedAfter s.received s.now frame ↔
        p ∈ s.received ∨ p = s.now ∧ ∃ msg, frame = .ok msg := by
      intro p
      cases frame <;> simp [receivedAfter]
    exact {
      length_eq := by
        rw [hf, List.length_append, List.length_append, h.length_eq]
        rfl
      past := by
        intro p hp
        rcases List.mem_append.1 hp with hp | hp
        · exact h.past p hp
        · exact Nat.le_of_eq (List.mem_singleton.1 hp)
      deadline_le := h.deadline_le
      received := by
        intro p hp
        rw [TimedRelay.waiting, hwaiting]
        rcases (hreceived p).1 hp with hp | ⟨rfl, msg, rfl⟩
        · exact (h.received p hp).imp id fun ⟨msg, hm⟩ => ⟨msg, List.mem_append_left _ hm⟩
        · exact Or.inr ⟨msg, List.mem_append_right _ (List.mem_singleton_self _)⟩
      waiting := by
        intro msg p hm
        rw [TimedRelay.waiting, hwaiting] at hm
        rcases List.mem_append.1 hm with hm | hm
        · exact (hreceived p).2 (Or.inl (h.waiting msg p hm))
        · cases List.mem_singleton.1 hm
          exact (hreceived _).2 (Or.inr ⟨rfl, msg, rfl⟩)
      ended := fun hto => absurd (h.timedOut_eq_none hopen) hto }
  | timedOut relay hopen hend hf hdue => exact h.same_frames hf (Nat.le_refl _) fun _ => hend

private theorem timedOutIdle_of_none (h : s.timedOut = none) : s.TimedOutIdle ka := by
  intro u hu
  rw [h] at hu
  cases hu

/-- A step keeps the timeout honest exactly when the timer does not fire over a young frame. -/
private theorem timedOutIdle_step {e : TimedEvent} (h : Clocked ka s) (hs : TimedStepped ka s e t) :
    t.TimedOutIdle ka ↔ s.TimedOutIdle ka ∧ NoneWaiting ka s e := by
  cases hs with
  | quiet e relay now nextPing he hf hnow hend =>
    constructor
    · exact fun hidle => ⟨hidle, fun heq => absurd heq he⟩
    · exact fun hidle => hidle.1
  | taken relay msg hopen hf =>
    have hnone := h.timedOut_eq_none hopen
    exact iff_of_true (timedOutIdle_of_none hnone) ⟨timedOutIdle_of_none hnone, fun heq => by cases heq⟩
  | placed relay frame hopen hf =>
    have hnone := h.timedOut_eq_none hopen
    exact iff_of_true (timedOutIdle_of_none hnone) ⟨timedOutIdle_of_none hnone, fun heq => by cases heq⟩
  | timedOut relay hopen hend hf hdue =>
    have hnone := h.timedOut_eq_none hopen
    constructor
    · intro hidle
      exact ⟨timedOutIdle_of_none hnone, fun _ msg p hm => hidle s.now rfl p (h.waiting msg p hm)⟩
    · rintro ⟨-, hwait⟩ u hu p hp
      obtain rfl : s.now = u := Option.some.inj hu
      rcases h.received p hp with hle | ⟨msg, hm⟩
      · exact Nat.le_trans hle hdue
      · exact hwait rfl msg p hm

end Steps

/-- A connection that ends with `IdleTimeout` has received nothing within the last `idle_timeout` if and only if,
whenever the idle timer fires, no frame younger than that is waiting on the frames channel. -/
theorem timed_out_idle_iff (ka : KeepAlive) (codec : Codec) (peerId : DeviceId) (now : Nat) {es : List TimedEvent}
    {s : TimedRelay} (hr : Run (timedStep ka codec peerId) Always (.start ka now) es s) :
    s.TimedOutIdle ka ↔ Run (timedStep ka codec peerId) (NoneWaiting ka) (.start ka now) es s := by
  refine hr.iff_of_step (I := Clocked ka) (P := TimedRelay.TimedOutIdle ka) (clocked_start ka now) ?_ ?_ ?_
  · exact fun t ht => by cases ht
  · exact fun s e t h hs => h.step (timedStepped hs)
  · exact fun s e t h hs => timedOutIdle_step h (timedStepped hs)

/-- The channel is empty when the idle timer fires. -/
private def firesOverNothing (s : TimedRelay) : TimedEvent → Bool
  | .act (.own .idleTimeout) => s.relay.ep.frames.isEmpty
  | _ => true

theorem timed_out_idle_iff_silent :
    ∃ es s, Run (timedStep .default urlCodec "p") Always (.start .default 0) es s ∧ s.received = [10] ∧
      s.timedOut = some 45020 ∧ s.TimedOutIdle .default := by
  obtain ⟨s, hr, hview⟩ := run_of_exec_checked (timedStep .default urlCodec "p")
    (fun s e => firesOverNothing s e = true) (.start .default 0)
    [.elapse 10, .act (.read (wireFrame urlBody)), .act (.own .forward), .elapse 10, .act (.own .takeFrame),
      .act .handOver, .elapse 45000, .act (.own .idleTimeout)]
    (fun s => (s.received, s.timedOut)) ([10], some 45020) (by decide +kernel)
  simp only [Prod.mk.injEq] at hview
  have hrun := hr.always
  refine ⟨_, s, hrun, hview.1, hview.2, ?_⟩
  refine (timed_out_idle_iff .default urlCodec "p" 0 hrun).2 (hr.mono ?_)
  rintro s e hfires rfl msg p hm
  have hnil : s.relay.ep.frames = [] := List.isEmpty_iff.1 hfires
  rw [TimedRelay.waiting, hnil] at hm
  cases hm

/-- A frame arrives while the loop is inside a slow write; when the write ends the idle timer is polled first. -/
theorem slow_write_times_out :
    ¬ ∀ (ka : KeepAlive) (codec : Codec) (peerId : DeviceId) (now : Nat) (es : List TimedEvent) (s : TimedRelay),
      Run (timedStep ka codec peerId) Always (.start ka now) es s → s.TimedOutIdle ka := by
  intro hall
  obtain ⟨s, hr, hview⟩ := run_of_exec_view (timedStep .default urlCodec "p") (fun _ => True) (.start .default 0)
    [.act (.own (.push (.openUrl ""))), .act (.own .takeOutbound), .elapse 44000, .act (.read (wireFrame urlBody)),
      .act (.own .forward), .elapse 1000, .act (.wrote 21), .act (.own .idleTimeout)]
    (fun s => (s.received, s.timedOut)) ([44000], some 45000) (fun _ _ => trivial) (by decide +kernel)
  simp only [Prod.mk.injEq] at hview
  have hidle := hall .default urlCodec "p" 0 _ s hr.always 45000 hview.2 44000
    (by rw [hview.1]; exact List.mem_singleton_self _)
  exact absurd hidle (by decide)

end Qdrop
