import Qdrop.Auth
import Qdrop.Lib.Run
import Qdrop.Lib.Table

/-!
# Several authorization exchanges at once (`AuthManager::exchange`)

Every call registers its waiter under the peer on entry and removes what is registered under the peer on exit.  The
peers here are connected and answer every request, so a timer fires only for a call whose request was answered.  Two
calls for one peer still get in each other's way: a waiter that is replaced or removed by another call is dropped, and
its call fails.  `exchanges_answered_iff` says that nothing else makes one fail.
-/

namespace Qdrop

open Lib

/-- The calls in progress, and what has passed between them and the peers. -/
structure Exchanges where
  auth : AuthManager
  /-- The number of the next call. -/
  next : Nat
  /-- The calls whose request the peer has still to answer. -/
  unanswered : AList (fun _ : Nat => DeviceId)
  /-- What the peers have sent. -/
  answers : List (DeviceId × DeviceInfo)
  /-- What the calls have returned. -/
  results : List (DeviceId × Except String DeviceInfo)

def Exchanges.start : Exchanges := ⟨.new, 0, ∅, [], []⟩

inductive ExchangeEvent where
  /-- `authorize` or `refresh` calls `exchange`. -/
  | enter (peer : DeviceId) (caller : Caller)
  | register (w : Nat)
  /-- The peer's reply to the request of call `w` arrives. -/
  | answer (w : Nat) (ok : Bool) (info : DeviceInfo)
  | expire (w : Nat)
  | resume (w : Nat)
deriving DecidableEq, Repr

/-- What a call returns when it is resumed. -/
def CallPhase.result : CallPhase → Option (Except String DeviceInfo)
  | .replied info => some (.ok info)
  | .failed err => some (.error err)
  | .checked | .waiting | .recording _ => none

def exchangeStep (localInfo : DeviceInfo) (s : Exchanges) : ExchangeEvent → Option Exchanges
  | .enter peer caller =>
    some { s with
      auth := ⟨s.auth.pending, s.auth.calls.insert s.next ⟨peer, caller, .checked⟩⟩
      next := s.next + 1 }
  | .register w =>
    match s.auth.calls.lookup w with
    | some ⟨peer, _, .checked⟩ =>
      some { s with auth := (s.auth.register localInfo true w).1, unanswered := s.unanswered.insert w peer }
    | _ => none
  | .answer w ok info =>
    match s.unanswered.lookup w with
    | some peer =>
      some { s with
        auth := (s.auth.handleInbound localInfo .absent none peer (.authReply ok info)).1
        unanswered := s.unanswered.erase w
        answers := s.answers ++ [(peer, info)] }
    | none => none
  | .expire w =>
    match s.auth.calls.lookup w with
    | some ⟨_, _, .waiting⟩ => if (s.unanswered.lookup w).isSome then none else some { s with auth := s.auth.expire w }
    | _ => none
  | .resume w =>
    match s.auth.calls.lookup w with
    | some ⟨peer, _, phase⟩ =>
      phase.result.map fun result =>
        { s with auth := (s.auth.resume w).1, results := s.results ++ [(peer, result)] }
    | none => none

/-- Every call that has returned got what its peer has sent, no call has lost its waiter or run into its timeout, and
a call that waits has an answer coming. -/
structure AllAnswered (s : Exchanges) : Prop where
  returned : ∀ peer result, (peer, result) ∈ s.results → ∃ info, result = .ok info ∧ (peer, info) ∈ s.answers
  alive : ∀ w c err, s.auth.calls.lookup w = some c → c.phase ≠ .failed err
  due : ∀ w c, s.auth.calls.lookup w = some c → c.phase = .waiting → s.unanswered.lookup w = some c.peer

/-- A call registers its waiter, or removes it, while no waiter of another call is registered for the peer. -/
def NoOtherWaiter (s : Exchanges) : ExchangeEvent → Prop
  | .register w | .resume w =>
    ∀ c ∈ s.auth.calls.lookup w, ∀ v ∈ s.auth.pending.lookup c.peer, v = w
  | .enter .. | .answer .. | .expire _ => True

instance (s : Exchanges) : (e : ExchangeEvent) → Decidable (NoOtherWaiter s e)
  | .register w | .resume w => inferInstanceAs (Decidable
    (∀ c ∈ s.auth.calls.lookup w, ∀ v ∈ s.auth.pending.lookup c.peer, v = w))
  | .enter .. | .answer .. | .expire _ => inferInstanceAs (Decidable True)

/-! ### The waiters -/

/-- What holds between the calls, the registered waiters and the requests. -/
structure Waiters (s : Exchanges) : Prop where
  calls_lt : ∀ w c, s.auth.calls.lookup w = some c → w < s.next
  unanswered_lt : ∀ w peer, s.unanswered.lookup w = some peer → w < s.next
  asked : ∀ w c peer, s.auth.calls.lookup w = some c → s.unanswered.lookup w = some peer → c.peer = peer
  /-- The registered waiter is that of a waiting call. -/
  slot : ∀ peer v, s.auth.pending.lookup peer = some v →
    ∃ caller, s.auth.calls.lookup v = some ⟨peer, caller, .waiting⟩
  waits : ∀ w c, s.auth.calls.lookup w = some c → c.phase = .waiting →
    s.auth.pending.lookup c.peer = some w ∧ s.unanswered.lookup w = some c.peer
  heard : ∀ w c info, s.auth.calls.lookup w = some c → c.phase = .replied info → (c.peer, info) ∈ s.answers
  told : ∀ peer info, (peer, Except.ok info) ∈ s.results → (peer, info) ∈ s.answers

theorem waiters_start : Waiters .start where
  calls_lt w c h := by cases h
  unanswered_lt w peer h := by cases h
  asked w c peer h := by cases h
  slot peer v h := by cases h
  waits w c h := by cases h
  heard w c info h := by cases h
  told peer info h := by cases h

/-- The registered waiter waits, so it is woken. -/
private theorem Waiters.woken {s : Exchanges} (h : Waiters s) {peer : DeviceId} {v : Nat}
    (hp : s.auth.pending.lookup peer = some v) (phase : CallPhase) :
    ∃ caller, s.auth.calls.lookup v = some ⟨peer, caller, .waiting⟩ ∧
      wake s.auth.calls v phase = s.auth.calls.insert v ⟨peer, caller, phase⟩ := by
  obtain ⟨caller, hv⟩ := h.slot peer v hp
  exact ⟨caller, hv, by simp [wake, hv]⟩

/-- Removing what is registered for a peer drops the waiter of a waiting call, or does nothing. -/
private theorem removePending_cases {s : Exchanges} (h : Waiters s) (peer : DeviceId) :
    (s.auth.pending.lookup peer = none ∧ s.auth.removePending peer = s.auth) ∨
    ∃ v caller, s.auth.pending.lookup peer = some v ∧ s.auth.calls.lookup v = some ⟨peer, caller, .waiting⟩ ∧
      s.auth.removePending peer = ⟨s.auth.pending.erase peer,
        s.auth.calls.insert v ⟨peer, caller, .failed "authorization channel closed"⟩⟩ := by
  unfold AuthManager.removePending
  cases hp : s.auth.pending.lookup peer with
  | none => exact Or.inl ⟨rfl, rfl⟩
  | some v =>
    obtain ⟨caller, hv, hwake⟩ := h.woken hp (.failed "authorization channel closed")
    exact Or.inr ⟨v, caller, rfl, hv, by simp only [hwake]⟩

/-- Only the call whose waiter is removed takes notice. -/
private theorem lookup_removePending_of_ne {s : Exchanges} (h : Waiters s) {w : Nat} {c : Call} (peer : DeviceId)
    (hw : s.auth.calls.lookup w = some c) (hc : c.phase ≠ .waiting) :
    (s.auth.removePending peer).calls.lookup w = some c := by
  rcases removePending_cases h peer with ⟨-, heq⟩ | ⟨v, caller, -, hv, heq⟩
  · rw [heq, hw]
  · have hne : w ≠ v := by
      rintro rfl
      rw [hv] at hw
      cases hw
      exact hc rfl
    rw [heq, AList.lookup_insert_ne hne, hw]

private theorem removePending_pending (st : AuthManager) (peer : DeviceId) :
    (st.removePending peer).pending.lookup peer = none := by
  unfold AuthManager.removePending
  split
  · exact AList.lookup_erase _ _
  · assumption

namespace Waiters

variable {s : Exchanges}

/-- A call in progress that goes on keeps its number. -/
private theorem lt_insert (h : Waiters s) {w : Nat} {c c' : Call} (hw : s.auth.calls.lookup w = some c) :
    ∀ u d, (s.auth.calls.insert w c').lookup u = some d → u < s.next := by
  intro u d hu
  rcases lookup_insert_eq_some.1 hu with ⟨rfl, -⟩ | ⟨-, hu⟩
  · exact h.calls_lt _ _ hw
  · exact h.calls_lt u d hu

/-- It keeps its peer. -/
private theorem asked_insert (h : Waiters s) {w : Nat} {c c' : Call} (hw : s.auth.calls.lookup w = some c)
    (hpeer : c'.peer = c.peer) :
    ∀ u d p, (s.auth.calls.insert w c').lookup u = some d → s.unanswered.lookup u = some p → d.peer = p := by
  intro u d p hu ha
  rcases lookup_insert_eq_some.1 hu with ⟨rfl, rfl⟩ | ⟨-, hu⟩
  · exact hpeer.trans (h.asked _ _ p hw ha)
  · exact h.asked u d p hu ha

/-- If it goes on with an answer, the peer has sent this answer. -/
private theorem heard_insert (h : Waiters s) {w : Nat} {c' : Call}
    (hc' : ∀ info, c'.phase = .replied info → (c'.peer, info) ∈ s.answers) :
    ∀ u d info, (s.auth.calls.insert w c').lookup u = some d → d.phase = .replied info →
      (d.peer, info) ∈ s.answers := by
  intro u d info hu hd
  rcases lookup_insert_eq_some.1 hu with ⟨rfl, rfl⟩ | ⟨-, hu⟩
  · exact hc' info hd
  · exact h.heard u d info hu hd

/-- The registered waiters are those of other calls, which stay as they are. -/
private theorem slot_insert (h : Waiters s) {w : Nat} {c' : Call} {p : DeviceId} {v : Nat}
    (hv : s.auth.pending.lookup p = some v)
    (hw : ∀ caller, s.auth.calls.lookup w ≠ some ⟨p, caller, .waiting⟩) :
    ∃ caller, (s.auth.calls.insert w c').lookup v = some ⟨p, caller, .waiting⟩ := by
  obtain ⟨caller, hv'⟩ := h.slot p v hv
  refine ⟨caller, lookup_insert_eq_some.2 (Or.inr ⟨?_, hv'⟩)⟩
  rintro rfl
  exact hw caller hv'

/-- A new call has a new number. -/
theorem enter (h : Waiters s) (peer : DeviceId) (caller : Caller) :
    Waiters { s with
      auth := ⟨s.auth.pending, s.auth.calls.insert s.next ⟨peer, caller, .checked⟩⟩
      next := s.next + 1 } where
  calls_lt w c hw := by
    rcases lookup_insert_eq_some.1 hw with ⟨rfl, -⟩ | ⟨-, hw⟩
    · exact Nat.lt_succ_self _
    · exact Nat.lt_succ_of_lt (h.calls_lt w c hw)
  unanswered_lt w p hw := Nat.lt_succ_of_lt (h.unanswered_lt w p hw)
  asked w c p hw hu := by
    rcases lookup_insert_eq_some.1 hw with ⟨rfl, -⟩ | ⟨-, hw⟩
    · exact absurd (h.unanswered_lt _ p hu) (Nat.lt_irrefl _)
    · exact h.asked w c p hw hu
  slot p v hv := h.slot_insert hv fun _ hnext => absurd (h.calls_lt _ _ hnext) (Nat.lt_irrefl _)
  waits w c hw hc := by
    rcases lookup_insert_eq_some.1 hw with ⟨rfl, rfl⟩ | ⟨-, hw⟩
    · cases hc
    · exact h.waits w c hw hc
  heard := h.heard_insert (by simp)
  told := h.told

/-- The waiter of a call leaves the table, and the call goes on with an error or an answer. -/
theorem leave (h : Waiters s) {peer : DeviceId} {v : Nat} {caller : Caller} {phase : CallPhase}
    (hp : s.auth.pending.lookup peer = some v) (hv : s.auth.calls.lookup v = some ⟨peer, caller, .waiting⟩)
    (hphase : phase ≠ .waiting) (hheard : ∀ info, phase = .replied info → (peer, info) ∈ s.answers) :
    Waiters { s with auth := ⟨s.auth.pending.erase peer, s.auth.calls.insert v ⟨peer, caller, phase⟩⟩ } where
  calls_lt := h.lt_insert hv
  unanswered_lt := h.unanswered_lt
  asked := h.asked_insert hv rfl
  slot p u hu := by
    obtain ⟨hne, hu⟩ := lookup_erase_eq_some.1 hu
    refine h.slot_insert hu fun caller' hv' => ?_
    rw [hv] at hv'
    cases hv'
    exact hne rfl
  waits w c hw hc := by
    rcases lookup_insert_eq_some.1 hw with ⟨rfl, rfl⟩ | ⟨hne, hw⟩
    · exact absurd hc hphase
    · obtain ⟨hslot, hask⟩ := h.waits w c hw hc
      refine ⟨lookup_erase_eq_some.2 ⟨?_, hslot⟩, hask⟩
      rintro hcp
      rw [hcp, hp] at hslot
      exact hne (Option.some.inj hslot).symm
  heard := h.heard_insert hheard
  told := h.told

/-- Whatever is registered for a peer is removed. -/
theorem removePending (h : Waiters s) (peer : DeviceId) : Waiters { s with auth := s.auth.removePending peer } := by
  rcases removePending_cases h peer with ⟨-, heq⟩ | ⟨v, caller, hp, hv, heq⟩
  · rw [heq]
    exact h
  · rw [heq]
    exact h.leave hp hv (by simp) (by simp)

/-- A call registers its waiter where there is none. -/
theorem register (h : Waiters s) {peer : DeviceId} {w : Nat} {caller : Caller}
    (hp : s.auth.pending.lookup peer = none) (hw : s.auth.calls.lookup w = some ⟨peer, caller, .checked⟩) :
    Waiters { s with
      auth := ⟨s.auth.pending.insert peer w, s.auth.calls.insert w ⟨peer, caller, .waiting⟩⟩
      unanswered := s.unanswered.insert w peer } where
  calls_lt := h.lt_insert hw
  unanswered_lt u p hu := by
    rcases lookup_insert_eq_some.1 hu with ⟨rfl, -⟩ | ⟨-, hu⟩
    · exact h.calls_lt _ _ hw
    · exact h.unanswered_lt u p hu
  asked u c p hu ha := by
    rcases lookup_insert_eq_some.1 hu with ⟨rfl, rfl⟩ | ⟨hne, hu⟩
    · rw [AList.lookup_insert] at ha
      exact Option.some.inj ha
    · rw [AList.lookup_insert_ne hne] at ha
      exact h.asked u c p hu ha
  slot p v hv := by
    rcases lookup_insert_eq_some.1 hv with ⟨rfl, rfl⟩ | ⟨-, hv⟩
    · exact ⟨caller, AList.lookup_insert _⟩
    · exact h.slot_insert hv fun caller' hw' => by simp [hw] at hw'
  waits u c hu hc := by
    rcases lookup_insert_eq_some.1 hu with ⟨rfl, rfl⟩ | ⟨hne, hu⟩
    · exact ⟨AList.lookup_insert _, AList.lookup_insert _⟩
    · obtain ⟨hslot, hask⟩ := h.waits u c hu hc
      have hcp : c.peer ≠ peer := by
        intro he
        rw [he, hp] at hslot
        cases hslot
      exact ⟨lookup_insert_eq_some.2 (Or.inr ⟨hcp, hslot⟩), lookup_insert_eq_some.2 (Or.inr ⟨hne, hask⟩)⟩
  heard := h.heard_insert (by simp)
  told := h.told

theorem hear (h : Waiters s) (peer : DeviceId) (info : DeviceInfo) :
    Waiters { s with answers := s.answers ++ [(peer, info)] } :=
  { h with
    heard := fun w c info' hw hc => List.mem_append_left _ (h.heard w c info' hw hc)
    told := fun p info' hr => List.mem_append_left _ (h.told p info' hr) }

theorem tell (h : Waiters s) {peer : DeviceId} {result : Except String DeviceInfo}
    (hr : ∀ info, result = .ok info → (peer, info) ∈ s.answers) :
    Waiters { s with results := s.results ++ [(peer, result)] } :=
  { h with
    told := fun p info hmem => by
      rcases List.mem_append.1 hmem with hmem | hmem
      · exact h.told p info hmem
      · obtain ⟨rfl, rfl⟩ := Prod.mk.inj (List.mem_singleton.1 hmem)
        exact hr info rfl }

/-- A request is answered whose call does not wait. -/
theorem answered (h : Waiters s) {w : Nat} (hw : ∀ c, s.auth.calls.lookup w = some c → c.phase ≠ .waiting) :
    Waiters { s with unanswered := s.unanswered.erase w } :=
  { h with
    unanswered_lt := fun u p hu => h.unanswered_lt u p (lookup_erase_eq_some.1 hu).2
    asked := fun u c p hu ha => h.asked u c p hu (lookup_erase_eq_some.1 ha).2
    waits := fun u c hu hc => by
      obtain ⟨hslot, hask⟩ := h.waits u c hu hc
      refine ⟨hslot, lookup_erase_eq_some.2 ⟨?_, hask⟩⟩
      rintro rfl
      exact hw c hu hc }

/-- A reply goes to the registered waiter, whichever request it answers. -/
theorem answer (h : Waiters s) (localInfo : DeviceInfo) {w : Nat} {peer : DeviceId} (ok : Bool) (info : DeviceInfo)
    (hw : s.unanswered.lookup w = some peer) :
    Waiters { s with
      auth := (s.auth.handleInbound localInfo .absent none peer (.authReply ok info)).1
      unanswered := s.unanswered.erase w
      answers := s.answers ++ [(peer, info)] } := by
  have hheard := h.hear peer info
  simp only [AuthManager.handleInbound]
  cases hp : s.auth.pending.lookup peer with
  | none =>
    refine hheard.answered fun c hc hwait => ?_
    have hslot := (h.waits w c hc hwait).1
    rw [h.asked w c peer hc hw, hp] at hslot
    cases hslot
  | some v =>
    obtain ⟨caller, hv, hwake⟩ := h.woken hp (.replied info)
    dsimp only
    rw [hwake]
    have hne : CallPhase.replied info ≠ .waiting := by simp
    have hleave := hheard.leave hp hv hne fun info' he => by simp_all
    refine hleave.answered fun c hc hwait => ?_
    rcases lookup_insert_eq_some.1 hc with ⟨-, rfl⟩ | ⟨hne, hc⟩
    · cases hwait
    · have hslot := (h.waits w c hc hwait).1
      rw [h.asked w c peer hc hw, hp] at hslot
      exact hne (Option.some.inj hslot).symm

/-- A call that does not wait goes on. -/
theorem goOn (h : Waiters s) {peer : DeviceId} {w : Nat} {caller : Caller} {phase : CallPhase} (info : DeviceInfo)
    (hw : s.auth.calls.lookup w = some ⟨peer, caller, phase⟩) (hphase : phase ≠ .waiting) :
    Waiters { s with auth := ⟨s.auth.pending, s.auth.calls.insert w ⟨peer, caller, .recording info⟩⟩ } where
  calls_lt := h.lt_insert hw
  unanswered_lt := h.unanswered_lt
  asked := h.asked_insert hw rfl
  slot p v hv := by
    refine h.slot_insert hv fun caller' hw' => ?_
    rw [hw] at hw'
    cases hw'
    exact hphase rfl
  waits u c hu hc := by
    rcases lookup_insert_eq_some.1 hu with ⟨rfl, rfl⟩ | ⟨-, hu⟩
    · cases hc
    · exact h.waits u c hu hc
  heard := h.heard_insert (by simp)
  told := h.told

/-- A call that does not wait ends. -/
theorem stop (h : Waiters s) {w : Nat} (hw : ∀ c, s.auth.calls.lookup w = some c → c.phase ≠ .waiting) :
    Waiters { s with auth := ⟨s.auth.pending, s.auth.calls.erase w⟩ } where
  calls_lt u c hu := h.calls_lt u c (lookup_erase_eq_some.1 hu).2
  unanswered_lt := h.unanswered_lt
  asked u c p hu ha := h.asked u c p (lookup_erase_eq_some.1 hu).2 ha
  slot p v hv := by
    obtain ⟨caller, hv'⟩ := h.slot p v hv
    refine ⟨caller, lookup_erase_eq_some.2 ⟨?_, hv'⟩⟩
    rintro rfl
    exact hw _ hv' rfl
  waits u c hu hc := h.waits u c (lookup_erase_eq_some.1 hu).2 hc
  heard u c info hu hc := h.heard u c info (lookup_erase_eq_some.1 hu).2 hc
  told := h.told

end Waiters

/-! ### Steps -/

/-- No call has failed. -/
private structure NoneFailed (s : Exchanges) : Prop where
  returned : ∀ peer result, (peer, result) ∈ s.results → ∃ info, result = .ok info
  alive : ∀ w c err, s.auth.calls.lookup w = some c → c.phase ≠ .failed err

private theorem allAnswered_iff {s : Exchanges} (h : Waiters s) : AllAnswered s ↔ NoneFailed s := by
  constructor
  · intro ha
    refine ⟨fun peer result hr => ?_, ha.alive⟩
    obtain ⟨info, hinfo, -⟩ := ha.returned peer result hr
    exact ⟨info, hinfo⟩
  · intro hn
    refine ⟨fun peer result hr => ?_, hn.alive, fun w c hw hc => (h.waits w c hw hc).2⟩
    obtain ⟨info, rfl⟩ := hn.returned peer result hr
    exact ⟨info, rfl, h.told peer info hr⟩

section Steps

variable {localInfo : DeviceInfo} {s t : Exchanges}

private theorem enter_step {peer : DeviceId} {caller : Caller} (h : Waiters s)
    (hs : exchangeStep localInfo s (.enter peer caller) = some t) :
    Waiters t ∧ (NoneFailed t ↔ NoneFailed s) := by
  cases hs
  refine ⟨h.enter peer caller, ?_⟩
  constructor
  · intro hn
    refine ⟨hn.returned, fun w c err hw => hn.alive w c err (lookup_insert_eq_some.2 (Or.inr ⟨?_, hw⟩))⟩
    exact fun he => absurd (h.calls_lt w c hw) (by simp [he])
  · intro hn
    refine ⟨hn.returned, fun w c err hw => ?_⟩
    rcases lookup_insert_eq_some.1 hw with ⟨-, rfl⟩ | ⟨-, hw⟩
    · simp
    · exact hn.alive w c err hw

/-- A call that has not failed goes on. -/
private theorem noneFailed_insert {pending : AList fun _ : DeviceId => Nat} {unanswered : AList fun _ : Nat => DeviceId}
    {answers : List (DeviceId × DeviceInfo)} {w : Nat} {c c' : Call} (hw : s.auth.calls.lookup w = some c)
    (hc : ∀ err, c.phase ≠ .failed err) (hc' : ∀ err, c'.phase ≠ .failed err) :
    NoneFailed ⟨⟨pending, s.auth.calls.insert w c'⟩, s.next, unanswered, answers, s.results⟩ ↔ NoneFailed s := by
  constructor
  · intro hn
    refine ⟨hn.returned, fun u d err hu => ?_⟩
    by_cases huw : u = w
    · rw [huw, hw] at hu
      obtain rfl := Option.some.inj hu
      exact hc err
    · exact hn.alive u d err (lookup_insert_eq_some.2 (Or.inr ⟨huw, hu⟩))
  · intro hn
    refine ⟨hn.returned, fun u d err hu => ?_⟩
    rcases lookup_insert_eq_some.1 hu with ⟨-, rfl⟩ | ⟨-, hu⟩
    · exact hc' err
    · exact hn.alive u d err hu

private theorem noneFailed_tell {peer : DeviceId} {info : DeviceInfo} :
    NoneFailed { s with results := s.results ++ [(peer, .ok info)] } ↔ NoneFailed s := by
  constructor
  · intro hn
    exact ⟨fun p result hr => hn.returned p result (List.mem_append_left _ hr), hn.alive⟩
  · intro hn
    refine ⟨fun p result hr => ?_, hn.alive⟩
    rcases List.mem_append.1 hr with hr | hr
    · exact hn.returned p result hr
    · obtain ⟨rfl, rfl⟩ := Prod.mk.inj (List.mem_singleton.1 hr)
      exact ⟨info, rfl⟩

/-- A waiter that is removed fails its call. -/
private theorem noneFailed_removePending (h : Waiters s) (peer : DeviceId) :
    NoneFailed { s with auth := s.auth.removePending peer } ↔ NoneFailed s ∧ s.auth.pending.lookup peer = none := by
  rcases removePending_cases h peer with ⟨hp, heq⟩ | ⟨v, caller, hp, -, heq⟩
  · rw [heq, and_iff_left hp]
  · refine iff_of_false (fun hn => ?_) fun hn => by simp [hp] at hn
    rw [heq] at hn
    exact hn.alive v _ "authorization channel closed" (AList.lookup_insert _) rfl

/-- A call that does not wait finds no other waiter exactly if none is registered for its peer. -/
private theorem noOtherWaiter_iff (h : Waiters s) {w : Nat} {c : Call} (hw : s.auth.calls.lookup w = some c)
    (hc : c.phase ≠ .waiting) :
    (∀ c ∈ s.auth.calls.lookup w, ∀ v ∈ s.auth.pending.lookup c.peer, v = w) ↔ s.auth.pending.lookup c.peer = none := by
  constructor
  · intro hu
    refine Option.eq_none_iff_forall_ne_some.2 fun v hv => ?_
    obtain rfl := hu c hw v hv
    obtain ⟨caller, hv'⟩ := h.slot c.peer v hv
    rw [Option.some.inj (hw.symm.trans hv')] at hc
    exact hc rfl
  · intro hp c' hc' v hv
    obtain rfl := Option.some.inj (hw.symm.trans hc')
    rw [Option.mem_def, hp] at hv
    cases hv

private theorem register_step {w : Nat} (h : Waiters s) (hs : exchangeStep localInfo s (.register w) = some t) :
    Waiters t ∧ (NoneFailed t ↔ NoneFailed s ∧ NoOtherWaiter s (.register w)) := by
  simp only [exchangeStep] at hs
  split at hs
  · rename_i peer caller hw
    cases hs
    have hlookup := lookup_removePending_of_ne h peer hw (by simp)
    simp only [AuthManager.register, hw, if_true]
    refine ⟨(h.removePending peer).register (removePending_pending s.auth peer) hlookup, ?_⟩
    have hother := noOtherWaiter_iff h hw (by simp)
    have hremoved := noneFailed_removePending h peer
    rw [NoOtherWaiter, hother, ← hremoved]
    exact noneFailed_insert (s := { s with auth := s.auth.removePending peer }) hlookup (by simp) (by simp)
  · cases hs

private theorem answer_step {w : Nat} {ok : Bool} {info : DeviceInfo} (h : Waiters s)
    (hs : exchangeStep localInfo s (.answer w ok info) = some t) :
    Waiters t ∧ (NoneFailed t ↔ NoneFailed s) := by
  simp only [exchangeStep] at hs
  split at hs
  · rename_i peer hw
    cases hs
    refine ⟨h.answer localInfo ok info hw, ?_⟩
    simp only [AuthManager.handleInbound]
    cases hp : s.auth.pending.lookup peer with
    | none => exact ⟨fun hn => ⟨hn.returned, hn.alive⟩, fun hn => ⟨hn.returned, hn.alive⟩⟩
    | some v =>
      obtain ⟨caller, hv, hwake⟩ := h.woken hp (.replied info)
      dsimp only
      rw [hwake]
      exact noneFailed_insert hv (by simp) (by simp)
  · cases hs

/-- No timer fires: the request of a waiting call is unanswered. -/
private theorem expire_step {w : Nat} (h : Waiters s) : exchangeStep localInfo s (.expire w) ≠ some t := by
  intro hs
  simp only [exchangeStep] at hs
  split at hs
  · rename_i peer caller hw
    rw [(h.waits w _ hw rfl).2] at hs
    cases hs
  · cases hs

private theorem resume_step {w : Nat} (h : Waiters s) (hs : exchangeStep localInfo s (.resume w) = some t) :
    Waiters t ∧ (NoneFailed t ↔ NoneFailed s ∧ NoOtherWaiter s (.resume w)) := by
  simp only [exchangeStep] at hs
  split at hs
  · rename_i peer caller phase hw
    obtain ⟨result, hres, rfl⟩ := Option.map_eq_some_iff.1 hs
    cases phase with
    | checked | waiting | recording => cases hres
    | replied info =>
      cases hres
      have hlookup := lookup_removePending_of_ne h peer hw (by simp)
      have hheard : ∀ info', (.ok info : Except String DeviceInfo) = .ok info' → (peer, info') ∈ s.answers := by
        rintro info' he
        cases he
        exact h.heard w _ info hw rfl
      simp only [AuthManager.resume, hw]
      refine ⟨((h.removePending peer).goOn info hlookup (by simp)).tell hheard, ?_⟩
      have hother := noOtherWaiter_iff h hw (by simp)
      have hremoved := noneFailed_removePending h peer
      rw [NoOtherWaiter, hother, ← hremoved]
      have hinsert : NoneFailed { s with auth := ⟨(s.auth.removePending peer).pending,
          (s.auth.removePending peer).calls.insert w ⟨peer, caller, .recording info⟩⟩ } ↔
          NoneFailed { s with auth := s.auth.removePending peer } :=
        noneFailed_insert (s := { s with auth := s.auth.removePending peer }) hlookup (by simp) (by simp)
      rw [← hinsert]
      exact noneFailed_tell (s := ⟨⟨_, _⟩, s.next, s.unanswered, s.answers, s.results⟩)
    | failed err =>
      cases hres
      have hlookup := lookup_removePending_of_ne h peer hw (by simp)
      simp only [AuthManager.resume, hw]
      refine ⟨((h.removePending peer).stop fun c hc => ?_).tell ?_, ?_⟩
      · rw [hlookup] at hc
        cases hc
        simp
      · rintro info he
        cases he
      · refine iff_of_false (fun hn => ?_) fun hn => hn.1.alive w _ err hw rfl
        obtain ⟨info, he⟩ := hn.returned peer (.error err) (by simp)
        cases he
  · cases hs

end Steps

/-! ### Runs -/

private theorem exchangeStep_spec {localInfo : DeviceInfo} {s t : Exchanges} {e : ExchangeEvent} (h : Waiters s)
    (hs : exchangeStep localInfo s e = some t) : Waiters t ∧ (NoneFailed t ↔ NoneFailed s ∧ NoOtherWaiter s e) := by
  cases e with
  | enter peer caller =>
    obtain ⟨hwaiters, hiff⟩ := enter_step h hs
    exact ⟨hwaiters, hiff.trans (and_iff_left trivial).symm⟩
  | register w => exact register_step h hs
  | answer w ok info =>
    obtain ⟨hwaiters, hiff⟩ := answer_step h hs
    exact ⟨hwaiters, hiff.trans (and_iff_left trivial).symm⟩
  | expire w => exact absurd hs (expire_step h)
  | resume w => exact resume_step h hs

/-- The calls get their peers' answers exactly if none of them registers its waiter, or cleans up, while the waiter of
another is registered. -/
theorem exchanges_answered_iff (localInfo : DeviceInfo) (es : List ExchangeEvent) (s : Exchanges)
    (hr : Run (exchangeStep localInfo) Always .start es s) :
    AllAnswered s ↔ Run (exchangeStep localInfo) NoOtherWaiter .start es s := by
  have hwaiters := hr.invariant waiters_start fun s e t h _ hs => (exchangeStep_spec h hs).1
  have hstart : NoneFailed .start := by
    constructor
    · intro peer result hmem
      cases hmem
    · intro w c err hw
      cases hw
  rw [allAnswered_iff hwaiters]
  exact hr.iff_of_step waiters_start hstart (fun s e t h hs => (exchangeStep_spec h hs).1)
    fun s e t h hs => (exchangeStep_spec h hs).2

private def laptopLabel : DeviceInfo := ⟨"laptop", [], "linux"⟩

private def phoneLabel : DeviceInfo := ⟨"phone", [], "android"⟩

/-- `qdrop auth` after the refresh on reconnect: both get the phone's answer. -/
theorem exchanges_answered_iff_in_turn :
    ∃ s, Run (exchangeStep laptopLabel) Always .start
        [.enter "p" (.refresh []), .register 0, .answer 0 true phoneLabel, .resume 0,
          .enter "p" (.authorize true), .register 1, .answer 1 true phoneLabel, .resume 1] s ∧
      s.results = [("p", .ok phoneLabel), ("p", .ok phoneLabel)] ∧ AllAnswered s := by
  obtain ⟨s, hs, hresults⟩ := run_of_exec_checked (exchangeStep laptopLabel) NoOtherWaiter .start
    [.enter "p" (.refresh []), .register 0, .answer 0 true phoneLabel, .resume 0,
      .enter "p" (.authorize true), .register 1, .answer 1 true phoneLabel, .resume 1]
    Exchanges.results [("p", .ok phoneLabel), ("p", .ok phoneLabel)] (by decide +kernel)
  exact ⟨s, hs.always, hresults, (exchanges_answered_iff laptopLabel _ s hs.always).2 hs⟩

/-- The refresh on reconnect and `qdrop auth` at the same time: the second waiter replaces the first, the first call's
clean-up removes the second, and both calls fail though the phone answers. -/
theorem exchanges_cancel_each_other :
    ∃ s, Run (exchangeStep laptopLabel) Always .start
        [.enter "p" (.refresh []), .enter "p" (.authorize true), .register 0, .register 1, .resume 0,
          .answer 0 true phoneLabel, .answer 1 true phoneLabel, .resume 1] s ∧
      s.answers = [("p", phoneLabel), ("p", phoneLabel)] ∧
      s.results = [("p", .error "authorization channel closed"), ("p", .error "authorization channel closed")] ∧
      ¬ AllAnswered s := by
  obtain ⟨s, hs, hview⟩ := run_of_exec_view (exchangeStep laptopLabel) (fun _ => True) .start
    [.enter "p" (.refresh []), .enter "p" (.authorize true), .register 0, .register 1, .resume 0,
      .answer 0 true phoneLabel, .answer 1 true phoneLabel, .resume 1]
    (fun s => (s.answers, s.results))
    ([("p", phoneLabel), ("p", phoneLabel)],
      [("p", .error "authorization channel closed"), ("p", .error "authorization channel closed")])
    (by simp) (by decide +kernel)
  obtain ⟨hanswers, hresults⟩ := Prod.mk.inj hview
  refine ⟨s, hs, hanswers, hresults, fun hall => ?_⟩
  obtain ⟨info, he, -⟩ := hall.returned "p" (.error "authorization channel closed") (by simp [hresults])
  cases he

end Qdrop
