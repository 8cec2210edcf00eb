import Qdrop.Connection.Loop
import Qdrop.Lib.Run

/-!
# Two run loops on one stream

Both ends of a connection, with a socket buffer of `cap` bytes in each direction.  A loop inside `write_message`
polls nothing else, so it takes no frames; its frames channel then fills, its reader task stops reading, and the
peer's write stops in turn.  With traffic in both directions the two loops wait for each other (`both_loops_stall`),
and no timer is polled any more.  `duplex_never_stuck` shows that this is the only way to get stuck, and that it is
avoided exactly by not entering a second write unless one of the two writes can end without help from either loop.
-/

namespace Qdrop

open Lib

inductive Side where
  | a
  | b
deriving DecidableEq, Repr

def Side.other : Side → Side
  | .a => .b
  | .b => .a

@[simp] theorem Side.other_other (x : Side) : x.other.other = x := by cases x <;> rfl

theorem Side.forall_iff (x : Side) {P : Side → Prop} : (∀ y, P y) ↔ P x ∧ P x.other := by
  constructor
  · exact fun h => ⟨h x, h x.other⟩
  · rintro ⟨h, h'⟩ y
    cases x <;> cases y <;> assumption

/-- Both ends, and the bytes each has written that the other has not read. -/
structure Duplex where
  a : Endpoint
  b : Endpoint
  wireA : Bytes
  wireB : Bytes

namespace Duplex

def start : Duplex := ⟨.start, .start, [], []⟩

def ep (s : Duplex) : Side → Endpoint
  | .a => s.a
  | .b => s.b

/-- The bytes written by `x` and not yet read. -/
def wire (s : Duplex) : Side → Bytes
  | .a => s.wireA
  | .b => s.wireB

def setEp (s : Duplex) (x : Side) (ep : Endpoint) : Duplex :=
  match x with
  | .a => { s with a := ep }
  | .b => { s with b := ep }

def setWire (s : Duplex) (x : Side) (bytes : Bytes) : Duplex :=
  match x with
  | .a => { s with wireA := bytes }
  | .b => { s with wireB := bytes }

variable (s : Duplex) (x y : Side) (ep' : Endpoint) (bytes : Bytes)

@[simp] theorem ep_setEp : (s.setEp x ep').ep x = ep' := by cases x <;> rfl

@[simp] theorem ep_setEp_other : (s.setEp x ep').ep x.other = s.ep x.other := by cases x <;> rfl

@[simp] theorem wire_setEp : (s.setEp x ep').wire y = s.wire y := by cases x <;> cases y <;> rfl

@[simp] theorem ep_setWire : (s.setWire x bytes).ep y = s.ep y := by cases x <;> cases y <;> rfl

@[simp] theorem wire_setWire : (s.setWire x bytes).wire x = bytes := by cases x <;> rfl

@[simp] theorem wire_setWire_other : (s.setWire x bytes).wire x.other = s.wire x.other := by cases x <;> rfl

@[simp] theorem wire_setWire_of_other : (s.setWire x.other bytes).wire x = s.wire x := by cases x <;> rfl

end Duplex

inductive DuplexEvent where
  | own (x : Side) (e : LocalEvent)
  /-- `n` bytes of the message being written go into the socket. -/
  | write (x : Side) (n : Nat)
  /-- The reader task takes `n` bytes out of the socket. -/
  | read (x : Side) (n : Nat)
  /-- The reader task finds the stream closed. -/
  | eof (x : Side)
  /-- A write fails because the stream is closed. -/
  | reset (x : Side)

/-- One step of one of the four tasks, with a socket buffer of `cap` bytes in each direction. -/
def duplexStep (cap : Nat) (codec : Codec) (s : Duplex) : DuplexEvent → Option Duplex
  | .own x e => ((s.ep x).step codec e).map (s.setEp x)
  | .write x n =>
    if (s.ep x).loop.isWriting = true ∧ 0 < n ∧ n ≤ (s.ep x).loop.rest.length ∧ (s.wire x).length + n ≤ cap then
      some ((s.setEp x { s.ep x with loop := (s.ep x).loop.wrote n }).setWire x
        (s.wire x ++ (s.ep x).loop.rest.take n))
    else none
  | .read x n =>
    if 0 < n ∧ n ≤ (s.wire x.other).length then
      match (s.ep x).reader.read codec ((s.wire x.other).take n) with
      | some r => some ((s.setEp x { s.ep x with reader := r }).setWire x.other ((s.wire x.other).drop n))
      | none => none
    else none
  | .eof x =>
    if (s.ep x.other).loop.hasEnded = true ∧ s.wire x.other = [] ∧ (s.ep x).reader.isReading = true then
      some (s.setEp x { s.ep x with reader := .sending FrameError.closed.result })
    else none
  | .reset x =>
    if (s.ep x.other).loop.hasEnded = true ∧ (s.ep x).loop.isWriting = true then
      some (s.setEp x ((s.ep x).finish .writeError))
    else none

/-- The steps that move a message: neither timers, nor subsystems, nor the end of the stream. -/
def DuplexEvent.moves : DuplexEvent → Bool
  | .own _ .takeOutbound | .own _ .takeFrame | .own _ .forward | .write _ _ | .read _ _ => true
  | .own _ (.push _) | .own _ .dropSenders | .own _ .tick | .own _ .idleTimeout | .eof _ | .reset _ => false

/-- Some step that moves a message is enabled. -/
def Progress (cap : Nat) (codec : Codec) (s : Duplex) : Prop :=
  ∃ e : DuplexEvent, e.moves = true ∧ (duplexStep cap codec s e).isSome = true

/-- Neither loop has ended. -/
def Open (s : Duplex) : Prop := ∀ x, (s.ep x).loop.hasEnded = false

/-- Some message is queued, half-written or unread. -/
def Pending (s : Duplex) : Prop :=
  ∃ x, (s.ep x).outbound ≠ [] ∨ (s.ep x).loop.isWriting = true ∨ s.wire x ≠ [] ∨ (s.ep x).frames ≠ [] ∨
    (s.ep x).reader ≠ .header []

/-- The bytes the reader task of `ep` leaves in the stream while the loop of `ep` takes no frames. -/
def Endpoint.leaves (codec : Codec) (ep : Endpoint) (bytes : Bytes) : Bytes :=
  ep.reader.absorb codec (framesCap - ep.frames.length) bytes

/-- A loop enters `write_message` while the other is inside it only if one of the two writes ends without the help of
either loop: what the reader task at its far end leaves in the stream fits into the socket. -/
def writeFits (cap : Nat) (codec : Codec) (s : Duplex) : DuplexEvent → Bool
  | .own x e =>
    match ((s.ep x).nextMessage e).bind (writeMessage codec), (s.ep x.other).loop with
    | some bytes, .writing rest =>
      decide (((s.ep x.other).leaves codec (s.wire x ++ bytes)).length ≤ cap) ||
        decide ((({ s.ep x with frames := (s.ep x).framesAfter e } : Endpoint).leaves codec
          (s.wire x.other ++ rest)).length ≤ cap)
    | _, _ => true
  | _ => true

/-! ### The invariant -/

/-- The write of `x` ends without the help of either loop. -/
def Fits (cap : Nat) (codec : Codec) (s : Duplex) (x : Side) : Prop :=
  ((s.ep x.other).leaves codec (s.wire x ++ (s.ep x).loop.rest)).length ≤ cap

structure Flowing (cap : Nat) (codec : Codec) (s : Duplex) : Prop where
  room : ∀ x, (s.wire x).length ≤ cap
  rest : ∀ x, (s.ep x).loop.isWriting = true → (s.ep x).loop.rest ≠ []
  aligned : Open s → ∀ x, ((s.ep x.other).reader.skim codec (s.wire x ++ (s.ep x).loop.rest)).AtBoundary
  failed : Open s → ∀ x, (s.ep x).reader = .done → ∃ err, .error err ∈ (s.ep x).frames
  fits : ∀ x, (s.ep x).loop.isWriting = true → (s.ep x.other).loop.isWriting = true →
    Fits cap codec s x ∨ Fits cap codec s x.other

theorem flowing_start (cap : Nat) (codec : Codec) : Flowing cap codec .start where
  room x := by cases x <;> exact Nat.zero_le _
  rest x h := by cases x <;> cases h
  aligned _ x := by cases x <;> exact rfl
  failed _ x h := by cases x <;> cases h
  fits x h := by cases x <;> cases h

section Steps

variable {cap : Nat} {codec : Codec} {s : Duplex} {x : Side} {ep' : Endpoint}

private theorem isWriting_eq {loop : LoopState} (h : loop.isWriting = true) : ∃ rest, loop = .writing rest := by
  cases loop with
  | writing rest => exact ⟨rest, rfl⟩
  | polling | ended => cases h

private theorem open_of_writing {s : Duplex} (h : ∀ x, (s.ep x).loop.isWriting = true) : Open s := by
  intro x
  obtain ⟨rest, hr⟩ := isWriting_eq (h x)
  rw [hr]
  rfl

/-- Taking a frame that is no error leaves the errors on the channel. -/
private theorem error_mem {frames frames' : List ReadResult} {err : String} (hmem : .error err ∈ frames)
    (h : frames' = frames ∨ ∃ msg, frames = .ok msg :: frames') : .error err ∈ frames' := by
  rcases h with rfl | ⟨msg, rfl⟩
  · exact hmem
  · exact (List.mem_cons.1 hmem).resolve_left (by simp)

private theorem rest_wrote (loop : LoopState) (n : Nat) : (loop.wrote n).rest = loop.rest.drop n := by
  unfold LoopState.wrote
  split
  · rename_i h
    exact h.symm
  · rfl

/-! A step that only moves bytes and frames towards the loops does not change whether a write fits. -/

private theorem fits_setEp (hrest : ep'.loop.rest = (s.ep x).loop.rest)
    (hleaves : ∀ bytes, ep'.leaves codec bytes = (s.ep x).leaves codec bytes) :
    ∀ y, Fits cap codec (s.setEp x ep') y ↔ Fits cap codec s y := by
  refine (Side.forall_iff x).2 ⟨?_, ?_⟩
  · simp only [Fits, Duplex.ep_setEp, Duplex.ep_setEp_other, Duplex.wire_setEp, hrest]
  · simp only [Fits, Duplex.ep_setEp, Duplex.ep_setEp_other, Duplex.wire_setEp, Side.other_other, hleaves]

private theorem leaves_forward {ep : Endpoint} {frame : ReadResult} (hr : ep.reader = .sending frame)
    (hlen : ep.frames.length < framesCap) (bytes : Bytes) :
    ({ ep with frames := ep.frames ++ [frame], reader := Reader.sent frame } : Endpoint).leaves codec bytes =
      ep.leaves codec bytes := by
  have hslots : framesCap - ep.frames.length = framesCap - (ep.frames ++ [frame]).length + 1 := by
    rw [List.length_append, List.length_singleton]
    omega
  unfold Endpoint.leaves
  rw [hr, hslots, Reader.absorb_sent]

private theorem fits_write (n : Nat) :
    ∀ y, Fits cap codec ((s.setEp x { s.ep x with loop := (s.ep x).loop.wrote n }).setWire x
      (s.wire x ++ (s.ep x).loop.rest.take n)) y ↔ Fits cap codec s y := by
  -- what is on its way from `x` does not change
  have hbytes : s.wire x ++ (s.ep x).loop.rest.take n ++ (s.ep x).loop.rest.drop n =
      s.wire x ++ (s.ep x).loop.rest := by
    rw [List.append_assoc, List.take_append_drop]
  refine (Side.forall_iff x).2 ⟨?_, ?_⟩
  · simp only [Fits, Duplex.ep_setWire, Duplex.ep_setEp, Duplex.ep_setEp_other, Duplex.wire_setWire, rest_wrote,
      hbytes]
  · simp only [Fits, Duplex.ep_setWire, Duplex.ep_setEp, Duplex.ep_setEp_other, Duplex.wire_setWire_other,
      Duplex.wire_setEp, Side.other_other, Endpoint.leaves]

private theorem fits_read {n : Nat} {r : Reader}
    (hr : (s.ep x).reader.read codec ((s.wire x.other).take n) = some r) :
    ∀ y, Fits cap codec ((s.setEp x { s.ep x with reader := r }).setWire x.other ((s.wire x.other).drop n)) y ↔
      Fits cap codec s y := by
  have hbytes : (s.wire x.other).take n ++ ((s.wire x.other).drop n ++ (s.ep x.other).loop.rest) =
      s.wire x.other ++ (s.ep x.other).loop.rest := by
    rw [← List.append_assoc, List.take_append_drop]
  refine (Side.forall_iff x).2 ⟨?_, ?_⟩
  · simp only [Fits, Duplex.ep_setWire, Duplex.ep_setEp, Duplex.ep_setEp_other, Duplex.wire_setWire_of_other,
      Duplex.wire_setEp]
  · simp only [Fits, Duplex.ep_setWire, Duplex.ep_setEp, Duplex.ep_setEp_other, Duplex.wire_setWire,
      Side.other_other, Endpoint.leaves]
    rw [← hbytes, Reader.absorb_read hr]

/-- The invariant at both ends. -/
private theorem Flowing.mk_sides {s : Duplex} (x : Side) (hroom : ∀ y, (s.wire y).length ≤ cap)
    (hrest : ∀ y, (s.ep y).loop.isWriting = true → (s.ep y).loop.rest ≠ [])
    (hout : Open s → ((s.ep x.other).reader.skim codec (s.wire x ++ (s.ep x).loop.rest)).AtBoundary)
    (hin : Open s → ((s.ep x).reader.skim codec (s.wire x.other ++ (s.ep x.other).loop.rest)).AtBoundary)
    (hfailed : Open s → ∀ y, (s.ep y).reader = .done → ∃ err, .error err ∈ (s.ep y).frames)
    (hfits : (s.ep x).loop.isWriting = true → (s.ep x.other).loop.isWriting = true →
      Fits cap codec s x ∨ Fits cap codec s x.other) : Flowing cap codec s where
  room := hroom
  rest := hrest
  aligned ho := (Side.forall_iff x).2 ⟨hout ho, by rw [Side.other_other]; exact hin ho⟩
  failed := hfailed
  fits := (Side.forall_iff x).2 ⟨hfits, fun h h' => by
    rw [Side.other_other] at h' ⊢
    exact (hfits h' h).symm⟩

/-- What `x` still has to read ends with a whole frame. -/
private theorem Flowing.incoming (h : Flowing cap codec s) (ho : Open s) (x : Side) :
    ((s.ep x).reader.skim codec (s.wire x.other ++ (s.ep x.other).loop.rest)).AtBoundary := by
  have hal := h.aligned ho x.other
  rwa [Side.other_other] at hal

/-- One end changes and the sockets do not, and one of the loops has ended. -/
private theorem Flowing.setEp_ended (h : Flowing cap codec s)
    (hended : ep'.loop.hasEnded = true ∨ (s.ep x.other).loop.hasEnded = true)
    (hrest : ep'.loop.isWriting = true → ep'.loop.rest ≠ []) : Flowing cap codec (s.setEp x ep') := by
  have hclosed : ¬ Open (s.setEp x ep') := by
    intro ho
    rcases hended with hend | hend
    · exact absurd hend (by simpa using ho x)
    · exact absurd hend (by simpa using ho x.other)
  refine Flowing.mk_sides x (fun y => ?_) ((Side.forall_iff x).2 ⟨?_, ?_⟩) (fun ho => absurd ho hclosed)
    (fun ho => absurd ho hclosed) (fun ho => absurd ho hclosed) (fun hx hy => absurd ?_ hclosed)
  · simpa using h.room y
  · simpa using hrest
  · simpa using h.rest x.other
  · exact open_of_writing ((Side.forall_iff x).2 ⟨hx, hy⟩)

/-- One end changes and the sockets do not. -/
private theorem Flowing.setEp (h : Flowing cap codec s)
    (hopen : ep'.loop.hasEnded = false → (s.ep x).loop.hasEnded = false)
    (hrest : ep'.loop.isWriting = true → ep'.loop.rest ≠ [])
    (hout : Open s → ((s.ep x.other).reader.skim codec (s.wire x ++ ep'.loop.rest)).AtBoundary)
    (hin : Open s → (ep'.reader.skim codec (s.wire x.other ++ (s.ep x.other).loop.rest)).AtBoundary)
    (hfailed : Open s → ep'.reader = .done → ∃ err, .error err ∈ ep'.frames)
    (hfits : ep'.loop.isWriting = true → (s.ep x.other).loop.isWriting = true →
      Fits cap codec (s.setEp x ep') x ∨ Fits cap codec (s.setEp x ep') x.other) :
    Flowing cap codec (s.setEp x ep') := by
  have ho : Open (s.setEp x ep') → Open s := by
    intro h'
    refine (Side.forall_iff x).2 ⟨hopen ?_, ?_⟩
    · simpa using h' x
    · simpa using h' x.other
  refine Flowing.mk_sides x (fun y => ?_) ((Side.forall_iff x).2 ⟨?_, ?_⟩) (fun h' => ?_) (fun h' => ?_)
    (fun h' => (Side.forall_iff x).2 ⟨?_, ?_⟩) ?_
  · simpa using h.room y
  · simpa using hrest
  · simpa using h.rest x.other
  · simpa using hout (ho h')
  · simpa using hin (ho h')
  · simpa using hfailed (ho h')
  · simpa using h.failed (ho h') x.other
  · simpa using hfits

/-- A write begins behind whole frames. -/
private theorem flowing_begin (h : Flowing cap codec s) {e : LocalEvent} {msg : Message} {bytes : Bytes}
    (hok : writeFits cap codec s (.own x e) = true) (hpoll : (s.ep x).loop = .polling)
    (hmsg : (s.ep x).nextMessage e = some msg) (hw : writeMessage codec msg = some bytes)
    (hloop : ep'.loop = .writing bytes) (hreader : ep'.reader = (s.ep x).reader)
    (hframes : ep'.frames = (s.ep x).framesAfter e)
    (hmem : ep'.frames = (s.ep x).frames ∨ ∃ msg, (s.ep x).frames = .ok msg :: ep'.frames) :
    Flowing cap codec (s.setEp x ep') := by
  have hrest : (s.ep x).loop.rest = [] := by rw [hpoll]; rfl
  refine h.setEp (fun _ => by rw [hpoll]; rfl) (fun _ => ?_) (fun ho => ?_) (fun ho => ?_) (fun ho hd => ?_)
    (fun _ hother => ?_)
  · rw [hloop]
    exact writeMessage_ne_nil hw
  · rw [hloop, Reader.skim_append]
    refine Reader.AtBoundary.skim_writeMessage ?_ hw
    have hal := h.aligned ho x
    rwa [hrest, List.append_nil] at hal
  · rw [hreader]
    exact h.incoming ho x
  · rw [hreader] at hd
    obtain ⟨err, herr⟩ := h.failed ho x hd
    exact ⟨err, error_mem herr hmem⟩
  · obtain ⟨rest, hr⟩ := isWriting_eq hother
    simp only [writeFits, hmsg, Option.bind_some, hw, hr, Bool.or_eq_true, decide_eq_true_eq] at hok
    simp only [Fits, Duplex.ep_setEp, Duplex.ep_setEp_other, Duplex.wire_setEp, Side.other_other, hloop,
      hr, LoopState.rest, Endpoint.leaves, hreader, hframes] at hok ⊢
    exact hok

private theorem flowing_own (h : Flowing cap codec s) {e : LocalEvent}
    (hok : writeFits cap codec s (.own x e) = true) (hs : (s.ep x).step codec e = some ep') :
    Flowing cap codec (s.setEp x ep') := by
  have hopen : ep'.loop.hasEnded = false → (s.ep x).loop.hasEnded = false := by
    intro _
    unfold Endpoint.step at hs
    cases hl : (s.ep x).loop with
    | polling | writing => rfl
    | ended r =>
      rw [hl] at hs
      simp at hs
  rcases Endpoint.step_cases hs with ⟨-, ep₀, r, rfl⟩ | ⟨msg, bytes, hpoll, hmsg, hw, hloop, hreader, hframes, hmem⟩ |
    ⟨frame, hreader, hlen, rfl⟩ | ⟨hloop, hreader, hframes⟩
  · -- the connection ends
    exact h.setEp_ended (Or.inl rfl) (fun hw => by cases hw)
  · exact flowing_begin h hok hpoll hmsg hw hloop hreader hframes hmem
  · -- the reader task forwards a frame: it can take as much as before
    refine h.setEp hopen (h.rest x) (fun ho => h.aligned ho x) (fun ho => ?_) (fun _ hd => ?_) (fun hx hy => ?_)
    · have hal := h.incoming ho x
      rw [hreader] at hal
      exact Reader.atBoundary_sent hal
    · cases frame with
      | ok msg => cases hd
      | error err => exact ⟨err, List.mem_append_right _ (List.mem_singleton_self _)⟩
    · have hfits : ∀ y, Fits cap codec (s.setEp x
          { s.ep x with frames := (s.ep x).frames ++ [frame], reader := Reader.sent frame }) y ↔ Fits cap codec s y :=
        fits_setEp rfl (leaves_forward hreader hlen)
      rw [hfits, hfits]
      exact h.fits x hx hy
  · -- the loop and the reader task stay where they are
    refine h.setEp hopen ?_ (fun ho => ?_) (fun ho => ?_) (fun ho hd => ?_) (fun hx hy => ?_)
    · rw [hloop]
      exact h.rest x
    · rw [hloop]
      exact h.aligned ho x
    · rw [hreader]
      exact h.incoming ho x
    · rw [hreader] at hd
      obtain ⟨err, herr⟩ := h.failed ho x hd
      exact ⟨err, error_mem herr (hframes.imp id And.right)⟩
    · rw [hloop] at hx
      rcases hframes with hf | ⟨hpoll, -⟩
      · have hleaves : ∀ bytes, ep'.leaves codec bytes = (s.ep x).leaves codec bytes := fun bytes => by
          rw [Endpoint.leaves, Endpoint.leaves, hreader, hf]
        rw [fits_setEp (by rw [hloop]) hleaves, fits_setEp (by rw [hloop]) hleaves]
        exact h.fits x hx hy
      · rw [hpoll] at hx
        cases hx

private theorem flowing_write (h : Flowing cap codec s) {n : Nat} (hw : (s.ep x).loop.isWriting = true)
    (hroom : (s.wire x ++ (s.ep x).loop.rest.take n).length ≤ cap) :
    Flowing cap codec ((s.setEp x { s.ep x with loop := (s.ep x).loop.wrote n }).setWire x
      (s.wire x ++ (s.ep x).loop.rest.take n)) := by
  have hbytes : s.wire x ++ (s.ep x).loop.rest.take n ++ (s.ep x).loop.rest.drop n =
      s.wire x ++ (s.ep x).loop.rest := by
    rw [List.append_assoc, List.take_append_drop]
  have ho : Open ((s.setEp x { s.ep x with loop := (s.ep x).loop.wrote n }).setWire x
      (s.wire x ++ (s.ep x).loop.rest.take n)) → Open s := by
    intro h'
    refine (Side.forall_iff x).2 ⟨?_, ?_⟩
    · obtain ⟨rest, hr⟩ := isWriting_eq hw
      rw [hr]
      rfl
    · simpa using h' x.other
  refine Flowing.mk_sides x ((Side.forall_iff x).2 ⟨?_, ?_⟩) ((Side.forall_iff x).2 ⟨?_, ?_⟩) (fun h' => ?_)
    (fun h' => ?_) (fun h' => (Side.forall_iff x).2 ⟨?_, ?_⟩) (fun _ hy => ?_)
  · simpa using hroom
  · simpa using h.room x.other
  · simp only [Duplex.ep_setWire, Duplex.ep_setEp]
    intro hwr
    unfold LoopState.wrote at hwr ⊢
    split at hwr
    · cases hwr
    · rename_i hne
      rwa [if_neg hne]
  · simpa using h.rest x.other
  · simp only [Duplex.ep_setWire, Duplex.ep_setEp, Duplex.ep_setEp_other, Duplex.wire_setWire, rest_wrote, hbytes]
    exact h.aligned (ho h') x
  · simpa using h.incoming (ho h') x
  · simpa using h.failed (ho h') x
  · simpa using h.failed (ho h') x.other
  · rw [fits_write, fits_write]
    exact h.fits x hw (by simpa using hy)

private theorem flowing_read (h : Flowing cap codec s) {n : Nat} {r : Reader}
    (hr : (s.ep x).reader.read codec ((s.wire x.other).take n) = some r) :
    Flowing cap codec ((s.setEp x { s.ep x with reader := r }).setWire x.other ((s.wire x.other).drop n)) := by
  have ho : Open ((s.setEp x { s.ep x with reader := r }).setWire x.other ((s.wire x.other).drop n)) → Open s := by
    intro h'
    refine (Side.forall_iff x).2 ⟨?_, ?_⟩
    · simpa using h' x
    · simpa using h' x.other
  have hbytes : (s.wire x.other).take n ++ ((s.wire x.other).drop n ++ (s.ep x.other).loop.rest) =
      s.wire x.other ++ (s.ep x.other).loop.rest := by
    rw [← List.append_assoc, List.take_append_drop]
  refine Flowing.mk_sides x ((Side.forall_iff x).2 ⟨?_, ?_⟩) ((Side.forall_iff x).2 ⟨?_, ?_⟩) (fun h' => ?_)
    (fun h' => ?_) (fun h' => (Side.forall_iff x).2 ⟨?_, ?_⟩) (fun hx hy => ?_)
  · simpa using h.room x
  · have := h.room x.other
    simp only [Duplex.wire_setWire, List.length_drop]
    omega
  · simpa using h.rest x
  · simpa using h.rest x.other
  · simpa using h.aligned (ho h') x
  · have hal := h.incoming (ho h') x
    rw [← hbytes, Reader.skim_read hr] at hal
    simpa using hal
  · simp only [Duplex.ep_setWire, Duplex.ep_setEp]
    rintro rfl
    exact h.failed (ho h') x (Reader.read_done hr)
  · simpa using h.failed (ho h') x.other
  · rw [fits_read hr, fits_read hr]
    exact h.fits x (by simpa using hx) (by simpa using hy)

theorem flowing_step (h : Flowing cap codec s) {e : DuplexEvent} {s' : Duplex}
    (hok : writeFits cap codec s e = true) (hs : duplexStep cap codec s e = some s') : Flowing cap codec s' := by
  cases e with
  | own x e =>
    obtain ⟨ep', hep, rfl⟩ := Option.map_eq_some_iff.1 hs
    exact flowing_own h hok hep
  | write x n =>
    simp only [duplexStep] at hs
    split at hs
    · rename_i hw
      cases hs
      refine flowing_write h hw.1 ?_
      rw [List.length_append, List.length_take]
      omega
    · cases hs
  | read x n =>
    simp only [duplexStep] at hs
    split at hs
    · split at hs
      · rename_i r hr
        cases hs
        exact flowing_read h hr
      · cases hs
    · cases hs
  | eof x =>
    simp only [duplexStep] at hs
    split at hs
    · rename_i hended
      cases hs
      exact h.setEp_ended (Or.inr hended.1) (h.rest x)
    · cases hs
  | reset x =>
    simp only [duplexStep] at hs
    split at hs
    · rename_i hended
      cases hs
      exact h.setEp_ended (Or.inr hended.1) (fun hw => by cases hw)
    · cases hs

end Steps

/-! ### Stuck states -/

/-- Each loop is inside a write, its socket is full, and the reader task at the far end waits for that loop to take a
frame (or has stopped at a frame it cannot read). -/
def Wedged (cap : Nat) (s : Duplex) : Prop :=
  ∀ x, (s.ep x).loop.isWriting = true ∧ cap ≤ (s.wire x).length ∧
    ((∃ frame, (s.ep x).reader = .sending frame ∧ framesCap ≤ (s.ep x).frames.length) ∨ (s.ep x).reader = .done)

private theorem not_progress_of_wedged {cap : Nat} {codec : Codec} {s : Duplex} (h : Wedged cap s) :
    ¬ Progress cap codec s := by
  rintro ⟨e, hmoves, hstep⟩
  cases e with
  | own x e =>
    obtain ⟨hw, -, hr⟩ := h x
    obtain ⟨rest, hrest⟩ := isWriting_eq hw
    simp only [duplexStep, Option.isSome_map] at hstep
    cases e with
    | takeOutbound | takeFrame => simp [Endpoint.step, hrest] at hstep
    | forward =>
      rcases hr with ⟨frame, hr, hlen⟩ | hr
      · simp [Endpoint.step, hrest, Endpoint.forward, hr, Nat.not_lt.2 hlen] at hstep
      · simp [Endpoint.step, hrest, Endpoint.forward, hr] at hstep
    | push | dropSenders | tick | idleTimeout => cases hmoves
  | write x n =>
    have hfull := (h x).2.1
    simp only [duplexStep] at hstep
    split at hstep
    · omega
    · cases hstep
  | read x n =>
    simp only [duplexStep] at hstep
    split at hstep
    · rename_i hn
      have hne : (s.wire x.other).take n ≠ [] := by
        intro he
        have := congrArg List.length he
        rw [List.length_take, List.length_nil] at this
        omega
      obtain ⟨b, bs, hcons⟩ := List.exists_cons_of_ne_nil hne
      rcases (h x).2.2 with ⟨frame, hr, -⟩ | hr
      · simp [hr, hcons, Reader.read, Reader.feed] at hstep
      · simp [hr, hcons, Reader.read, Reader.feed] at hstep
    · cases hstep
  | eof | reset => cases hmoves

section Stuck

variable {cap : Nat} {codec : Codec} {s : Duplex}

private theorem wire_full_of_stuck (hstuck : ¬ Progress cap codec s) (h : Flowing cap codec s) {x : Side}
    (hw : (s.ep x).loop.isWriting = true) : cap ≤ (s.wire x).length := by
  by_contra hlt
  have hpos : 0 < (s.ep x).loop.rest.length := List.length_pos_iff.2 (h.rest x hw)
  refine hstuck ⟨.write x 1, rfl, ?_⟩
  simp only [duplexStep]
  rw [if_pos ⟨hw, by omega, by omega, by omega⟩]
  rfl

private theorem wire_empty_of_stuck (hstuck : ¬ Progress cap codec s) {x : Side}
    (hr : (s.ep x).reader.isReading = true) : s.wire x.other = [] := by
  cases hwire : s.wire x.other with
  | nil => rfl
  | cons b bs =>
    obtain ⟨r, hfeed⟩ := Reader.feed_of_isReading codec hr b
    refine absurd ⟨.read x 1, rfl, ?_⟩ hstuck
    simp [duplexStep, hwire, Reader.read, hfeed]

private theorem frames_full_of_stuck (hstuck : ¬ Progress cap codec s) (ho : Open s) {x : Side} {frame : ReadResult}
    (hr : (s.ep x).reader = .sending frame) : framesCap ≤ (s.ep x).frames.length := by
  by_contra hlt
  refine hstuck ⟨.own x .forward, rfl, ?_⟩
  have hnot := ho x
  cases hl : (s.ep x).loop with
  | ended reason =>
    rw [hl] at hnot
    cases hnot
  | polling | writing => simp [duplexStep, Endpoint.step, hl, Endpoint.forward, hr, Nat.lt_of_not_le hlt]

/-- A loop that polls and finds nothing has empty channels. -/
private theorem empty_of_stuck (hstuck : ¬ Progress cap codec s) {x : Side} (hl : (s.ep x).loop = .polling) :
    (s.ep x).outbound = [] ∧ (s.ep x).frames = [] ∧ (s.ep x).reader ≠ .done := by
  have hout : (s.ep x).takeOutbound codec = none := by
    by_contra hne
    refine hstuck ⟨.own x .takeOutbound, rfl, ?_⟩
    simpa [duplexStep, Endpoint.step, hl, Option.isSome_iff_ne_none] using hne
  have hframe : (s.ep x).takeFrame codec = none := by
    by_contra hne
    refine hstuck ⟨.own x .takeFrame, rfl, ?_⟩
    simpa [duplexStep, Endpoint.step, hl, Option.isSome_iff_ne_none] using hne
  unfold Endpoint.takeOutbound at hout
  split at hout
  · cases hout
  · rename_i hnil
    split at hout
    · rename_i hsenders
      unfold Endpoint.takeFrame at hframe
      rw [if_neg (by simp [hnil, hsenders])] at hframe
      split at hframe
      · cases hframe
      · cases hframe
      · cases hframe
      · rename_i hframes hreader
        exact ⟨hnil, hframes, hreader⟩
    · cases hout

private theorem polling_of_open (ho : Open s) {x : Side} (hw : (s.ep x).loop.isWriting ≠ true) :
    (s.ep x).loop = .polling := by
  have hnot := ho x
  cases hl : (s.ep x).loop with
  | polling => rfl
  | writing rest =>
    rw [hl] at hw
    exact absurd rfl hw
  | ended reason =>
    rw [hl] at hnot
    cases hnot

/-- A reader task that does not read waits for its loop, which then has frames to take. -/
private theorem blocked_of_stuck (hstuck : ¬ Progress cap codec s) (h : Flowing cap codec s) (ho : Open s) {x : Side}
    (hr : (s.ep x).reader.isReading ≠ true) :
    ((∃ frame, (s.ep x).reader = .sending frame ∧ framesCap ≤ (s.ep x).frames.length) ∨
      (s.ep x).reader = .done) ∧ (s.ep x).frames ≠ [] := by
  cases hrd : (s.ep x).reader with
  | header | body =>
    rw [hrd] at hr
    exact absurd rfl hr
  | sending frame =>
    have hlen := frames_full_of_stuck hstuck ho hrd
    refine ⟨Or.inl ⟨frame, rfl, hlen⟩, fun he => ?_⟩
    rw [he] at hlen
    exact absurd hlen (by decide)
  | done =>
    obtain ⟨err, herr⟩ := h.failed ho x hrd
    exact ⟨Or.inr rfl, List.ne_nil_of_mem herr⟩

/-- One loop inside a write stops the other. -/
private theorem writing_other_of_stuck (hstuck : ¬ Progress cap codec s) (hcap : 0 < cap) (h : Flowing cap codec s)
    (ho : Open s) {x : Side} (hw : (s.ep x).loop.isWriting = true) :
    (s.ep x.other).loop.isWriting = true ∧
      ((∃ frame, (s.ep x.other).reader = .sending frame ∧ framesCap ≤ (s.ep x.other).frames.length) ∨
        (s.ep x.other).reader = .done) := by
  have hfull := wire_full_of_stuck hstuck h hw
  have hnr : (s.ep x.other).reader.isReading ≠ true := by
    intro hr
    have hnil := wire_empty_of_stuck hstuck hr
    rw [Side.other_other] at hnil
    rw [hnil, List.length_nil] at hfull
    omega
  obtain ⟨hblocked, hframes⟩ := blocked_of_stuck hstuck h ho hnr
  refine ⟨?_, hblocked⟩
  by_contra hw'
  exact hframes (empty_of_stuck hstuck (polling_of_open ho hw')).2.1

/-- When both loops poll, every channel is empty and no frame has been read in part. -/
private theorem not_pending_of_stuck (hstuck : ¬ Progress cap codec s) (h : Flowing cap codec s) (ho : Open s)
    (hpoll : ∀ x, (s.ep x).loop = .polling) : ¬ Pending s := by
  have hempty := fun x => empty_of_stuck hstuck (hpoll x)
  have hreading : ∀ x, (s.ep x).reader.isReading = true := by
    intro x
    by_contra hr
    exact (blocked_of_stuck hstuck h ho hr).2 (hempty x).2.1
  have hwire : ∀ x, s.wire x = [] := by
    intro x
    have hnil := wire_empty_of_stuck hstuck (hreading x.other)
    rwa [Side.other_other] at hnil
  rintro ⟨x, hp | hp | hp | hp | hp⟩
  · exact hp (hempty x).1
  · rw [hpoll x] at hp
    cases hp
  · exact hp (hwire x)
  · exact hp (hempty x).2.1
  · have hal := h.incoming ho x
    rw [hwire, hpoll] at hal
    have hr := hreading x
    cases hrd : (s.ep x).reader with
    | header got =>
      rw [hrd] at hal
      obtain rfl : got = [] := hal
      exact hp hrd
    | body len got =>
      rw [hrd] at hal
      exact hal
    | sending | done =>
      rw [hrd] at hr
      cases hr

/-- Whoever is stuck is wedged. -/
private theorem wedged_of_stuck (hcap : 0 < cap) (h : Flowing cap codec s) (ho : Open s) (hp : Pending s)
    (hstuck : ¬ Progress cap codec s) : Wedged cap s := by
  by_cases hex : ∃ x, (s.ep x).loop.isWriting = true
  · obtain ⟨x, hw⟩ := hex
    obtain ⟨hw', hr'⟩ := writing_other_of_stuck hstuck hcap h ho hw
    have hr := (writing_other_of_stuck hstuck hcap h ho hw').2
    rw [Side.other_other] at hr
    exact (Side.forall_iff x).2 ⟨⟨hw, wire_full_of_stuck hstuck h hw, hr⟩, hw', wire_full_of_stuck hstuck h hw', hr'⟩
  · push Not at hex
    exact absurd hp (not_pending_of_stuck hstuck h ho (fun x => polling_of_open ho (hex x)))

/-- No write of a wedged connection ends by itself. -/
private theorem not_wedged_of_flowing (h : Flowing cap codec s) : ¬ Wedged cap s := by
  intro hw
  have hlong : ∀ x, ¬ Fits cap codec s x := by
    intro x hfits
    have hleaves : (s.ep x.other).leaves codec (s.wire x ++ (s.ep x).loop.rest) = s.wire x ++ (s.ep x).loop.rest := by
      unfold Endpoint.leaves
      rcases (hw x.other).2.2 with ⟨frame, hr, hlen⟩ | hr
      · rw [hr, Nat.sub_eq_zero_of_le hlen]
        exact Reader.absorb_full frame _
      · rw [hr]
        exact Reader.absorb_done _ _
    unfold Fits at hfits
    rw [hleaves, List.length_append] at hfits
    have hfull := (hw x).2.1
    have hrest := List.length_pos_iff.2 (h.rest x (hw x).1)
    omega
  rcases h.fits .a (hw .a).1 (hw .b).1 with hf | hf
  · exact hlong _ hf
  · exact hlong _ hf

end Stuck

/-- In every run in which no loop enters `write_message` while the other is inside it unless one of the two writes can
end without the help of either loop: in every state with both loops running in which some message is queued,
half-written or unread, a step that moves a message is enabled. -/
theorem duplex_never_stuck (cap : Nat) (hcap : 0 < cap) (codec : Codec) (es : List DuplexEvent) (s : Duplex)
    (hr : Run (duplexStep cap codec) (fun s e => writeFits cap codec s e = true) .start es s) (ho : Open s)
    (hp : Pending s) : Progress cap codec s := by
  have h : Flowing cap codec s := hr.invariant (flowing_start cap codec) (fun _ _ _ h hok hs => flowing_step h hok hs)
  by_contra hstuck
  exact not_wedged_of_flowing h (wedged_of_stuck hcap h ho hp hstuck)

/-! ### The condition is exact -/

/-- Both loops are inside writes that do not end by themselves. -/
structure Stalled (cap : Nat) (codec : Codec) (s : Duplex) : Prop where
  writing : ∀ x, (s.ep x).loop.isWriting = true
  room : ∀ x, (s.wire x).length ≤ cap
  stays : ∀ x, ¬ Fits cap codec s x

section Stall

variable {cap : Nat} {codec : Codec} {s : Duplex} {x : Side}

/-- A write that is over has fitted. -/
private theorem fits_of_rest_nil (hroom : (s.wire x).length ≤ cap) (h : (s.ep x).loop.rest = []) :
    Fits cap codec s x := by
  unfold Fits
  rw [h, List.append_nil]
  exact (Reader.absorb_length_le _ _ _).trans hroom

private theorem stalled_own (h : Stalled cap codec s) {e : LocalEvent} {ep' : Endpoint}
    (hs : (s.ep x).step codec e = some ep') : Stalled cap codec (s.setEp x ep') := by
  have hnot : (s.ep x).loop ≠ .polling := by
    intro hp
    have := h.writing x
    rw [hp] at this
    cases this
  have hkeep : ep'.loop = (s.ep x).loop ∧ ∀ bytes, ep'.leaves codec bytes = (s.ep x).leaves codec bytes := by
    rcases Endpoint.step_cases hs with ⟨hp, -⟩ | ⟨msg, bytes, hp, -⟩ | ⟨frame, hr, hlen, rfl⟩ | ⟨hloop, hr, hf⟩
    · exact absurd hp hnot
    · exact absurd hp hnot
    · exact ⟨rfl, leaves_forward hr hlen⟩
    · refine ⟨hloop, fun bytes => ?_⟩
      rw [Endpoint.leaves, Endpoint.leaves, hr, hf.resolve_right (fun hp => hnot hp.1)]
  refine ⟨(Side.forall_iff x).2 ⟨?_, ?_⟩, fun y => ?_, fun y => ?_⟩
  · rw [Duplex.ep_setEp, hkeep.1]
    exact h.writing x
  · simpa using h.writing x.other
  · simpa using h.room y
  · rw [fits_setEp (by rw [hkeep.1]) hkeep.2]
    exact h.stays y

private theorem stalled_write (h : Stalled cap codec s) {x : Side} {n : Nat}
    (hroom : (s.wire x ++ (s.ep x).loop.rest.take n).length ≤ cap) :
    Stalled cap codec ((s.setEp x { s.ep x with loop := (s.ep x).loop.wrote n }).setWire x
      (s.wire x ++ (s.ep x).loop.rest.take n)) := by
  have hstays := fun y => (not_congr (fits_write (x := x) n y)).2 (h.stays y)
  refine ⟨(Side.forall_iff x).2 ⟨?_, ?_⟩, (Side.forall_iff x).2 ⟨?_, ?_⟩, hstays⟩
  · -- the last byte cannot go into the socket
    by_contra hnw
    refine hstays x (fits_of_rest_nil (by simpa using hroom) ?_)
    simp only [Duplex.ep_setWire, Duplex.ep_setEp] at hnw ⊢
    cases hl : (s.ep x).loop.wrote n with
    | writing rest =>
      rw [hl] at hnw
      exact absurd rfl hnw
    | polling | ended => rfl
  · simpa using h.writing x.other
  · simpa using hroom
  · simpa using h.room x.other

private theorem stalled_read (h : Stalled cap codec s) {x : Side} {n : Nat} {r : Reader}
    (hr : (s.ep x).reader.read codec ((s.wire x.other).take n) = some r) :
    Stalled cap codec ((s.setEp x { s.ep x with reader := r }).setWire x.other ((s.wire x.other).drop n)) := by
  have hstays := fun y => (not_congr (fits_read hr y)).2 (h.stays y)
  refine ⟨(Side.forall_iff x).2 ⟨?_, ?_⟩, (Side.forall_iff x).2 ⟨?_, ?_⟩, hstays⟩
  · simpa using h.writing x
  · simpa using h.writing x.other
  · simpa using h.room x
  · have hlen := h.room x.other
    simp only [Duplex.wire_setWire, List.length_drop]
    omega

theorem stalled_step (h : Stalled cap codec s) {e : DuplexEvent} {s' : Duplex}
    (hs : duplexStep cap codec s e = some s') : Stalled cap codec s' := by
  have hended : ∀ x, (s.ep x).loop.hasEnded ≠ true := by
    intro x hend
    rw [open_of_writing h.writing x] at hend
    cases hend
  cases e with
  | own x e =>
    obtain ⟨ep', hep, rfl⟩ := Option.map_eq_some_iff.1 hs
    exact stalled_own h hep
  | write x n =>
    simp only [duplexStep] at hs
    split at hs
    · cases hs
      refine stalled_write h ?_
      rw [List.length_append, List.length_take]
      omega
    · cases hs
  | read x n =>
    simp only [duplexStep] at hs
    split at hs
    · split at hs
      · rename_i r hr
        cases hs
        exact stalled_read h hr
      · cases hs
    · cases hs
  | eof x =>
    simp only [duplexStep] at hs
    split at hs
    · rename_i hend
      exact absurd hend.1 (hended _)
    · cases hs
  | reset x =>
    simp only [duplexStep] at hs
    split at hs
    · rename_i hend
      exact absurd hend.1 (hended _)
    · cases hs

/-- Entering a write against the condition stalls the connection. -/
private theorem stalled_of_not_writeFits (h : Flowing cap codec s) {e : DuplexEvent} {s' : Duplex}
    (hno : writeFits cap codec s e = false) (hs : duplexStep cap codec s e = some s') : Stalled cap codec s' := by
  cases e with
  | write | read | eof | reset => cases hno
  | own x e =>
    obtain ⟨ep', hep, rfl⟩ := Option.map_eq_some_iff.1 hs
    simp only [writeFits] at hno
    split at hno
    · rename_i bytes rest hmsg hother
      obtain ⟨msg, hmsg, hw⟩ := Option.bind_eq_some_iff.1 hmsg
      simp only [Bool.or_eq_false_iff, decide_eq_false_iff_not] at hno
      obtain ⟨hloop, hreader, hframes⟩ := Endpoint.step_startWrite hep hmsg hw
      refine ⟨(Side.forall_iff x).2 ⟨?_, ?_⟩, fun y => ?_, (Side.forall_iff x).2 ⟨?_, ?_⟩⟩
      · rw [Duplex.ep_setEp, hloop]
        rfl
      · rw [Duplex.ep_setEp_other, hother]
        rfl
      · simpa using h.room y
      · simp only [Fits, Duplex.ep_setEp, Duplex.ep_setEp_other, Duplex.wire_setEp, hloop]
        exact hno.1
      · simp only [Fits, Duplex.ep_setEp, Duplex.ep_setEp_other, Duplex.wire_setEp, Side.other_other, hother,
          Endpoint.leaves, hreader, hframes]
        exact hno.2
    · cases hno

end Stall

/-- The first write entered against the condition is the last thing either loop does: both stay inside their writes
in every continuation of the run. -/
theorem stalled_forever (cap : Nat) (codec : Codec) (es fs : List DuplexEvent) (e : DuplexEvent) (s s' t : Duplex)
    (hr : Run (duplexStep cap codec) (fun s e => writeFits cap codec s e = true) .start es s)
    (hno : writeFits cap codec s e = false) (hs : duplexStep cap codec s e = some s')
    (hr' : Run (duplexStep cap codec) Always s' fs t) (x : Side) : (t.ep x).loop.isWriting = true := by
  have h : Flowing cap codec s := hr.invariant (flowing_start cap codec) (fun _ _ _ h hok hs => flowing_step h hok hs)
  have hstalled : Stalled cap codec t :=
    hr'.invariant (stalled_of_not_writeFits h hno hs) (fun _ _ _ h _ hs => stalled_step h hs)
  exact hstalled.writing x

/-! ### Traffic in both directions -/

/-- `x` queues a message and begins to write it. -/
private def send (x : Side) : List DuplexEvent := [.own x (.push (.openUrl "")), .own x .takeOutbound]

/-- `x` sends until its socket is full: sixteen frames on the peer's channel, one in the hands of its reader task, one
in the socket, one half-written, and one queued. -/
private def flood (x : Side) : List DuplexEvent :=
  (List.replicate 16 (send x ++ [.write x 21, .read x.other 21, .own x.other .forward])).flatten ++
    send x ++ [.write x 21, .read x.other 21] ++ send x ++ [.write x 21] ++ send x ++ [.write x 11] ++
    [.own x (.push (.openUrl ""))]

/-- What there is to see of a wedged side. -/
private def blocked (s : Duplex) (x : Side) : Bool :=
  (s.ep x).loop.isWriting && (s.wire x).length == 32 && !(s.ep x).reader.isReading && (s.ep x).frames.length == 16

private theorem wedged_of_blocked {s : Duplex} (h : ∀ x, blocked s x = true) : Wedged 32 s := by
  intro x
  have hx := h x
  simp only [blocked, Bool.and_eq_true, beq_iff_eq, Bool.not_eq_true'] at hx
  obtain ⟨⟨⟨hw, hlen⟩, hr⟩, hframes⟩ := hx
  refine ⟨hw, by omega, ?_⟩
  cases hrd : (s.ep x).reader with
  | header | body =>
    rw [hrd] at hr
    cases hr
  | sending frame => exact Or.inl ⟨frame, rfl, by rw [hframes]; rfl⟩
  | done => exact Or.inr rfl

theorem both_loops_stall :
    ¬ ∀ (cap : Nat) (codec : Codec) (es : List DuplexEvent) (s : Duplex), 0 < cap →
      Run (duplexStep cap codec) Always .start es s → Open s → (∃ x, (s.ep x).outbound ≠ []) →
      Progress cap codec s := by
  intro h
  obtain ⟨s, hrun, hview⟩ := run_of_exec_view (duplexStep 32 urlCodec) (fun _ => True) Duplex.start
    (flood .a ++ flood .b) (fun s => (blocked s .a, blocked s .b, (s.ep .a).outbound.length)) (true, true, 1)
    (fun _ _ => trivial) (by decide +kernel)
  simp only [Prod.mk.injEq] at hview
  obtain ⟨ha, hb, hout⟩ := hview
  have hw : Wedged 32 s := wedged_of_blocked ((Side.forall_iff .a).2 ⟨ha, hb⟩)
  have hqueued : (s.ep .a).outbound ≠ [] := by
    intro he
    rw [he] at hout
    cases hout
  have hopen : Open s := open_of_writing fun x => (hw x).1
  exact not_progress_of_wedged hw (h 32 urlCodec _ s (by decide) hrun hopen ⟨.a, hqueued⟩)

/-- Both loops are inside a write; both frames still fit into the sockets. -/
private def crossing : List DuplexEvent := send .a ++ [.write .a 5] ++ send .b

theorem duplex_never_stuck_crossing :
    ∃ s, Run (duplexStep 32 urlCodec) (fun s e => writeFits 32 urlCodec s e = true) .start crossing s ∧
      (∀ x, (s.ep x).loop.isWriting = true) ∧ Progress 32 urlCodec s := by
  obtain ⟨s, hrun, hview⟩ := run_of_exec_checked (duplexStep 32 urlCodec)
    (fun s e => writeFits 32 urlCodec s e = true) Duplex.start crossing
    (fun s => ((s.ep .a).loop.isWriting, (s.ep .b).loop.isWriting)) (true, true) (by decide +kernel)
  simp only [Prod.mk.injEq] at hview
  have hw : ∀ x, (s.ep x).loop.isWriting = true := (Side.forall_iff .a).2 hview
  refine ⟨s, hrun, hw, duplex_never_stuck 32 (by decide) urlCodec crossing s hrun (open_of_writing hw) ?_⟩
  exact ⟨.a, Or.inr (Or.inl (hw .a))⟩

end Qdrop
