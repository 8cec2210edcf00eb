import Qdrop.Proto
import Mathlib.Tactic.NormNum

/-!
# Length-prefixed framing (`qdrop-core/src/frame.rs`)

A frame is a four-byte big-endian length and that many bytes of body.  `writeMessage` is the bytes a message is
written as; `Reader` is the reader task of a connection between two bytes, calling `read_message` in a loop and
handing each result on.  The msgpack codec of the bodies is a parameter.
-/

namespace Qdrop

/-- Hard cap on a frame's payload. -/
def maxFrameLen : Nat := 16 * 1024 * 1024

/-- `rmp_serde`: `to_vec_named` and `from_slice`. -/
structure Codec where
  encode : Message → Option Bytes
  decode : Bytes → Except String Message

/-- The body of `OpenUrl` with an empty URL as `rmp_serde` writes it: a map of `t` and `url`. -/
def urlBody : Bytes :=
  [0x82, 0xa1, 0x74, 0xa8, 0x6f, 0x70, 0x65, 0x6e, 0x5f, 0x75, 0x72, 0x6c, 0xa3, 0x75, 0x72, 0x6c, 0xa0]

/-- `rmp_serde` on that message. -/
def urlCodec : Codec where
  encode msg := if msg = .openUrl "" then some urlBody else none
  decode body := if body = urlBody then .ok (.openUrl "") else .error "invalid type"

/-- `u32::to_be_bytes`. -/
def toBeBytes (n : Nat) : Bytes :=
  [UInt8.ofNat (n / 2 ^ 24), UInt8.ofNat (n / 2 ^ 16), UInt8.ofNat (n / 2 ^ 8), UInt8.ofNat n]

/-- `u32::from_be_bytes`. -/
def fromBeBytes (bytes : Bytes) : Nat := bytes.foldl (fun n b => n * 256 + b.toNat) 0

theorem fromBeBytes_toBeBytes {n : Nat} (h : n < 2 ^ 32) : fromBeBytes (toBeBytes n) = n := by
  simp only [fromBeBytes, toBeBytes, List.foldl_cons, List.foldl_nil, UInt8.toNat_ofNat']
  omega

/-- The bytes of one message; `none` is the `InvalidData` error of a body that does not encode or is too long for
its prefix. -/
def writeMessage (codec : Codec) (msg : Message) : Option Bytes :=
  match codec.encode msg with
  | none => none
  | some body => if body.length < 2 ^ 32 then some (toBeBytes body.length ++ body) else none

theorem writeMessage_ne_nil {codec : Codec} {msg : Message} {bytes : Bytes}
    (h : writeMessage codec msg = some bytes) : bytes ≠ [] := by
  unfold writeMessage at h
  split at h
  · cases h
  · split at h
    · cases h
      simp [toBeBytes]
    · cases h

/-- `std::io::ErrorKind`, as far as it is looked at. -/
inductive ErrorKind where
  | unexpectedEof
  | connectionReset
  | connectionAborted
  | brokenPipe
  | other
deriving DecidableEq, Repr

inductive FrameError where
  | closed
  | tooLarge (len : Nat)
  | decode (err : String)
  | io (kind : ErrorKind) (err : String)
deriving DecidableEq, Repr

/-- Whether this looks like an orderly peer disconnect. -/
def FrameError.isDisconnect : FrameError → Bool
  | .closed => true
  | .io kind _ => kind != .other
  | .tooLarge _ | .decode _ => false

/-- `Display` for `FrameError`. -/
def FrameError.text : FrameError → String
  | .closed => "connection closed"
  | .tooLarge len => s!"frame of {len} bytes exceeds the {maxFrameLen}-byte limit"
  | .decode err => s!"malformed frame: {err}"
  | .io _ err => err

/-! ### The reader task -/

/-- What the reader task puts on the frames channel. -/
abbrev ReadResult := Except String Message

/-- A read error as the loop sees it: a disconnect is the empty text. -/
def FrameError.result (e : FrameError) : ReadResult := .error (if e.isDisconnect then "" else e.text)

inductive Reader where
  /-- Inside `read_exact` of the length. -/
  | header (got : Bytes)
  /-- Inside `read_exact` of the body. -/
  | body (len : Nat) (got : Bytes)
  /-- Waiting for room on the frames channel. -/
  | sending (frame : ReadResult)
  /-- Out of the loop. -/
  | done

namespace Reader

variable (codec : Codec)

/-- The result of `from_slice` on a whole body. -/
def received (body : Bytes) : ReadResult :=
  match codec.decode body with
  | .ok msg => .ok msg
  | .error err => (FrameError.decode err).result

/-- One byte more; `none` when the task is not reading. -/
def feed : Reader → UInt8 → Option Reader
  | .header got, b =>
    if got.length + 1 < 4 then some (.header (got ++ [b]))
    else
      let len := fromBeBytes (got ++ [b])
      if maxFrameLen < len then some (.sending (FrameError.tooLarge len).result)
      else if len = 0 then some (.sending (received codec []))
      else some (.body len [])
  | .body len got, b =>
    if got.length + 1 < len then some (.body len (got ++ [b])) else some (.sending (received codec (got ++ [b])))
  | .sending _, _ => none
  | .done, _ => none

/-- A read that returns several bytes. -/
def read : Reader → Bytes → Option Reader
  | r, [] => some r
  | r, b :: bs => (r.feed codec b).bind fun r => r.read bs

/-- The task once its frame is on the channel: an error ends the loop. -/
def sent : ReadResult → Reader
  | .ok _ => .header []
  | .error _ => .done

/-- The task is inside `read_message`. -/
def isReading : Reader → Bool
  | .header _ | .body _ _ => true
  | .sending _ | .done => false

theorem feed_of_isReading {r : Reader} (h : r.isReading = true) (b : UInt8) : ∃ r', r.feed codec b = some r' := by
  cases r with
  | header got =>
    simp only [feed]
    split
    · exact ⟨_, rfl⟩
    · split
      · exact ⟨_, rfl⟩
      · split <;> exact ⟨_, rfl⟩
  | body len got =>
    simp only [feed]
    split <;> exact ⟨_, rfl⟩
  | sending frame => cases h
  | done => cases h

variable {codec} in
private theorem feed_ne_done {r : Reader} {b : UInt8} : r.feed codec b ≠ some .done := by
  cases r with
  | header got =>
    simp only [feed]
    split
    · simp
    · split
      · simp
      · split <;> simp
  | body len got =>
    simp only [feed]
    split <;> simp
  | sending frame | done => simp [feed]

variable {codec} in
theorem read_done {r : Reader} {bytes : Bytes} (h : r.read codec bytes = some .done) : r = .done := by
  induction bytes generalizing r with
  | nil => exact Option.some.inj h
  | cons b bs ih =>
    obtain ⟨r₁, hfeed, hread⟩ := Option.bind_eq_some_iff.1 h
    rw [ih hread] at hfeed
    exact absurd hfeed feed_ne_done

/-! ### Frame boundaries -/

/-- The task after one byte more of the stream, with its frames taken off its hands. -/
def next (r : Reader) (b : UInt8) : Reader :=
  match r with
  | .sending frame => ((sent frame).feed codec b).getD .done
  | r => (r.feed codec b).getD .done

/-- The task after reading on through the stream. -/
def skim (r : Reader) (bytes : Bytes) : Reader := bytes.foldl (next codec) r

/-- No frame has been read in part. -/
def AtBoundary : Reader → Prop
  | .header got => got = []
  | .body _ _ => False
  | .sending _ | .done => True

variable {codec}

private theorem next_of_feed {r r' : Reader} {b : UInt8} (h : r.feed codec b = some r') : r.next codec b = r' := by
  cases r with
  | sending frame => cases h
  | done => cases h
  | header got => exact congrArg (Option.getD · Reader.done) h
  | body len got => exact congrArg (Option.getD · Reader.done) h

theorem skim_append (r : Reader) (bytes rest : Bytes) :
    r.skim codec (bytes ++ rest) = (r.skim codec bytes).skim codec rest :=
  List.foldl_append

theorem skim_read {r r' : Reader} {bytes : Bytes} (h : r.read codec bytes = some r') (rest : Bytes) :
    r.skim codec (bytes ++ rest) = r'.skim codec rest := by
  induction bytes generalizing r with
  | nil =>
    cases h
    rfl
  | cons b bs ih =>
    obtain ⟨r₁, hfeed, hread⟩ := Option.bind_eq_some_iff.1 h
    rw [← ih hread]
    show ((bs ++ rest).foldl (next codec) (r.next codec b)) = _
    rw [next_of_feed hfeed]
    rfl

private theorem skim_done (bytes : Bytes) : Reader.done.skim codec bytes = .done := by
  induction bytes with
  | nil => rfl
  | cons b bs ih => exact ih

/-- Handing a frame over does not move the task off a boundary. -/
theorem atBoundary_sent {frame : ReadResult} {bytes : Bytes}
    (h : ((Reader.sending frame).skim codec bytes).AtBoundary) :
    ((sent frame).skim codec bytes).AtBoundary := by
  cases bytes with
  | nil =>
    cases frame with
    | ok msg => exact rfl
    | error err => exact trivial
  | cons b bs =>
    cases frame with
    | ok msg => exact h
    | error err =>
      show (Reader.done.skim codec (b :: bs)).AtBoundary
      rw [skim_done]
      exact trivial

/-- Reading the rest of a body ends with its frame. -/
private theorem skim_body {len : Nat} {got bytes : Bytes} (hlen : got.length + bytes.length = len)
    (hne : bytes ≠ []) : (Reader.body len got).skim codec bytes = .sending (received codec (got ++ bytes)) := by
  induction bytes generalizing got with
  | nil => exact absurd rfl hne
  | cons b bs ih =>
    show bs.foldl (next codec) ((Reader.body len got).next codec b) = _
    cases bs with
    | nil =>
      have hlast : ¬ got.length + 1 < len := by simp at hlen; omega
      rw [next_of_feed (by rw [feed, if_neg hlast])]
      rfl
    | cons c cs =>
      have hmore : got.length + 1 < len := by simp at hlen; omega
      rw [next_of_feed (by rw [feed, if_pos hmore])]
      have hlen' : (got ++ [b]).length + (c :: cs).length = len := by
        simp only [List.length_append, List.length_cons, List.length_nil] at hlen ⊢
        omega
      have hrest := ih hlen' (by simp)
      rw [skim] at hrest
      rw [hrest, List.append_assoc]
      rfl

/-- Reading a frame from its start ends at a boundary. -/
theorem skim_writeMessage {msg : Message} {bytes : Bytes} (h : writeMessage codec msg = some bytes) :
    ((Reader.header []).skim codec bytes).AtBoundary := by
  unfold writeMessage at h
  split at h
  · cases h
  · rename_i body _
    split at h
    · rename_i hlen
      cases h
      have hbe := fromBeBytes_toBeBytes hlen
      rw [skim_append]
      -- the fourth byte of the length decides
      have hheader : (Reader.header []).skim codec (toBeBytes body.length) =
          if maxFrameLen < body.length then .sending (FrameError.tooLarge body.length).result
          else if body.length = 0 then .sending (received codec []) else .body body.length [] := by
        have hfour : (Reader.header []).skim codec (toBeBytes body.length) =
            (Reader.header ((toBeBytes body.length).take 3)).next codec (UInt8.ofNat body.length) := rfl
        have hsplit : (toBeBytes body.length).take 3 ++ [UInt8.ofNat body.length] = toBeBytes body.length := rfl
        rw [hfour]
        simp only [next, feed, hsplit, hbe]
        split
        · rename_i hlt
          exact absurd hlt (by simp [toBeBytes])
        · split
          · rfl
          · split <;> rfl
      rw [hheader]
      split
      · have hne : body ≠ [] := by rintro rfl; simp at *
        cases body with
        | nil => exact absurd rfl hne
        | cons b bs =>
          show (Reader.done.skim codec bs).AtBoundary
          rw [skim_done]
          exact trivial
      · split
        · rename_i hzero
          rw [List.length_eq_zero_iff.1 hzero]
          exact trivial
        · rename_i hpos
          rw [skim_body (by simp) (fun he => hpos (by rw [he]; rfl))]
          exact trivial
    · cases h

/-- Whole frames behind a boundary lead to a boundary. -/
theorem AtBoundary.skim_writeMessage {r : Reader} (h : r.AtBoundary) {msg : Message} {bytes : Bytes}
    (hw : writeMessage codec msg = some bytes) : (r.skim codec bytes).AtBoundary := by
  cases r with
  | header got =>
    obtain rfl : got = [] := h
    exact Reader.skim_writeMessage hw
  | body len got => exact h.elim
  | done =>
    rw [skim_done]
    exact trivial
  | sending frame =>
    cases bytes with
    | nil => exact trivial
    | cons b bs =>
      cases frame with
      | ok msg => exact Reader.skim_writeMessage hw
      | error err =>
        show (Reader.done.skim codec bs).AtBoundary
        rw [skim_done]
        exact trivial

/-! ### What the task takes by itself -/

variable (codec)

/-- One byte more while `slots` frames still have room on the channel. -/
def advance (slots : Nat) (r : Reader) (b : UInt8) : Option (Nat × Reader) :=
  match r, slots with
  | .sending frame, slots + 1 => ((sent frame).feed codec b).map (slots, ·)
  | .sending _, 0 => none
  | r, slots => (r.feed codec b).map (slots, ·)

/-- The bytes left in the stream when the task has taken all it can, with nobody taking frames off the channel. -/
def absorb : Nat → Reader → Bytes → Bytes
  | _, _, [] => []
  | slots, r, b :: bs =>
    match advance codec slots r b with
    | some (slots, r) => absorb slots r bs
    | none => b :: bs

variable {codec}

private theorem advance_of_feed {r r' : Reader} {b : UInt8} (h : r.feed codec b = some r') (slots : Nat) :
    advance codec slots r b = some (slots, r') := by
  cases r with
  | sending frame => cases h
  | done => cases h
  | header got => exact congrArg (Option.map (slots, ·)) h
  | body len got => exact congrArg (Option.map (slots, ·)) h

theorem absorb_read {r r' : Reader} {bytes : Bytes} (h : r.read codec bytes = some r') (slots : Nat) (rest : Bytes) :
    absorb codec slots r (bytes ++ rest) = absorb codec slots r' rest := by
  induction bytes generalizing r with
  | nil =>
    cases h
    rfl
  | cons b bs ih =>
    obtain ⟨r₁, hfeed, hread⟩ := Option.bind_eq_some_iff.1 h
    rw [List.cons_append, absorb, advance_of_feed hfeed]
    exact ih hread

theorem absorb_length_le (slots : Nat) (r : Reader) (bytes : Bytes) :
    (absorb codec slots r bytes).length ≤ bytes.length := by
  induction bytes generalizing slots r with
  | nil => exact le_rfl
  | cons b bs ih =>
    rw [absorb]
    split
    · exact (ih _ _).trans (by simp)
    · exact le_rfl

theorem absorb_done (slots : Nat) (bytes : Bytes) : absorb codec slots .done bytes = bytes := by
  cases bytes <;> rfl

theorem absorb_full (frame : ReadResult) (bytes : Bytes) : absorb codec 0 (.sending frame) bytes = bytes := by
  cases bytes <;> rfl

theorem absorb_sent (slots : Nat) (frame : ReadResult) (bytes : Bytes) :
    absorb codec (slots + 1) (.sending frame) bytes = absorb codec slots (sent frame) bytes := by
  cases bytes with
  | nil => rfl
  | cons b bs => cases frame <;> rfl

end Reader

end Qdrop
