import Qdrop.Connection.Frame
import Mathlib.Data.List.Forall2

/-!
# Reading a stream of frames (`qdrop-core/src/frame.rs`)

`read_message` on a stream that is given by its bytes and by what the read after them returns, and the loop that calls
it until the first error (`readAll`).  A whole frame gives its message and takes just its own bytes off the stream
(`readMessage_wireFrame`); a frame that is cut short is a disconnect (`readMessage_cut`).  So a stream cut anywhere
gives the messages whose frames lie before the cut, and then a disconnect (`read_prefix`).
-/

namespace Qdrop

/-- What a read returns once the bytes are used up. -/
structure StreamEnd where
  kind : ErrorKind
  err : String

/-- The peer has hung up. -/
def StreamEnd.eof : StreamEnd := ⟨.unexpectedEof, "early eof"⟩

/-- `read_exact`: the bytes asked for, and the stream after them. -/
def readExact (n : Nat) (bytes : Bytes) : Option (Bytes × Bytes) :=
  if n ≤ bytes.length then some (bytes.take n, bytes.drop n) else none

/-- Read one message. -/
def readMessage (codec : Codec) (stop : StreamEnd) (bytes : Bytes) : Except FrameError (Message × Bytes) :=
  match readExact 4 bytes with
  | none => .error (if stop.kind = .unexpectedEof then .closed else .io stop.kind stop.err)
  | some (lenBuf, rest) =>
    if maxFrameLen < fromBeBytes lenBuf then .error (.tooLarge (fromBeBytes lenBuf))
    else match readExact (fromBeBytes lenBuf) rest with
      | none => .error (.io stop.kind stop.err)
      | some (body, rest) =>
        match codec.decode body with
        | .error err => .error (.decode err)
        | .ok msg => .ok (msg, rest)

variable {codec : Codec} {stop : StreamEnd} {bytes rest body : Bytes} {msg : Message}

private theorem readExact_length {n : Nat} {got : Bytes} (h : readExact n bytes = some (got, rest)) :
    n + rest.length = bytes.length := by
  unfold readExact at h
  split at h
  · rename_i hn
    cases h
    rw [List.length_drop]
    omega
  · cases h

/-- A message takes its prefix and its body off the stream. -/
theorem readMessage_length (h : readMessage codec stop bytes = .ok (msg, rest)) : rest.length < bytes.length := by
  unfold readMessage at h
  split at h
  · cases h
  · rename_i lenBuf rest₁ h₁
    have hlen₁ := readExact_length h₁
    split at h
    · cases h
    · split at h
      · cases h
      · rename_i body rest₂ h₂
        have hlen₂ := readExact_length h₂
        split at h
        · cases h
        · cases h
          omega

/-- `read_message` until the first error: the messages, with the bytes each of them took off the stream, and the
error. -/
def readAll (codec : Codec) (stop : StreamEnd) (bytes : Bytes) : List (Message × Nat) × FrameError :=
  match _h : readMessage codec stop bytes with
  | .error err => ([], err)
  | .ok (msg, rest) =>
    let later := readAll codec stop rest
    ((msg, bytes.length - rest.length) :: later.1, later.2)
termination_by bytes.length
decreasing_by exact readMessage_length _h

theorem readAll_of_error {err : FrameError} (h : readMessage codec stop bytes = .error err) :
    readAll codec stop bytes = ([], err) := by
  rw [readAll]
  split
  · rename_i err' h'
    rw [h] at h'
    cases h'
    rfl
  · rename_i msg rest h'
    rw [h] at h'
    cases h'

theorem readAll_of_ok (h : readMessage codec stop bytes = .ok (msg, rest)) :
    readAll codec stop bytes =
      ((msg, bytes.length - rest.length) :: (readAll codec stop rest).1, (readAll codec stop rest).2) := by
  rw [readAll]
  split
  · rename_i err h'
    rw [h] at h'
    cases h'
  · rename_i msg' rest' h'
    rw [h] at h'
    cases h'
    rfl

/-! ### Whole frames and cut frames -/

/-- The bytes of a body on the wire. -/
def wireFrame (body : Bytes) : Bytes := toBeBytes body.length ++ body

@[simp] theorem length_wireFrame (body : Bytes) : (wireFrame body).length = 4 + body.length := by
  rw [wireFrame, List.length_append]
  rfl

theorem writeMessage_eq_wireFrame (h : writeMessage codec msg = some bytes) :
    ∃ body, codec.encode msg = some body ∧ bytes = wireFrame body := by
  unfold writeMessage at h
  split at h
  · cases h
  · rename_i body he
    split at h
    · cases h
      exact ⟨body, he, rfl⟩
    · cases h

theorem writeMessage_of_encode (he : codec.encode msg = some body) (hlt : body.length < 2 ^ 32) :
    writeMessage codec msg = some (wireFrame body) := by
  unfold writeMessage
  rw [he]
  exact if_pos hlt

private theorem readExact_append {n : Nat} {got : Bytes} (hn : got.length = n) (rest : Bytes) :
    readExact n (got ++ rest) = some (got, rest) := by
  subst hn
  unfold readExact
  rw [if_pos (by simp), List.take_left, List.drop_left]

private theorem fromBeBytes_length (hb : body.length ≤ maxFrameLen) :
    fromBeBytes (toBeBytes body.length) = body.length := by
  have hmax : maxFrameLen < 2 ^ 32 := by decide
  exact fromBeBytes_toBeBytes (by omega)

/-- A whole frame gives what its body decodes to, and leaves the stream behind it. -/
theorem readMessage_wireFrame (hb : body.length ≤ maxFrameLen) (rest : Bytes) :
    readMessage codec stop (wireFrame body ++ rest) =
      match codec.decode body with
      | .error err => .error (.decode err)
      | .ok msg => .ok (msg, rest) := by
  have hheader : readExact 4 (wireFrame body ++ rest) = some (toBeBytes body.length, body ++ rest) := by
    rw [wireFrame, List.append_assoc]
    exact readExact_append (n := 4) rfl _
  have hbody : readExact body.length (body ++ rest) = some (body, rest) := readExact_append rfl rest
  unfold readMessage
  rw [hheader]
  dsimp only
  rw [fromBeBytes_length hb, if_neg (by omega), hbody]

/-- A frame over the limit is refused before its body is read. -/
theorem readMessage_tooLarge (hb : maxFrameLen < body.length) (hlt : body.length < 2 ^ 32) (rest : Bytes) :
    readMessage codec stop (wireFrame body ++ rest) = .error (.tooLarge body.length) := by
  have hheader : readExact 4 (wireFrame body ++ rest) = some (toBeBytes body.length, body ++ rest) := by
    rw [wireFrame, List.append_assoc]
    exact readExact_append (n := 4) rfl _
  unfold readMessage
  rw [hheader]
  dsimp only
  rw [fromBeBytes_toBeBytes hlt, if_pos hb]

/-- A stream that ends inside a frame is a disconnect. -/
theorem readMessage_cut (codec : Codec) (hb : body.length ≤ maxFrameLen) {cut : Bytes} (hcut : cut <+: wireFrame body)
    (hlt : cut.length < (wireFrame body).length) :
    ∃ err, readMessage codec .eof cut = .error err ∧ err.isDisconnect = true := by
  by_cases hheader : cut.length < 4
  · refine ⟨.closed, ?_, rfl⟩
    unfold readMessage
    rw [show readExact 4 cut = none from if_neg (by omega)]
    rfl
  · -- the length has been read, and the body is short
    obtain ⟨part, rfl⟩ : ∃ part, cut = toBeBytes body.length ++ part := by
      have hpre : toBeBytes body.length <+: cut :=
        List.prefix_of_prefix_length_le (List.prefix_append _ _) hcut (by simp [toBeBytes]; omega)
      obtain ⟨part, hpart⟩ := hpre
      exact ⟨part, hpart.symm⟩
    have hshort : part.length < body.length := by
      rw [length_wireFrame, List.length_append] at hlt
      have h4 : (toBeBytes body.length).length = 4 := rfl
      omega
    refine ⟨.io .unexpectedEof "early eof", ?_, rfl⟩
    unfold readMessage
    rw [readExact_append (n := 4) rfl]
    dsimp only
    rw [fromBeBytes_length hb, if_neg (by omega), show readExact body.length part = none from if_neg (by omega)]
    rfl

theorem readMessage_nil : readMessage codec .eof [] = .error .closed := rfl

/-! ### A stream of messages -/

/-- The codec reads back what it wrote. -/
def Codec.RoundTrips (codec : Codec) : Prop := ∀ msg body, codec.encode msg = some body → codec.decode body = .ok msg

/-- What `write_message` writes for one message after the other. -/
def writeMessages (codec : Codec) : List Message → Option Bytes
  | [] => some []
  | msg :: msgs => (writeMessage codec msg).bind fun bytes => (writeMessages codec msgs).map (bytes ++ ·)

/-- The bytes that frames with these bodies take up. -/
def extent (bodies : List Bytes) : Nat := (bodies.map fun body => 4 + body.length).sum

/-- The body of a message, short enough for a reader. -/
def Codec.Encodes (codec : Codec) (msg : Message) (body : Bytes) : Prop :=
  codec.encode msg = some body ∧ body.length ≤ maxFrameLen

/-- Every message within the limit is written. -/
private theorem writeMessages_eq {msgs : List Message} {bodies : List Bytes}
    (hb : List.Forall₂ codec.Encodes msgs bodies) : writeMessages codec msgs = some (bodies.flatMap wireFrame) := by
  induction hb with
  | nil => rfl
  | @cons msg body msgs bodies h _ ih =>
    have hmax : maxFrameLen < 2 ^ 32 := by decide
    have hfirst : writeMessage codec msg = some (wireFrame body) := writeMessage_of_encode h.1 (by have := h.2; omega)
    rw [writeMessages, hfirst, ih, List.flatMap_cons]
    rfl

private theorem length_flatMap_wireFrame (bodies : List Bytes) : (bodies.flatMap wireFrame).length = extent bodies := by
  rw [List.length_flatMap, extent]
  exact congrArg List.sum (List.map_congr_left fun body _ => length_wireFrame body)

private theorem flatMap_take_wireFrame (bodies : List Bytes) (i : Nat) :
    (bodies.take i).flatMap wireFrame = (bodies.flatMap wireFrame).take (extent (bodies.take i)) := by
  have hsplit : bodies.flatMap wireFrame = (bodies.take i).flatMap wireFrame ++ (bodies.drop i).flatMap wireFrame := by
    rw [← List.flatMap_append, List.take_append_drop]
  rw [hsplit, ← length_flatMap_wireFrame, List.take_left]

/-- The frames before the cut give their messages, and what is left of the next one a disconnect. -/
private theorem readAll_prefix (hc : codec.RoundTrips) {msgs : List Message} {bodies : List Bytes} {cut : Bytes}
    (hb : List.Forall₂ codec.Encodes msgs bodies) (hcut : cut <+: bodies.flatMap wireFrame) :
    ∃ k ≤ msgs.length, (∀ i ≤ msgs.length, i ≤ k ↔ extent (bodies.take i) ≤ cut.length) ∧
      (readAll codec .eof cut).1 = (msgs.take k).zip ((bodies.take k).map fun body => 4 + body.length) ∧
      (readAll codec .eof cut).2.isDisconnect = true := by
  induction hb generalizing cut with
  | nil =>
    obtain rfl : cut = [] := List.prefix_nil.1 hcut
    rw [readAll_of_error readMessage_nil]
    refine ⟨0, le_rfl, fun i hi => ?_, rfl, rfl⟩
    obtain rfl : i = 0 := Nat.le_zero.1 hi
    exact ⟨fun _ => le_rfl, fun _ => le_rfl⟩
  | @cons msg body msgs bodies h _ ih =>
    rw [List.flatMap_cons] at hcut
    have hextent : ∀ i, extent ((body :: bodies).take (i + 1)) = 4 + body.length + extent (bodies.take i) := by
      intro i
      rw [extent, extent, List.take_succ_cons, List.map_cons, List.sum_cons]
    by_cases hlen : (wireFrame body).length ≤ cut.length
    · obtain ⟨later, rfl⟩ := List.prefix_of_prefix_length_le (List.prefix_append _ _) hcut hlen
      obtain ⟨k, hk, hext, hread, hdis⟩ := ih ((List.prefix_append_right_inj _).1 hcut)
      have hmsg : readMessage codec .eof (wireFrame body ++ later) = .ok (msg, later) := by
        rw [readMessage_wireFrame h.2, hc msg body h.1]
      have hcount : (wireFrame body ++ later).length - later.length = 4 + body.length := by
        rw [List.length_append, length_wireFrame]
        omega
      rw [readAll_of_ok hmsg, hread, hcount]
      refine ⟨k + 1, Nat.succ_le_succ hk, fun i hi => ?_, rfl, hdis⟩
      cases i with
      | zero => exact ⟨fun _ => Nat.zero_le _, fun _ => Nat.zero_le _⟩
      | succ i =>
        have hi : i ≤ k ↔ extent (bodies.take i) ≤ later.length := hext i (Nat.le_of_succ_le_succ hi)
        rw [hextent, List.length_append, length_wireFrame]
        omega
    · have hshort : cut <+: wireFrame body :=
        List.prefix_of_prefix_length_le hcut (List.prefix_append _ _) (by omega)
      obtain ⟨err, herr, hdis⟩ := readMessage_cut codec h.2 hshort (by omega)
      rw [readAll_of_error herr]
      refine ⟨0, Nat.zero_le _, fun i _ => ?_, rfl, hdis⟩
      cases i with
      | zero => exact ⟨fun _ => Nat.zero_le _, fun _ => le_rfl⟩
      | succ i =>
        rw [hextent]
        rw [length_wireFrame] at hlen
        omega

/-- Messages whose bodies are within the limit are written, one frame of `4 + len` bytes after the other.  Reading the
stream cut at any byte gives the messages whose frames end before the cut, each taking the bytes of its frame, and then
a disconnect. -/
theorem read_prefix (codec : Codec) (hc : codec.RoundTrips) (msgs : List Message) (bodies : List Bytes)
    (hb : List.Forall₂ codec.Encodes msgs bodies) :
    ∃ stream, writeMessages codec msgs = some stream ∧ stream.length = extent bodies ∧
      (∀ i, writeMessages codec (msgs.take i) = some (stream.take (extent (bodies.take i)))) ∧
      ∀ cut, cut <+: stream →
        ∃ k ≤ msgs.length, (∀ i ≤ msgs.length, i ≤ k ↔ extent (bodies.take i) ≤ cut.length) ∧
          (readAll codec .eof cut).1 = (msgs.take k).zip ((bodies.take k).map fun body => 4 + body.length) ∧
          (readAll codec .eof cut).2.isDisconnect = true := by
  refine ⟨bodies.flatMap wireFrame, writeMessages_eq hb, length_flatMap_wireFrame bodies, fun i => ?_,
    fun cut hcut => readAll_prefix hc hb hcut⟩
  rw [writeMessages_eq (List.forall₂_take i hb), flatMap_take_wireFrame]

private theorem roundTrips_urlCodec : urlCodec.RoundTrips := by
  intro msg body h
  simp only [urlCodec] at h ⊢
  split at h
  · rename_i hmsg
    cases h
    rw [if_pos rfl, hmsg]
  · cases h

/-- Two frames of 21 bytes, cut inside the length of the second. -/
theorem read_prefix_two_urls :
    ∃ stream, writeMessages urlCodec [.openUrl "", .openUrl ""] = some stream ∧ stream.length = 42 ∧
      ∃ k ≤ 2, (∀ i ≤ 2, i ≤ k ↔ extent ([urlBody, urlBody].take i) ≤ 23) ∧
        (readAll urlCodec .eof (stream.take 23)).1 =
          ([Message.openUrl "", .openUrl ""].take k).zip (([urlBody, urlBody].take k).map fun body => 4 + body.length) ∧
        (readAll urlCodec .eof (stream.take 23)).2.isDisconnect = true := by
  have hbody : urlCodec.Encodes (.openUrl "") urlBody := ⟨rfl, by decide⟩
  obtain ⟨stream, hw, hlen, -, hread⟩ := read_prefix urlCodec roundTrips_urlCodec [.openUrl "", .openUrl ""]
    [urlBody, urlBody] (.cons hbody (.cons hbody .nil))
  have hlen : stream.length = 42 := hlen
  have hcut := hread (stream.take 23) (List.take_prefix 23 stream)
  rw [List.length_take, hlen] at hcut
  exact ⟨stream, hw, hlen, hcut⟩

/-! ### The reader task on a stream -/

/-- The messages `read_message` finds in a stream. -/
def wireFrames (codec : Codec) (bytes : Bytes) : List Message := (readAll codec .eof bytes).1.map Prod.fst

/-- A body that a reader accepts. -/
def Codec.Reads (codec : Codec) (body : Bytes) (msg : Message) : Prop :=
  body.length ≤ maxFrameLen ∧ codec.decode body = .ok msg

/-- The bytes are the frames of the messages. -/
def Framed (codec : Codec) (bytes : Bytes) (msgs : List Message) : Prop :=
  ∃ bodies, bytes = bodies.flatMap wireFrame ∧ List.Forall₂ codec.Reads bodies msgs

theorem framed_nil : Framed codec [] [] := ⟨[], rfl, .nil⟩

theorem Framed.snoc {msgs : List Message} (h : Framed codec bytes msgs) (hr : codec.Reads body msg) :
    Framed codec (bytes ++ wireFrame body) (msgs ++ [msg]) := by
  obtain ⟨bodies, rfl, hbodies⟩ := h
  refine ⟨bodies ++ [body], by simp, ?_⟩
  exact List.rel_append hbodies (.cons hr .nil)

/-- Whole frames are read one after the other. -/
theorem wireFrames_framed {msgs : List Message} (h : Framed codec bytes msgs) (rest : Bytes) :
    wireFrames codec (bytes ++ rest) = msgs ++ wireFrames codec rest := by
  obtain ⟨bodies, rfl, hbodies⟩ := h
  induction hbodies with
  | nil => rfl
  | @cons body msg bodies msgs hr _ ih =>
    have hmsg : readMessage codec .eof (wireFrame body ++ (bodies.flatMap wireFrame ++ rest)) =
        .ok (msg, bodies.flatMap wireFrame ++ rest) := by
      rw [readMessage_wireFrame hr.1, hr.2]
    rw [List.flatMap_cons, List.append_assoc, wireFrames, readAll_of_ok hmsg, List.map_cons, List.cons_append, ← ih]
    rfl

theorem toBeBytes_fromBeBytes (a b c d : UInt8) : toBeBytes (fromBeBytes [a, b, c, d]) = [a, b, c, d] := by
  have ha := a.toNat_lt
  have hb := b.toNat_lt
  have hc := c.toNat_lt
  have hd := d.toNat_lt
  simp only [toBeBytes, fromBeBytes, List.foldl_cons, List.foldl_nil, List.cons.injEq, ← UInt8.toNat_inj,
    UInt8.toNat_ofNat', and_true]
  omega

/-- The read error a stream gives where the task stands. -/
def Reader.fail (r : Reader) (stop : StreamEnd) : FrameError :=
  match r with
  | .header _ => if stop.kind = .unexpectedEof then .closed else .io stop.kind stop.err
  | _ => .io stop.kind stop.err

end Qdrop
