import Qdrop.Connection.Relay
import Qdrop.Connection.Pack

/-!
# Frames that do not decode

A stream of well-formed frames, some of whose bodies are no known message.  The encoding is meant to cost an old peer
only the frame it does not know, but `read_message` returns the decode error, the reader task stops on it, and the loop
ends the connection with `ProtocolError`.  `unknown_tolerated` : the frames come through exactly when there is none
that does not decode.
-/

namespace Qdrop

open Lib

/-- The messages among some bodies. -/
def decodable (codec : Codec) (bodies : List Bytes) : List Message :=
  bodies.filterMap fun body => (codec.decode body).toOption

/-- Every frame that arrived has been dealt with. -/
structure Relay.Settled (s : Relay) : Prop where
  loop : s.ep.loop = .polling
  reader : s.ep.reader.isReading = true
  frames : s.ep.frames = []
  handing : s.handing = none

/-- On a stream of these frames the connection hands every application frame that decodes to the hub, in order, and
does not end with a protocol error unless the stream itself fails. -/
def Tolerates (codec : Codec) (peerId : DeviceId) (bodies : List Bytes) : Prop :=
  ∀ es s, Run (relayStep codec peerId) Always .start es s → s.arrived <+: bodies.flatMap wireFrame →
    ((∃ err, s.ep.loop = .ended (.protocolError err)) → ∃ stop, RelayEvent.readFails stop ∈ es) ∧
    (s.arrived = bodies.flatMap wireFrame → s.Settled →
      s.hub = ((decodable codec bodies).filter Message.isApplication).map (peerId, ·))

/-! ### One way to cut a stream into frames -/

section Cuts

variable {bodies bodies' : List Bytes} {body body' rest : Bytes}

private theorem length_of_prefix (hb : body.length ≤ maxFrameLen) {len : Nat} (hlen : len ≤ maxFrameLen)
    (h : toBeBytes len <+: wireFrame body ++ rest) : len = body.length := by
  have hmax : maxFrameLen < 2 ^ 32 := by decide
  have hpre : toBeBytes body.length <+: wireFrame body ++ rest :=
    (List.prefix_append _ _).trans (List.prefix_append _ _)
  have heq : toBeBytes len = toBeBytes body.length :=
    (List.prefix_of_prefix_length_le h hpre (by simp [toBeBytes])).eq_of_length (by simp [toBeBytes])
  have := congrArg fromBeBytes heq
  rwa [fromBeBytes_toBeBytes (by omega), fromBeBytes_toBeBytes (by omega)] at this

/-- Frames at the front of a stream of frames are its first ones. -/
private theorem frames_split (hb : ∀ body ∈ bodies, body.length ≤ maxFrameLen)
    (hb' : ∀ body ∈ bodies', body.length ≤ maxFrameLen) {part : Bytes}
    (h : bodies'.flatMap wireFrame ++ part <+: bodies.flatMap wireFrame) :
    ∃ later, bodies = bodies' ++ later ∧ part <+: later.flatMap wireFrame := by
  induction bodies' generalizing bodies with
  | nil => exact ⟨bodies, rfl, h⟩
  | cons body' bodies' ih =>
    rw [List.flatMap_cons, List.append_assoc] at h
    cases bodies with
    | nil =>
      have hlen := h.length_le
      simp [length_wireFrame] at hlen
    | cons body bodies =>
      rw [List.flatMap_cons] at h
      have hbody := hb body (List.mem_cons_self ..)
      have hbody' := hb' body' (List.mem_cons_self ..)
      have hlen : body'.length = body.length := by
        refine length_of_prefix hbody hbody' (List.IsPrefix.trans ?_ h)
        rw [wireFrame, List.append_assoc]
        exact List.prefix_append _ _
      have heq : wireFrame body' = wireFrame body := by
        have hpre := (List.prefix_append _ _).trans h
        refine (List.prefix_of_prefix_length_le hpre (List.prefix_append _ _) ?_).eq_of_length ?_
        · simp [hlen]
        · simp [hlen]
      have hsame : body' = body := by
        rw [wireFrame, wireFrame, hlen] at heq
        exact List.append_cancel_left heq
      subst hsame
      obtain ⟨later, rfl, hpart⟩ := ih (fun b hm => hb b (List.mem_cons_of_mem _ hm))
        (fun b hm => hb' b (List.mem_cons_of_mem _ hm)) ((List.prefix_append_right_inj _).1 h)
      exact ⟨later, rfl, hpart⟩

end Cuts

/-! ### A stream whose bodies all decode -/

section Known

variable {codec : Codec} {peerId : DeviceId} {bodies : List Bytes} {s s' : Relay} {arrived : Bytes}
  {out : List ReadResult} {r r' : Reader}

private theorem framed_bodies {consumed : Bytes} {msgs : List Message} (h : Framed codec consumed msgs) :
    ∃ bodies', consumed = bodies'.flatMap wireFrame ∧ (∀ body ∈ bodies', body.length ≤ maxFrameLen) ∧
      decodable codec bodies' = msgs := by
  obtain ⟨bodies', hcons, hall⟩ := h
  refine ⟨bodies', hcons, ?_, ?_⟩
  · clear hcons
    induction hall with
    | nil => simp
    | cons hr _ ih =>
      intro body hm
      rcases List.mem_cons.1 hm with rfl | hm
      · exact hr.1
      · exact ih body hm
  · clear hcons
    induction hall with
    | nil => rfl
    | cons hr _ ih =>
      rw [decodable, List.filterMap_cons, hr.2]
      exact congrArg _ ih

/-- A body that decodes is not an error. -/
private theorem received_ne_error {body : Bytes} (hd : ∃ msg, codec.decode body = .ok msg) (err : String) :
    Reader.sending (Reader.received codec body) ≠ .sending (.error err) := by
  obtain ⟨msg, hmsg⟩ := hd
  simp [Reader.received, hmsg]

/-- The next byte of such a stream makes no error. -/
private theorem feed_clean (hb : ∀ body ∈ bodies, body.length ≤ maxFrameLen)
    (hd : ∀ body ∈ bodies, ∃ msg, codec.decode body = .ok msg) (h : ReaderAt codec arrived out r) {b : UInt8}
    (hpre : arrived ++ [b] <+: bodies.flatMap wireFrame) (hs : r.feed codec b = some r') (err : String) :
    r' ≠ .sending (.error err) := by
  cases h with
  | header msgs consumed got hf ha hlt =>
    subst ha
    obtain ⟨bodies', rfl, hb', -⟩ := framed_bodies hf
    rw [List.append_assoc] at hpre
    obtain ⟨later, rfl, hpart⟩ := frames_split hb hb' hpre
    simp only [Reader.feed] at hs
    split at hs
    · cases hs
      exact fun h => by cases h
    · rename_i hfour
      cases later with
      | nil => exact absurd hpart.length_le (by simp)
      | cons body later =>
        have hmem : body ∈ bodies' ++ body :: later := by simp
        -- the four bytes are the length of the next body
        have hlen : got ++ [b] = toBeBytes body.length := by
          refine (List.prefix_of_prefix_length_le hpart ?_ ?_).eq_of_length ?_
          · rw [List.flatMap_cons, wireFrame, List.append_assoc]
            exact List.prefix_append _ _
          · simp [toBeBytes]; omega
          · simp [toBeBytes]; omega
        have hmax : maxFrameLen < 2 ^ 32 := by decide
        have hbody := hb body hmem
        rw [hlen, fromBeBytes_toBeBytes (by omega), if_neg (by omega)] at hs
        split at hs
        · rename_i hzero
          cases hs
          obtain rfl : body = [] := List.length_eq_zero_iff.1 hzero
          exact received_ne_error (hd [] hmem) err
        · cases hs
          exact fun h => by cases h
  | body msgs consumed len got hf ha hlt hmax =>
    subst ha
    obtain ⟨bodies', rfl, hb', -⟩ := framed_bodies hf
    rw [List.append_assoc] at hpre
    obtain ⟨later, rfl, hpart⟩ := frames_split hb hb' hpre
    simp only [Reader.feed] at hs
    split at hs
    · cases hs
      exact fun h => by cases h
    · rename_i hlast
      cases hs
      have hlen : (got ++ [b]).length = len := by simp; omega
      have hframe : toBeBytes len ++ got ++ [b] = wireFrame (got ++ [b]) := by
        rw [wireFrame, hlen, List.append_assoc]
      rw [hframe] at hpart
      -- it is the next body
      have hone : [got ++ [b]].flatMap wireFrame ++ [] <+: later.flatMap wireFrame := by simpa using hpart
      obtain ⟨later', heq, -⟩ := frames_split (fun body hm => hb body (List.mem_append_right _ hm))
        (by simpa [hlen] using hmax) hone
      have hmem : got ++ [b] ∈ bodies' ++ later := by simp [heq]
      exact received_ne_error (hd _ hmem) err
  | frame | failed | done => cases hs

private theorem read_clean (hb : ∀ body ∈ bodies, body.length ≤ maxFrameLen)
    (hd : ∀ body ∈ bodies, ∃ msg, codec.decode body = .ok msg) (h : ReaderAt codec arrived out r)
    (hr : ∀ err, r ≠ .sending (.error err)) {bytes : Bytes} (hpre : arrived ++ bytes <+: bodies.flatMap wireFrame)
    (hs : r.read codec bytes = some r') (err : String) : r' ≠ .sending (.error err) := by
  induction bytes generalizing arrived r with
  | nil =>
    cases hs
    exact hr err
  | cons b bs ih =>
    obtain ⟨r₁, hfeed, hread⟩ := Option.bind_eq_some_iff.1 hs
    have hpre' : arrived ++ [b] ++ bs <+: bodies.flatMap wireFrame := by rwa [List.append_assoc]
    have hfirst := feed_clean hb hd h ((List.prefix_append _ _).trans hpre') hfeed
    exact ih (h.feed hfeed) hfirst hpre' hread

/-- No read has failed and no frame was found malformed. -/
private structure Clean (s : Relay) : Prop where
  reader : ∀ err, s.ep.reader ≠ .sending (.error err)
  frames : ∀ err, .error err ∉ s.ep.frames
  loop : ∀ err, s.ep.loop ≠ .ended (.protocolError err)

private theorem Clean.finish {ep : Endpoint} (hframes : ∀ err, .error err ∉ ep.frames) {reason : DisconnectReason}
    (hreason : ∀ err, reason ≠ .protocolError err) (s : Relay) : Clean { s with ep := ep.finish reason } where
  reader _ := (fun h => by cases h)
  frames := hframes
  loop err h := hreason err (LoopState.ended.inj h)

private theorem clean_own (h : Clean s) {e : LocalEvent} {ep : Endpoint} (hs : s.ep.Stepped codec e ep) :
    Clean (s.record e ep) := by
  have hwrite : ∀ (ep₀ : Endpoint) (msg : Message), ep₀.reader = s.ep.reader →
      (∀ err, .error err ∉ ep₀.frames) → Clean (s.record e (ep₀.startWrite codec msg)) := by
    intro ep₀ msg hr hf
    unfold Endpoint.startWrite
    split
    · exact ⟨fun err => hr ▸ h.reader err, hf, (fun _ h => by cases h)⟩
    · exact ⟨(fun _ h => by cases h), hf, (fun _ h => by cases h)⟩
  cases hs with
  | push | dropSenders => exact ⟨h.reader, h.frames, h.loop⟩
  | tick hl => exact hwrite { s.ep with seq := s.ep.seq + 1 } _ rfl h.frames
  | idleTimeout => exact ⟨(fun _ h => by cases h), h.frames, (fun _ h => by cases h)⟩
  | takeOutbound hl msg rest ho => exact hwrite { s.ep with outbound := rest } msg rfl h.frames
  | noSenders | noFrames => exact ⟨(fun _ h => by cases h), h.frames, (fun _ h => by cases h)⟩
  | takeError hl err rest hf => exact absurd (by simp [hf]) (h.frames err)
  | takeFrame hl msg rest hf =>
    have hrest : ∀ err, .error err ∉ rest := by
      intro err hm
      exact h.frames err (by rw [hf]; exact List.mem_cons_of_mem _ hm)
    cases msg with
    | ping seq => exact hwrite { s.ep with frames := rest } (.pong seq) rfl hrest
    | _ => exact ⟨h.reader, hrest, h.loop⟩
  | forward frame hr =>
    refine ⟨?_, fun err hm => ?_, h.loop⟩
    · cases frame with
      | ok msg => exact (fun _ h => by cases h)
      | error err => exact (fun _ h => by cases h)
    · rcases List.mem_append.1 hm with hm | hm
      · exact h.frames err hm
      · rw [← List.mem_singleton.1 hm] at hr
        exact h.reader err hr

/-- A step that is no failed read keeps the connection clean while the stream is one of known frames. -/
private theorem clean_step (hb : ∀ body ∈ bodies, body.length ≤ maxFrameLen)
    (hd : ∀ body ∈ bodies, ∃ msg, codec.decode body = .ok msg) (hrel : Relayed codec peerId s) {ev : RelayEvent}
    (hev : ∀ stop, ev ≠ .readFails stop) (hs : relayStep codec peerId s ev = some s')
    (hpre : s'.arrived <+: bodies.flatMap wireFrame) (h : Clean s) : Clean s' := by
  cases ev with
  | own e =>
    simp only [relayStep] at hs
    split at hs
    · cases hs
    · obtain ⟨ep, hstep, rfl⟩ := Option.map_eq_some_iff.1 hs
      exact clean_own h (Endpoint.stepped hstep).2
  | read bytes =>
    obtain ⟨r, hr, rfl⟩ := Option.map_eq_some_iff.1 hs
    exact ⟨read_clean hb hd hrel.reader h.reader hpre hr, h.frames, h.loop⟩
  | readFails stop => exact absurd rfl (hev stop)
  | wrote n =>
    simp only [relayStep] at hs
    split at hs
    · cases hs
      refine ⟨h.reader, h.frames, fun err => ?_⟩
      unfold LoopState.wrote
      split <;> exact fun h => by cases h
    · cases hs
  | writeFails =>
    simp only [relayStep] at hs
    split at hs
    · cases hs
      exact ⟨(fun _ h => by cases h), h.frames, (fun _ h => by cases h)⟩
    · cases hs
  | handOver =>
    simp only [relayStep] at hs
    split at hs
    · split at hs
      · cases hs
      · cases hs
        exact ⟨h.reader, h.frames, h.loop⟩
    · cases hs
  | hubClosed =>
    simp only [relayStep] at hs
    split at hs
    · cases hs
      exact ⟨(fun _ h => by cases h), h.frames, (fun _ h => by cases h)⟩
    · cases hs

/-- Bytes that have arrived stay. -/
private theorem arrived_step {ev : RelayEvent} (hs : relayStep codec peerId s ev = some s') :
    s.arrived <+: s'.arrived := by
  cases ev with
  | read bytes =>
    obtain ⟨r, -, rfl⟩ := Option.map_eq_some_iff.1 hs
    exact List.prefix_append _ _
  | own e =>
    simp only [relayStep] at hs
    split at hs
    · cases hs
    · obtain ⟨ep, -, rfl⟩ := Option.map_eq_some_iff.1 hs
      exact List.prefix_refl _
  | readFails | wrote | writeFails | hubClosed =>
    simp only [relayStep] at hs
    split at hs
    · cases hs
      exact List.prefix_refl _
    · cases hs
  | handOver =>
    simp only [relayStep] at hs
    split at hs
    · split at hs
      · cases hs
      · cases hs
        exact List.prefix_refl _
    · cases hs

private theorem clean_run (hb : ∀ body ∈ bodies, body.length ≤ maxFrameLen)
    (hd : ∀ body ∈ bodies, ∃ msg, codec.decode body = .ok msg) {es : List RelayEvent}
    (hr : Run (relayStep codec peerId) Always .start es s) (hno : ∀ stop, RelayEvent.readFails stop ∉ es)
    (hpre : s.arrived <+: bodies.flatMap wireFrame) : Clean s := by
  induction hr with
  | nil => exact ⟨(fun _ h => by cases h), by simp [Relay.start, Endpoint.start], (fun _ h => by cases h)⟩
  | @snoc t u es e hr _ hs ih =>
    have hpre' : t.arrived <+: bodies.flatMap wireFrame := (arrived_step hs).trans hpre
    have hclean := ih (fun stop hm => hno stop (List.mem_append_left _ hm)) hpre'
    exact clean_step hb hd (relayed_run hr) (fun stop he => hno stop (by simp [he])) hs hpre hclean

/-- Once a whole stream of frames has been dealt with, its application frames are with the hub. -/
private theorem hub_of_settled (hb : ∀ body ∈ bodies, body.length ≤ maxFrameLen) (hrel : Relayed codec peerId s)
    (hall : s.arrived = bodies.flatMap wireFrame) (h : s.Settled) :
    s.hub = ((decodable codec bodies).filter Message.isApplication).map (peerId, ·) := by
  have htaken : s.taken = decodable codec bodies := by
    have hat := hrel.reader
    rw [hall, h.frames, List.append_nil] at hat
    have hreading := h.reader
    generalize hout : (s.taken.map .ok : List ReadResult) = out at hat
    generalize s.ep.reader = r at hat hreading
    cases hat with
    | header msgs consumed got hf ha hlt =>
      obtain ⟨bodies', rfl, hb', hdec⟩ := framed_bodies hf
      obtain ⟨later, rfl, -⟩ := frames_split hb hb' ⟨[], by rw [List.append_nil, ha]⟩
      -- less than four bytes hold no frame
      have hgot : got = later.flatMap wireFrame := by
        rw [List.flatMap_append] at ha
        exact (List.append_cancel_left ha).symm
      have hnil : later = [] := by
        cases later with
        | nil => rfl
        | cons body later =>
          rw [hgot, List.flatMap_cons, List.length_append, length_wireFrame] at hlt
          omega
      rw [hnil, List.append_nil, hdec]
      exact List.map_injective_iff.2 (fun _ _ => Except.ok.inj) hout
    | body msgs consumed len got hf ha hlt hmax =>
      obtain ⟨bodies', rfl, hb', hdec⟩ := framed_bodies hf
      obtain ⟨later, rfl, -⟩ := frames_split hb hb' ⟨[], by rw [List.append_nil, ha]⟩
      have hgot : toBeBytes len ++ got = later.flatMap wireFrame := by
        rw [List.flatMap_append] at ha
        exact (List.append_cancel_left ha).symm
      cases later with
      | nil => exact absurd (congrArg List.length hgot) (by simp [toBeBytes])
      | cons body later =>
        rw [List.flatMap_cons] at hgot
        have hlen : len = body.length := by
          have hpre : toBeBytes len <+: wireFrame body ++ later.flatMap wireFrame := ⟨got, hgot⟩
          exact length_of_prefix (hb body (by simp)) hmax hpre
        have hcount := congrArg List.length hgot
        simp only [List.length_append, length_wireFrame] at hcount
        have hfour : (toBeBytes len).length = 4 := rfl
        omega
    | frame | failed | done =>
      cases hreading
  have hhub : s.hub.map Prod.snd = (decodable codec bodies).filter Message.isApplication := by
    have hh := hrel.handed
    rwa [h.handing, Option.toList_none, List.append_nil, htaken] at hh
  have htags : s.hub.map (fun x => (peerId, x.2)) = s.hub.map id := by
    refine List.map_congr_left fun x hx => ?_
    rw [← hrel.tagged x hx]
    rfl
  rw [← hhub, List.map_map]
  exact (htags.trans (List.map_id _)).symm

end Known

/-! ### A body that does not decode -/

private theorem read_append {codec : Codec} (r : Reader) (bytes rest : Bytes) :
    r.read codec (bytes ++ rest) = (r.read codec bytes).bind fun r => r.read codec rest := by
  induction bytes generalizing r with
  | nil => rfl
  | cons b bs ih =>
    rw [List.cons_append, Reader.read, Reader.read]
    cases r.feed codec b with
    | none => rfl
    | some r₁ => exact ih r₁

private theorem read_body {codec : Codec} {len : Nat} {got bytes : Bytes} (hlen : got.length + bytes.length = len)
    (hne : bytes ≠ []) :
    (Reader.body len got).read codec bytes = some (.sending (Reader.received codec (got ++ bytes))) := by
  induction bytes generalizing got with
  | nil => exact absurd rfl hne
  | cons b bs ih =>
    rw [List.length_cons] at hlen
    cases bs with
    | nil =>
      have hlast : ¬ got.length + 1 < len := by rw [List.length_nil] at hlen; omega
      rw [Reader.read, Reader.feed, if_neg hlast]
      rfl
    | cons c cs =>
      have hmore : got.length + 1 < len := by rw [List.length_cons] at hlen; omega
      rw [Reader.read, Reader.feed, if_pos hmore, Option.bind_some]
      have hlen' : (got ++ [b]).length + (c :: cs).length = len := by
        rw [List.length_append, List.length_singleton]
        omega
      rw [ih hlen' (by simp), List.append_assoc]
      rfl

/-- The reader task on the bytes of one frame. -/
theorem Reader.read_wireFrame {codec : Codec} {body : Bytes} (hb : body.length ≤ maxFrameLen) :
    (Reader.header []).read codec (wireFrame body) = some (.sending (Reader.received codec body)) := by
  have hmax : maxFrameLen < 2 ^ 32 := by decide
  have hbe : fromBeBytes (toBeBytes body.length) = body.length := fromBeBytes_toBeBytes (by omega)
  have hheader : (Reader.header []).read codec (toBeBytes body.length) =
      if body.length = 0 then some (.sending (Reader.received codec [])) else some (.body body.length []) := by
    have hfour : (Reader.header []).read codec (toBeBytes body.length) =
        ((Reader.header ((toBeBytes body.length).take 3)).feed codec (UInt8.ofNat body.length)).bind
          fun r => some r := rfl
    have hsplit : (toBeBytes body.length).take 3 ++ [UInt8.ofNat body.length] = toBeBytes body.length := rfl
    rw [hfour, Option.bind_fun_some, Reader.feed, if_neg (by simp [toBeBytes])]
    dsimp only
    rw [hsplit, hbe, if_neg (by omega)]
  rw [wireFrame, read_append, hheader]
  split
  · rename_i hzero
    rw [List.length_eq_zero_iff.1 hzero]
    rfl
  · rename_i hpos
    rw [Option.bind_some, read_body (by simp) (fun he => hpos (by rw [he]; rfl))]
    rfl

section Unknown

variable {codec : Codec} {peerId : DeviceId} {s : Relay} {body : Bytes}

/-- The connection waits for the next frame. -/
private inductive Relay.AtRest : Relay → Prop
  | mk (seq : Nat) (inbound : List Message) (hub : List (DeviceId × Message)) (arrived sent : Bytes)
      (pushed taken : List Message) (writes : List (Origin × Message)) :
      AtRest ⟨⟨[], true, [], .header [], .polling, seq, inbound⟩, none, hub, arrived, sent, pushed, taken, writes⟩

/-- The events that bring a frame to the frames channel. -/
private def arrival (body : Bytes) : List RelayEvent := [.read (wireFrame body), .own .forward]

section

variable (codec peerId) (seq : Nat) (inbound : List Message) (hub : List (DeviceId × Message))
  (arrived sent : Bytes) (pushed taken : List Message) (writes : List (Origin × Message))

private theorem exec_arrival (hb : body.length ≤ maxFrameLen) :
    exec (relayStep codec peerId)
      ⟨⟨[], true, [], .header [], .polling, seq, inbound⟩, none, hub, arrived, sent, pushed, taken, writes⟩
      (arrival body) =
    some ⟨⟨[], true, [Reader.received codec body], Reader.sent (Reader.received codec body), .polling, seq, inbound⟩,
      none, hub, arrived ++ wireFrame body, sent, pushed, taken, writes⟩ := by
  have hread : relayStep codec peerId
      ⟨⟨[], true, [], .header [], .polling, seq, inbound⟩, none, hub, arrived, sent, pushed, taken, writes⟩
      (.read (wireFrame body)) =
      some ⟨⟨[], true, [], .sending (Reader.received codec body), .polling, seq, inbound⟩, none, hub,
        arrived ++ wireFrame body, sent, pushed, taken, writes⟩ := by
    rw [relayStep, Reader.read_wireFrame hb]
    rfl
  have hforward : relayStep codec peerId
      ⟨⟨[], true, [], .sending (Reader.received codec body), .polling, seq, inbound⟩, none, hub,
        arrived ++ wireFrame body, sent, pushed, taken, writes⟩ (.own .forward) =
      some ⟨⟨[], true, [Reader.received codec body], Reader.sent (Reader.received codec body), .polling, seq, inbound⟩,
        none, hub, arrived ++ wireFrame body, sent, pushed, taken, writes⟩ := by
    simp only [relayStep, Endpoint.step, Endpoint.forward, framesCap, LocalEvent.isBranch]
    simp [Relay.record, Endpoint.nextFrame, Endpoint.nextMessage, LocalEvent.queued]
  rw [arrival, exec, hread, Option.bind_some, exec, hforward]
  rfl

/-- The loop takes a frame that decodes. -/
private theorem take_known (msg : Message) :
    relayStep codec peerId
      ⟨⟨[], true, [.ok msg], .header [], .polling, seq, inbound⟩, none, hub, arrived, sent, pushed, taken, writes⟩
      (.own .takeFrame) =
    some ⟨Endpoint.onFrame codec ⟨[], true, [], .header [], .polling, seq, inbound⟩ msg,
      (some msg).filter Message.isApplication, hub, arrived, sent, pushed, taken ++ [msg],
      writes ++ msg.reply.toList.map (.reply, ·)⟩ := by
  have hreply : (⟨[], true, [.ok msg], .header [], .polling, seq, inbound⟩ : Endpoint).nextMessage .takeFrame =
      msg.reply := by
    cases msg <;> rfl
  have hhanding :
      (Endpoint.onFrame codec ⟨[], true, [], .header [], .polling, seq, inbound⟩ msg).inbound[inbound.length]? =
        (some msg).filter Message.isApplication := by
    cases msg <;> simp [Endpoint.onFrame, Option.filter, Message.isApplication]
  simp only [relayStep, Endpoint.step, Endpoint.takeFrame]
  simp [Relay.record, Endpoint.nextFrame, hreply, hhanding, LocalEvent.queued, LocalEvent.origin]

/-- The loop takes an error that is no disconnect. -/
private theorem take_error {err : String} (hne : err ≠ "") :
    relayStep codec peerId
      ⟨⟨[], true, [.error err], .done, .polling, seq, inbound⟩, none, hub, arrived, sent, pushed, taken, writes⟩
      (.own .takeFrame) =
    some ⟨⟨[], true, [.error err], .done, .ended (.protocolError err), seq, inbound⟩, none, hub, arrived, sent, pushed,
      taken, writes⟩ := by
  simp only [relayStep, Endpoint.step, Endpoint.takeFrame]
  simp [Relay.record, Endpoint.nextFrame, Endpoint.nextMessage, Endpoint.finish, LocalEvent.queued, hne]

end

private theorem wrote_all (codec : Codec) (peerId : DeviceId) {rest : Bytes} (hl : s.ep.loop = .writing rest)
    (hpos : 0 < rest.length) :
    relayStep codec peerId s (.wrote rest.length) =
      some { s with ep := { s.ep with loop := .polling }, sent := s.sent ++ rest } := by
  have hwrote : (LoopState.writing rest).wrote rest.length = .polling := if_pos (List.drop_length ..)
  simp only [relayStep, hl, hwrote]
  simp [LoopState.isWriting, LoopState.rest, hpos]

/-- A frame that does not decode ends the connection. -/
private theorem malformed_ends (peerId : DeviceId) (h : s.AtRest) (hb : body.length ≤ maxFrameLen) {err : String}
    (hd : codec.decode body = .error err) :
    ∃ s', exec (relayStep codec peerId) s (arrival body ++ [.own .takeFrame]) = some s' ∧
      s'.arrived = s.arrived ++ wireFrame body ∧
      s'.ep.loop = .ended (.protocolError (FrameError.decode err).text) := by
  have htext : (FrameError.decode err).text ≠ "" := by
    intro h
    have hsplit : "malformed frame: " ++ err = "" := h
    have hlen := congrArg String.length hsplit
    have hmalformed : "malformed frame: ".length = 17 := by decide
    rw [String.length_append, hmalformed, String.length_empty] at hlen
    omega
  cases h with
  | mk n inbound hub arrived sent pushed taken writes =>
    have harrival := exec_arrival codec peerId n inbound hub arrived sent pushed taken writes hb
    have hreceived : Reader.received codec body = .error (FrameError.decode err).text := by
      rw [Reader.received, hd]
      rfl
    rw [hreceived] at harrival
    exact ⟨_, exec_snoc harrival
      (take_error codec peerId n inbound hub (arrived ++ wireFrame body) sent pushed taken writes htext), rfl, rfl⟩

/-- A frame that decodes is dealt with. -/
private theorem known_taken (peerId : DeviceId)
    (hpong : ∀ seq, (writeMessage codec (.pong seq)).isSome = true) (h : s.AtRest)
    (hb : body.length ≤ maxFrameLen) {msg : Message} (hd : codec.decode body = .ok msg) :
    ∃ es s', exec (relayStep codec peerId) s es = some s' ∧ (∀ stop, RelayEvent.readFails stop ∉ es) ∧ s'.AtRest ∧
      s'.arrived = s.arrived ++ wireFrame body := by
  cases h with
  | mk n inbound hub arrived sent pushed taken writes =>
    have harrival := exec_arrival codec peerId n inbound hub arrived sent pushed taken writes hb
    have hreceived : Reader.received codec body = .ok msg := by rw [Reader.received, hd]
    rw [hreceived] at harrival
    have htaken := exec_snoc harrival
      (take_known codec peerId n inbound hub (arrived ++ wireFrame body) sent pushed taken writes msg)
    cases msg with
    | ping seq =>
      obtain ⟨bytes, hw⟩ := Option.isSome_iff_exists.1 (hpong seq)
      have hpos : 0 < bytes.length := List.length_pos_of_ne_nil (writeMessage_ne_nil hw)
      have hwriting : Endpoint.onFrame codec ⟨[], true, [], .header [], .polling, n, inbound⟩ (.ping seq) =
          ⟨[], true, [], .header [], .writing bytes, n, inbound⟩ := by
        rw [Endpoint.onFrame, Endpoint.startWrite, hw]
      rw [hwriting] at htaken
      -- the `Pong` goes out in one piece
      exact ⟨_, _, exec_snoc htaken (wrote_all codec peerId rfl hpos), by simp [arrival], .mk .., rfl⟩
    | pong | hello => exact ⟨_, _, htaken, by simp [arrival], .mk .., rfl⟩
    | _ => exact ⟨_, _, exec_snoc htaken (e := .handOver) rfl, by simp [arrival], .mk .., rfl⟩

/-- A stream with a frame that does not decode ends the connection. -/
private theorem not_tolerates (peerId : DeviceId)
    (hpong : ∀ seq, (writeMessage codec (.pong seq)).isSome = true) {bodies : List Bytes}
    (hb : ∀ body ∈ bodies, body.length ≤ maxFrameLen)
    (hbad : ∃ body ∈ bodies, ∃ err, codec.decode body = .error err) (h : s.AtRest) :
    ∃ es s' err, exec (relayStep codec peerId) s es = some s' ∧ (∀ stop, RelayEvent.readFails stop ∉ es) ∧
      s'.arrived <+: s.arrived ++ bodies.flatMap wireFrame ∧ s'.ep.loop = .ended (.protocolError err) := by
  induction bodies generalizing s with
  | nil =>
    obtain ⟨body, hm, -⟩ := hbad
    cases hm
  | cons body bodies ih =>
    have hbody := hb body (List.mem_cons_self ..)
    cases hd : codec.decode body with
    | error err =>
      obtain ⟨s', hexec, harr, hloop⟩ := malformed_ends peerId h hbody hd
      refine ⟨_, s', _, hexec, by simp [arrival], ?_, hloop⟩
      rw [harr, List.flatMap_cons, ← List.append_assoc]
      exact List.prefix_append _ _
    | ok msg =>
      obtain ⟨es, t, hexec, hno, hrest, harr⟩ := known_taken peerId hpong h hbody hd
      have hlater : ∃ body ∈ bodies, ∃ err, codec.decode body = .error err := by
        obtain ⟨body', hm, err, herr⟩ := hbad
        rcases List.mem_cons.1 hm with rfl | hm
        · rw [hd] at herr
          cases herr
        · exact ⟨body', hm, err, herr⟩
      obtain ⟨es', s', err, hexec', hno', hpre, hloop⟩ :=
        ih (fun b hm => hb b (List.mem_cons_of_mem _ hm)) hlater hrest
      refine ⟨es ++ es', s', err, exec_append hexec hexec', ?_, ?_, hloop⟩
      · intro stop hm
        rcases List.mem_append.1 hm with hm | hm
        · exact hno stop hm
        · exact hno' stop hm
      · rw [harr, List.append_assoc] at hpre
        exact hpre

end Unknown

/-- The connection comes through a stream of frames, and loses none of them, exactly when every body decodes. -/
theorem unknown_tolerated (codec : Codec) (hpong : ∀ seq, (writeMessage codec (.pong seq)).isSome = true)
    (peerId : DeviceId) (bodies : List Bytes) (hb : ∀ body ∈ bodies, body.length ≤ maxFrameLen) :
    Tolerates codec peerId bodies ↔ ∀ body ∈ bodies, ∃ msg, codec.decode body = .ok msg := by
  constructor
  · intro h body hm
    cases hd : codec.decode body with
    | ok msg => exact ⟨msg, rfl⟩
    | error err =>
      obtain ⟨es, s, err, hexec, hno, hpre, hloop⟩ := not_tolerates peerId hpong hb ⟨body, hm, err, hd⟩
        (s := Relay.start) (.mk ..)
      have hrun : Run (relayStep codec peerId) Always .start es s := run_of_exec (fun _ _ => trivial) hexec
      obtain ⟨stop, hstop⟩ := (h es s hrun hpre).1 ⟨err, hloop⟩
      exact absurd hstop (hno stop)
  · intro hd es s hr hpre
    refine ⟨?_, hub_of_settled hb (relayed_run hr)⟩
    rintro ⟨err, hloop⟩
    by_contra hno
    exact (clean_run hb hd hr (fun stop hm => hno ⟨stop, hm⟩) hpre).loop err hloop

/-- A peer that knows the empty `OpenUrl` only. -/
private def oldPeer : Codec where
  encode msg := some msg.pack
  decode body := if body = urlBody then .ok (.openUrl "") else .error "unknown variant"

private theorem packs_oldPeer : oldPeer.Packs := fun _ => rfl

/-- A frame of a newer peer: a map with an unknown name under `t`. -/
private def zapBody : Bytes := [0x81, 0xa1, 0x74, 0xa3, 0x7a, 0x61, 0x70]

theorem unknown_tolerated_url :
    Tolerates oldPeer "p" [urlBody, urlBody] ↔
      ∀ body ∈ [urlBody, urlBody], ∃ msg, oldPeer.decode body = .ok msg :=
  unknown_tolerated oldPeer packs_oldPeer.pong "p" [urlBody, urlBody] (by decide)

/-- One unknown frame ends the connection, and the frame behind it is lost. -/
theorem unknown_ends_connection :
    ¬ ∀ (codec : Codec) (peerId : DeviceId) (bodies : List Bytes), codec.Packs →
      (∀ body ∈ bodies, body.length ≤ maxFrameLen) → Tolerates codec peerId bodies := by
  intro h
  obtain ⟨s, hrun, hview⟩ := run_of_exec_view (relayStep oldPeer "p") (fun _ => True) Relay.start
    [.read (wireFrame zapBody), .own .forward, .own .takeFrame] (fun s => (s.arrived, s.ep.loop))
    (wireFrame zapBody, .ended (.protocolError "malformed frame: unknown variant")) (fun _ _ => trivial)
    (by decide +kernel)
  simp only [Prod.mk.injEq] at hview
  obtain ⟨harr, hloop⟩ := hview
  have hpre : s.arrived <+: [zapBody, urlBody].flatMap wireFrame := by
    rw [harr, List.flatMap_cons]
    exact List.prefix_append _ _
  obtain ⟨stop, hstop⟩ := (h oldPeer "p" [zapBody, urlBody] packs_oldPeer (by decide) _ s hrun hpre).1 ⟨_, hloop⟩
  simp at hstop

end Qdrop
