import Qdrop.Connection.Duplex
import Qdrop.Connection.Relay
import Qdrop.Connection.Unpack

/-!
# A connection from end to end

Two run loops, each with its relay to the hub, joined by a stream in each direction: what a reader task takes off its
stream is what the loop at the far end has put on it, in the same order, and no more.  `link_fifo` says that the
messages handed to the hub at one end are the first application messages queued at the other end, in their order, and
all of them once nothing is under way.
-/

namespace Qdrop

open Lib

structure Relays where
  a : Relay
  b : Relay

namespace Relays

def start : Relays := ⟨.start, .start⟩

/-- The relay at one end. -/
def at_ (s : Relays) : Side → Relay
  | .a => s.a
  | .b => s.b

def set (s : Relays) (x : Side) (r : Relay) : Relays :=
  match x with
  | .a => { s with a := r }
  | .b => { s with b := r }

variable (s : Relays) (x : Side) (r : Relay)

@[simp] theorem at_set : (s.set x r).at_ x = r := by cases x <;> rfl

@[simp] theorem at_set_other : (s.set x r).at_ x.other = s.at_ x.other := by cases x <;> rfl

end Relays

/-- The bytes are next on the stream to `x`. -/
def Relays.onStream (s : Relays) (x : Side) : RelayEvent → Bool
  | .read bytes => ((s.at_ x).arrived ++ bytes).isPrefixOf (s.at_ x.other).sent
  | _ => true

/-- A step of one end; `peerId x` is the id of the peer as `x` knows it. -/
def linkStep (codec : Codec) (peerId : Side → DeviceId) (s : Relays) (e : Side × RelayEvent) : Option Relays :=
  if s.onStream e.1 e.2 then (relayStep codec (peerId e.1) (s.at_ e.1) e.2).map (s.set e.1) else none

/-! ### Reading what was written -/

variable {codec : Codec}

/-- A message that is read comes from a whole frame. -/
theorem readMessage_ok {stop : StreamEnd} {bytes rest : Bytes} {msg : Message}
    (h : readMessage codec stop bytes = .ok (msg, rest)) :
    ∃ body, bytes = wireFrame body ++ rest ∧ body.length ≤ maxFrameLen ∧ codec.decode body = .ok msg := by
  unfold readMessage at h
  split at h
  · cases h
  · rename_i lenBuf rest₁ h₁
    split at h
    · cases h
    · rename_i hmax
      split at h
      · cases h
      · rename_i body rest₂ h₂
        split at h
        · cases h
        · rename_i msg' hdecode
          cases h
          unfold readExact at h₁ h₂
          split at h₁
          · split at h₂
            · rename_i hfour hlen
              cases h₁
              cases h₂
              have hhead : toBeBytes (fromBeBytes (bytes.take 4)) = bytes.take 4 := by
                have h4 : (bytes.take 4).length = 4 := by rw [List.length_take]; omega
                obtain ⟨x, y, z, w, hw⟩ : ∃ x y z w, bytes.take 4 = [x, y, z, w] := by
                  match bytes.take 4, h4 with
                  | [x, y, z, w], _ => exact ⟨x, y, z, w, rfl⟩
                rw [hw, toBeBytes_fromBeBytes]
              refine ⟨_, ?_, ?_, hdecode⟩
              · rw [wireFrame, List.length_take, Nat.min_eq_left hlen, hhead, List.append_assoc, List.take_append_drop,
                  List.take_append_drop]
              · rw [List.length_take, Nat.min_eq_left hlen]
                exact Nat.le_of_not_lt hmax
            · cases h₂
          · cases h₁

private theorem wireFrames_nil : wireFrames codec [] = [] := by
  rw [wireFrames, readAll_of_error readMessage_nil]
  rfl

/-- The bytes of messages that are all written begin with the first message. -/
private theorem wireBytes_cons {msg : Message} (msgs : List Message) (h : (writeMessage codec msg).isSome = true) :
    ∃ body, codec.encode msg = some body ∧ body.length < 2 ^ 32 ∧
      wireBytes codec (msg :: msgs) = wireFrame body ++ wireBytes codec msgs := by
  obtain ⟨bytes, hw⟩ := Option.isSome_iff_exists.1 h
  obtain ⟨body, he, rfl⟩ := writeMessage_eq_wireFrame hw
  refine ⟨body, he, ?_, by simp only [wireBytes, List.flatMap_cons, hw, Option.getD_some]⟩
  unfold writeMessage at hw
  rw [he] at hw
  dsimp only at hw
  split at hw
  · assumption
  · cases hw

/-- The messages found in the first bytes of a stream are the first messages written to it. -/
theorem prefix_of_wireFrames (hc : codec.RoundTrips) {msgs : List Message}
    (hw : ∀ msg ∈ msgs, (writeMessage codec msg).isSome = true) {cut : Bytes} (hcut : cut <+: wireBytes codec msgs) :
    wireFrames codec cut <+: msgs := by
  induction msgs generalizing cut with
  | nil =>
    obtain rfl : cut = [] := List.prefix_nil.1 hcut
    exact List.prefix_nil.2 wireFrames_nil
  | cons msg msgs ih =>
    cases hread : readMessage codec .eof cut with
    | error err =>
      rw [wireFrames, readAll_of_error hread]
      exact List.nil_prefix
    | ok r =>
      obtain ⟨msg', rest⟩ := r
      obtain ⟨body', rfl, hmax, hdecode⟩ := readMessage_ok hread
      obtain ⟨body, he, hlen, hbytes⟩ := wireBytes_cons msgs (hw msg (List.mem_cons_self ..))
      obtain ⟨t, ht⟩ := hcut
      have hmax' : maxFrameLen < 2 ^ 32 := by decide
      rw [hbytes, List.append_assoc] at ht
      obtain ⟨rfl, hrest⟩ := wireFrame_append_inj (by omega) hlen ht
      have hmsg : msg' = msg := by
        rw [hc msg body' he] at hdecode
        exact (Except.ok.inj hdecode).symm
      rw [wireFrames, readAll_of_ok hread, List.map_cons, hmsg]
      exact List.cons_prefix_cons.2 ⟨rfl, ih (fun m hm => hw m (List.mem_cons_of_mem _ hm)) ⟨t, hrest⟩⟩

/-- Whole frames on a stream of messages are those messages. -/
theorem framed_wireBytes (hc : codec.RoundTrips) {msgs msgs' : List Message}
    (hw : ∀ msg ∈ msgs, (writeMessage codec msg).isSome = true) (h : Framed codec (wireBytes codec msgs) msgs') :
    msgs' = msgs := by
  induction msgs generalizing msgs' with
  | nil =>
    have hread := wireFrames_framed h []
    rw [wireBytes, List.flatMap_nil, List.append_nil, wireFrames_nil, List.append_nil] at hread
    exact hread.symm
  | cons msg msgs ih =>
    obtain ⟨body, he, hlen, hbytes⟩ := wireBytes_cons msgs (hw msg (List.mem_cons_self ..))
    obtain ⟨bodies, heq, hbodies⟩ := h
    rw [hbytes] at heq
    cases hbodies with
    | nil =>
      exact absurd (congrArg List.length heq) (by simp)
    | @cons body' msg' bodies msgs' hr hrest =>
      have hmax' : maxFrameLen < 2 ^ 32 := by decide
      have hmax := hr.1
      rw [List.flatMap_cons] at heq
      obtain ⟨rfl, htail⟩ := wireFrame_append_inj hlen (by omega) heq
      have hmsg : msg' = msg := by
        have hdecode := hr.2
        rw [hc msg body he] at hdecode
        exact (Except.ok.inj hdecode).symm
      rw [hmsg, ih (fun m hm => hw m (List.mem_cons_of_mem _ hm)) ⟨bodies, htail, hrest⟩]

/-! ### What is written -/

/-- The bytes sent are those of messages that encode. -/
private theorem OnStream.encoded {s : Relay} {done last : List Message} {part : Bytes}
    (h : OnStream codec s done last part) :
    ∃ good, good <+: s.writes.map Prod.snd ∧ (∀ msg ∈ good, (writeMessage codec msg).isSome = true) ∧
      s.sent <+: wireBytes codec good := by
  have hsent : s.sent <+: wireBytes codec (done ++ last) := by
    rw [h.sent, wireBytes_append]
    exact (List.prefix_append_right_inj _).2 h.begun
  cases hall : last.all fun msg => (writeMessage codec msg).isSome with
  | true =>
    refine ⟨done ++ last, h.writes ▸ List.prefix_refl _, fun msg hm => ?_, hsent⟩
    rcases List.mem_append.1 hm with hm | hm
    · exact h.encodes msg hm
    · exact List.all_eq_true.1 hall msg hm
  | false =>
    -- nothing of a message that does not encode
    have hnil : wireBytes codec last = [] := by
      obtain ⟨msg, hm, hnone⟩ := List.all_eq_false.1 hall
      have hone := h.one
      match last, hone, hm with
      | [msg'], _, hm =>
        rw [List.mem_singleton.1 hm, Bool.not_eq_true, Option.isSome_eq_false_iff, Option.isNone_iff_eq_none] at hnone
        rw [wireBytes_singleton, hnone]
        rfl
    rw [wireBytes_append, hnil, List.append_nil] at hsent
    exact ⟨done, h.writes ▸ List.prefix_append _ _, h.encodes, hsent⟩

/-! ### Both ends -/

/-- What one end has received is what the other has sent so far, or the beginning of it. -/
structure LinkInv (codec : Codec) (peerId : Side → DeviceId) (s : Relays) : Prop where
  relayed : ∀ x, Relayed codec (peerId x) (s.at_ x)
  stream : ∀ x, (s.at_ x).arrived <+: (s.at_ x.other).sent

/-- The bytes sent only grow, and a read takes them from the stream. -/
private theorem bytes_step {peerId : DeviceId} {s s' : Relay} {ev : RelayEvent}
    (hs : relayStep codec peerId s ev = some s') :
    s.sent <+: s'.sent ∧ (s'.arrived = s.arrived ∨ ∃ bytes, ev = .read bytes ∧ s'.arrived = s.arrived ++ bytes) := by
  cases ev with
  | own e =>
    simp only [relayStep] at hs
    split at hs
    · cases hs
    · obtain ⟨ep, -, rfl⟩ := Option.map_eq_some_iff.1 hs
      exact ⟨List.prefix_refl _, Or.inl rfl⟩
  | read bytes =>
    obtain ⟨r, -, rfl⟩ := Option.map_eq_some_iff.1 hs
    exact ⟨List.prefix_refl _, Or.inr ⟨bytes, rfl, rfl⟩⟩
  | readFails stop | wrote n | writeFails | hubClosed =>
    simp only [relayStep] at hs
    split at hs
    · cases hs
      first
        | exact ⟨List.prefix_refl _, Or.inl rfl⟩
        | exact ⟨List.prefix_append _ _, Or.inl rfl⟩
    · cases hs
  | handOver =>
    simp only [relayStep] at hs
    split at hs
    · split at hs
      · cases hs
      · cases hs
        exact ⟨List.prefix_refl _, Or.inl rfl⟩
    · cases hs

theorem linkInv_step {peerId : Side → DeviceId} {s s' : Relays} {e : Side × RelayEvent} (h : LinkInv codec peerId s)
    (hs : linkStep codec peerId s e = some s') : LinkInv codec peerId s' := by
  obtain ⟨x, ev⟩ := e
  unfold linkStep at hs
  split at hs
  · rename_i hstream
    obtain ⟨r, hr, rfl⟩ := Option.map_eq_some_iff.1 hs
    obtain ⟨hsent, harrived⟩ := bytes_step hr
    refine ⟨(Side.forall_iff x).2 ⟨?_, ?_⟩, (Side.forall_iff x).2 ⟨?_, ?_⟩⟩
    · rw [Relays.at_set]
      exact relayed_step (h.relayed x) hr
    · rw [Relays.at_set_other]
      exact h.relayed x.other
    · rw [Relays.at_set, Relays.at_set_other]
      rcases harrived with heq | ⟨bytes, rfl, heq⟩
      · rw [heq]
        exact h.stream x
      · rw [heq]
        exact List.isPrefixOf_iff_prefix.1 hstream
    · have hother := h.stream x.other
      rw [Side.other_other] at hother
      rw [Side.other_other, Relays.at_set_other, Relays.at_set]
      exact hother.trans hsent
  · cases hs

theorem linkInv_run {peerId : Side → DeviceId} {es : List (Side × RelayEvent)} {s : Relays}
    (hr : Run (linkStep codec peerId) Always Relays.start es s) : LinkInv codec peerId s := by
  refine hr.invariant ⟨fun x => ?_, fun x => ?_⟩ fun _ _ _ h _ hs => linkInv_step h hs
  · cases x <;> exact relayed_start codec _
  · cases x <;> exact List.prefix_refl _

/-! ### First in, first out -/

/-- The application messages that are written are those taken off the outbound channel. -/
theorem Relayed.application {peerId : DeviceId} {s : Relay} (h : Relayed codec peerId s) :
    (s.writes.map Prod.snd).filter Message.isApplication = (s.writesOf .outbound).filter Message.isApplication := by
  rw [Relay.writesOf, List.filter_map, List.filter_map, List.filter_filter]
  congr 1
  refine List.filter_congr fun w hw => ?_
  obtain ⟨o, msg⟩ := w
  cases o with
  | outbound => simp
  | keepAlive =>
    have hmem : msg ∈ s.writesOf .keepAlive := List.mem_map.2 ⟨_, List.mem_filter.2 ⟨hw, by simp⟩, rfl⟩
    rw [h.keepAlive] at hmem
    obtain ⟨i, -, rfl⟩ := List.mem_map.1 hmem
    rfl
  | reply =>
    have hmem : msg ∈ s.writesOf .reply := List.mem_map.2 ⟨_, List.mem_filter.2 ⟨hw, by simp⟩, rfl⟩
    rw [h.reply] at hmem
    obtain ⟨m, -, hm⟩ := List.mem_filterMap.1 hmem
    cases m <;> cases hm
    rfl

/-- Nothing is under way from `x` to the other end: the loop of `x` polls an empty channel, the stream is empty, and
the other end has handed over what it has read. -/
def Relays.quietFrom (s : Relays) (x : Side) : Prop :=
  (s.at_ x).ep.loop = .polling ∧ (s.at_ x).ep.outbound = [] ∧ (s.at_ x.other).arrived = (s.at_ x).sent ∧
    (s.at_ x.other).ep.reader = .header [] ∧ (s.at_ x.other).ep.frames = [] ∧ (s.at_ x.other).handing = none

/-- In every run of the two ends: the hub of `x` is given, under the id of the peer, the first application messages
queued at the other end, in their order, each once; and all of them when nothing is under way. -/
theorem link_fifo (codec : Codec) (hc : codec.RoundTrips) (peerId : Side → DeviceId) (es : List (Side × RelayEvent))
    (s : Relays) (hr : Run (linkStep codec peerId) Always Relays.start es s) (x : Side) :
    (s.at_ x.other).hub <+: ((s.at_ x).pushed.filter Message.isApplication).map (peerId x.other, ·) ∧
    (s.quietFrom x →
      (s.at_ x.other).hub = ((s.at_ x).pushed.filter Message.isApplication).map (peerId x.other, ·)) := by
  have h := linkInv_run hr
  have hfrom := h.relayed x
  have hto := h.relayed x.other
  obtain ⟨done, last, part, hstream⟩ := hfrom.stream
  have harrived : (s.at_ x.other).arrived <+: (s.at_ x).sent := by
    have := h.stream x.other
    rwa [Side.other_other] at this
  have hhub : (s.at_ x.other).hub = ((s.at_ x.other).hub.map Prod.snd).map (peerId x.other, ·) := by
    rw [List.map_map]
    refine (List.map_id _).symm.trans (List.map_congr_left fun e he => ?_)
    have htag := hto.tagged e he
    rw [← htag]
    rfl
  constructor
  · have htaken : (s.at_ x.other).taken <+: (s.at_ x).writes.map Prod.snd := by
      obtain ⟨good, hpre, hgood, hsent⟩ := hstream.encoded
      have hread := hto.reader.prefix_wireFrames rfl
      exact (hread.trans (prefix_of_wireFrames hc hgood (harrived.trans hsent))).trans hpre
    have happ : (s.at_ x.other).hub.map Prod.snd <+: (s.at_ x).pushed.filter Message.isApplication := by
      have hhanded : (s.at_ x.other).hub.map Prod.snd <+: (s.at_ x.other).taken.filter Message.isApplication :=
        ⟨(s.at_ x.other).handing.toList, hto.handed⟩
      refine hhanded.trans ((htaken.filter _).trans ?_)
      rw [hfrom.application]
      exact List.IsPrefix.filter _ ⟨(s.at_ x).ep.outbound, hfrom.outbound⟩
    rw [hhub]
    exact happ.map _
  · rintro ⟨hloop, hout, hall, hreader, hframes, hhanding⟩
    obtain rfl := hstream.polling hloop
    obtain rfl : part = [] := List.prefix_nil.1 hstream.begun
    have heq := hstream.writes
    have hsent := hstream.sent
    rw [List.append_nil] at heq hsent
    have htaken : (s.at_ x.other).taken = done := by
      have hread := hto.reader
      rw [hframes, List.append_nil, hreader] at hread
      obtain ⟨msgs, hmsgs, hf⟩ : ∃ msgs, (s.at_ x.other).taken.map Except.ok = (msgs.map .ok : List ReadResult) ∧
          Framed codec (s.at_ x.other).arrived msgs := by
        generalize hgot : (s.at_ x.other).taken.map Except.ok = out at hread
        generalize hr : Reader.header [] = r at hread
        cases hread with
        | header msgs consumed got hf ha hlt =>
          cases hr
          rw [List.append_nil] at ha
          exact ⟨msgs, rfl, ha ▸ hf⟩
        | body | frame | failed | done => cases hr
      rw [hall, hsent] at hf
      have hinj : Function.Injective (Except.ok : Message → ReadResult) := fun _ _ h => Except.ok.inj h
      rw [hinj.list_map hmsgs]
      exact framed_wireBytes hc hstream.encodes hf
    rw [hhub]
    congr 1
    have hhanded := hto.handed
    rw [hhanding, Option.toList_none, List.append_nil, htaken] at hhanded
    rw [hhanded, ← heq, hfrom.application, ← hfrom.outbound, hout, List.append_nil]

/-- A sends two messages; the second is half read when B takes the first. -/
private def twoUrls : List (Side × RelayEvent) :=
  [(.a, .own (.push (.openUrl "x"))), (.a, .own (.push (.openUrl "y"))), (.a, .own .takeOutbound), (.a, .wrote 9),
    (.b, .read ((wireFrame (Message.openUrl "x").pack).take 9)), (.a, .wrote 13), (.a, .own .takeOutbound),
    (.a, .wrote 22), (.b, .read ((wireFrame (Message.openUrl "x").pack).drop 9)), (.b, .own .forward),
    (.b, .own .takeFrame), (.b, .read ((wireFrame (Message.openUrl "y").pack).take 5)), (.b, .handOver)]

theorem link_fifo_two_urls :
    ∃ s, Run (linkStep msgpack fun _ => "p") Always Relays.start twoUrls s ∧ s.b.hub = [("p", .openUrl "x")] ∧
      s.b.hub <+: [("p", .openUrl "x"), ("p", .openUrl "y")] := by
  obtain ⟨s, hrun, hview⟩ := run_of_exec_view (linkStep msgpack fun _ => "p") (fun _ => True) Relays.start twoUrls
    (fun s => (s.b.hub, s.a.pushed)) ([("p", .openUrl "x")], [.openUrl "x", .openUrl "y"]) (fun _ _ => trivial)
    (by decide +kernel)
  simp only [Prod.mk.injEq] at hview
  have h := (link_fifo msgpack msgpack_roundTrips (fun _ => "p") twoUrls s hrun .a).1
  refine ⟨s, hrun, hview.1, ?_⟩
  have hpushed : (s.at_ .a).pushed = [.openUrl "x", .openUrl "y"] := hview.2
  rwa [hpushed] at h

end Qdrop
