import Mathlib.Logic.Function.Basic
import Qdrop.Auth
import Qdrop.Lib.Run
import Qdrop.Lib.Table

/-!
# Authorizing each other (`AuthManager` on both ends)

`authorize` with `mutual` returns when a reply has come and its own side has recorded it.  Replies carry no id, so it
may be the reply to an earlier request (of a `refresh`, say), and the other side need not have seen the request yet.
`mutual_authorization` says that the request is then on its way or recorded, so that both sides hold the authorization
as soon as what the caller's side has sent is handled.
-/

namespace Qdrop

open Lib

/-! ### Two devices -/

structure AuthSide where
  registry : PeersFile
  auth : AuthManager
  /-- What the `authorize` calls that found a connection have returned so far, with their arguments. -/
  answered : List (DeviceId × Bool × Except String String)

/-- Two devices on one connection, and the frames each has sent and the other has not handled. -/
structure AuthPair where
  side : Bool → AuthSide
  wire : Bool → List Message

inductive AuthPairEvent where
  | refresh (d : Bool) (w : Nat) (peer : DeviceId)
  | authorize (d : Bool) (w : Nat) (peer : DeviceId) (mutualAuth connected : Bool)
  | register (d : Bool) (w : Nat) (queued : Bool)
  | expire (d : Bool) (w : Nat)
  | resume (d : Bool) (w : Nat)
  | finish (d : Bool) (w : Nat) (saveErr : Option String)
  /-- The device handles the next frame of the other one; `queued`: a reply finds room in the channel. -/
  | deliver (d : Bool) (queued : Bool) (saveErr : Option String)
  /-- A frame of some third device. -/
  | inbound (d : Bool) (peer : DeviceId) (msg : Message) (saveErr : Option String)
  /-- Some other process saves `peers.toml`. -/
  | edit (d : Bool) (registry : PeersFile)

def AuthPair.start (registry : Bool → PeersFile) : AuthPair :=
  ⟨fun d => ⟨registry d, AuthManager.new, []⟩, fun _ => []⟩

/-- The frames among the effects that go to the peer. -/
def framesTo (peer : DeviceId) (effs : List AuthEffect) : List Message :=
  effs.filterMap fun
    | .send p msg => if p = peer then some msg else none
    | .notify .. | .answer .. => none

/-- The answers among the effects, with the arguments of the calls that return them. -/
def AuthManager.answersIn (st : AuthManager) (effs : List AuthEffect) :
    List (DeviceId × Bool × Except String String) :=
  effs.filterMap fun
    | .answer w result =>
      match st.calls.lookup w with
      | some ⟨peer, .authorize mutualAuth, _⟩ => some (peer, mutualAuth, result)
      | _ => none
    | .send .. | .notify .. => none

/-- The other device has handled all but `rest` of what `d` has sent. -/
def AuthPair.handled (s : AuthPair) (d : Bool) (rest : List Message) : AuthPair :=
  { s with wire := Function.update s.wire d rest }

/-- A step of the device `d`. -/
def AuthPair.act (ids : Bool → DeviceId) (s : AuthPair) (d : Bool) (auth : AuthManager) (registry : PeersFile)
    (effs : List AuthEffect) : AuthPair where
  side := Function.update s.side d ⟨registry, auth, (s.side d).answered ++ (s.side d).auth.answersIn effs⟩
  wire := Function.update s.wire d (s.wire d ++ framesTo (ids (!d)) effs)

def authPairStep (ids : Bool → DeviceId) (infos : Bool → DeviceInfo) (s : AuthPair) : AuthPairEvent → Option AuthPair
  | .refresh d w peer =>
    if ((s.side d).auth.calls.lookup w).isSome then none
    else some (s.act ids d ((s.side d).auth.refresh (s.side d).registry w peer) (s.side d).registry [])
  | .authorize d w peer mutualAuth connected =>
    if ((s.side d).auth.calls.lookup w).isSome then none
    else some (s.act ids d (((s.side d).auth.authorize connected w peer mutualAuth).toOption.getD (s.side d).auth)
      (s.side d).registry [])
  | .register d w queued =>
    let out := (s.side d).auth.register (infos d) queued w
    some (s.act ids d out.1 (s.side d).registry out.2)
  | .expire d w => some (s.act ids d ((s.side d).auth.expire w) (s.side d).registry [])
  | .resume d w =>
    let out := (s.side d).auth.resume w
    some (s.act ids d out.1 (s.side d).registry out.2)
  | .finish d w saveErr =>
    let out := (s.side d).auth.finish (s.side d).registry saveErr w
    some (s.act ids d out.1 out.2.1 out.2.2)
  | .deliver d queued saveErr =>
    match s.wire (!d) with
    | [] => none
    | msg :: rest =>
      let out := (s.side d).auth.handleInbound (infos d) (s.side d).registry saveErr (ids (!d)) msg
      some ((s.act ids d out.1 out.2.1 (if queued then out.2.2 else [])).handled (!d) rest)
  | .inbound d peer msg saveErr =>
    if peer = ids (!d) then none
    else
      let out := (s.side d).auth.handleInbound (infos d) (s.side d).registry saveErr peer msg
      some (s.act ids d out.1 out.2.1 out.2.2)
  | .edit d registry => some (s.act ids d (s.side d).auth registry [])

/-- `find_any_mut` of the id does not hit an entry that has it as its name. -/
def NoNamesake (registry : PeersFile) (p : DeviceId) : Prop :=
  ∀ doc ∈ registry.load.toOption, doc.findAny p = doc.findById p

/-- The label in a request for mutual authorization. -/
def Message.mutualRequest : Message → Option DeviceInfo
  | .authRequest true info => some info
  | _ => none

/-- No other device has one of the two ids as its name, a request for mutual authorization can be recorded when it
arrives, and no other process takes an authorization back. -/
def AuthPairOk (ids : Bool → DeviceId) (s : AuthPair) : AuthPairEvent → Prop
  | .deliver d _ saveErr =>
    ∀ info ∈ (s.wire (!d)).head?.bind Message.mutualRequest, NoNamesake (s.side d).registry (ids (!d)) ∧
      (record (s.side d).registry saveErr (ids (!d)) info true).toOption.isSome = true
  | .finish d _ _ => NoNamesake (s.side d).registry (ids (!d))
  | .edit d registry => (s.side d).registry.authorizes (ids (!d)) = true → registry.authorizes (ids (!d)) = true
  | .refresh .. | .authorize .. | .register .. | .expire .. | .resume .. | .inbound .. => True

instance (registry : PeersFile) (p : DeviceId) : Decidable (NoNamesake registry p) :=
  inferInstanceAs (Decidable (∀ doc ∈ registry.load.toOption, doc.findAny p = doc.findById p))

instance (ids : Bool → DeviceId) (s : AuthPair) : (ev : AuthPairEvent) → Decidable (AuthPairOk ids s ev)
  | .deliver d _ saveErr => inferInstanceAs (Decidable (∀ info ∈ (s.wire (!d)).head?.bind Message.mutualRequest,
      NoNamesake (s.side d).registry (ids (!d)) ∧
        (record (s.side d).registry saveErr (ids (!d)) info true).toOption.isSome = true))
  | .finish d _ _ => inferInstanceAs (Decidable (NoNamesake (s.side d).registry (ids (!d))))
  | .edit d registry => inferInstanceAs
      (Decidable ((s.side d).registry.authorizes (ids (!d)) = true → registry.authorizes (ids (!d)) = true))
  | .refresh .. | .authorize .. | .register .. | .expire .. | .resume .. | .inbound .. =>
    inferInstanceAs (Decidable True)

/-! ### Records -/

section Records

variable {registry registry' : PeersFile} {saveErr : Option String} {p q : DeviceId} {info : DeviceInfo}

/-- What a record that succeeds has done. -/
private theorem record_ok (h : record registry saveErr p info true = .ok registry') :
    ∃ doc doc', registry.load = .ok doc ∧ doc.recordLabel p info true = some doc' ∧ registry' = .document doc' := by
  unfold record at h
  cases hload : registry.load with
  | error err =>
    rw [hload] at h
    cases h
  | ok doc =>
    rw [hload] at h
    dsimp only at h
    cases hdoc : doc.recordLabel p info true with
    | none =>
      rw [hdoc] at h
      cases h
    | some doc' =>
      rw [hdoc] at h
      cases saveErr with
      | some err => cases h
      | none =>
        cases h
        exact ⟨doc, doc', rfl, hdoc, rfl⟩

/-- A record takes no authorization back. -/
private theorem authorizes_record (h : record registry saveErr p info true = .ok registry')
    (hq : registry.authorizes q = true) : registry'.authorizes q = true := by
  obtain ⟨doc, doc', hload, hdoc, rfl⟩ := record_ok h
  have hq : doc.isAuthorized q = true := by simpa [PeersFile.authorizes, hload] using hq
  rw [PeersFile.authorizes_document]
  unfold Peers.isAuthorized at hq ⊢
  rw [Peers.findById_modifyAny hdoc (fun _ => rfl) q]
  split
  · cases hfind : doc.findById q with
    | none =>
      rw [hfind] at hq
      cases hq
    | some e => rfl
  · exact hq

/-- The device whose id was recorded is authorized. -/
private theorem authorizes_recorded (h : record registry saveErr p info true = .ok registry')
    (hp : NoNamesake registry p) : registry'.authorizes p = true := by
  obtain ⟨doc, doc', hload, hdoc, rfl⟩ := record_ok h
  have hname : doc.findAny p = doc.findById p := hp doc (by rw [hload]; rfl)
  rw [PeersFile.authorizes_document]
  unfold Peers.isAuthorized
  rw [Peers.findById_modifyAny hdoc (fun _ => rfl) p, if_pos hname.symm, ← hname]
  obtain ⟨as, e, bs, hpeers, -, hmatch, hnone⟩ := Peers.modifyAny_eq_some hdoc
  have hany : doc.findAny p = some e := by
    have hfirst : as.find? (Peers.matchesAny p) = none := by simpa using hnone
    simp [Peers.findAny, hpeers, hfirst, hmatch]
  rw [hany]
  rfl

end Records

/-! ### Calls that have asked -/

/-- The request of the call has been queued, and nothing has failed since. -/
def CallPhase.inPlay : CallPhase → Bool
  | .waiting | .replied _ | .recording _ => true
  | .checked | .failed _ => false

/-- An `authorize` call with `mutual` that has asked the peer. -/
def MutualAsk (calls : AList (fun _ : Nat => Call)) (p : DeviceId) : Prop :=
  ∃ w phase, calls.lookup w = some ⟨p, .authorize true, phase⟩ ∧ phase.inPlay = true

section Asked

variable {calls : AList (fun _ : Nat => Call)} {st : AuthManager} {p peer : DeviceId} {w : Nat} {phase : CallPhase}

private theorem asking_insert {c : Call} (h : MutualAsk (calls.insert w c) p) :
    (∃ phase, c = ⟨p, .authorize true, phase⟩ ∧ phase.inPlay = true) ∨ MutualAsk calls p := by
  obtain ⟨v, phase, hv, hplay⟩ := h
  by_cases hvw : v = w
  · subst hvw
    rw [AList.lookup_insert] at hv
    exact Or.inl ⟨phase, Option.some.inj hv, hplay⟩
  · rw [AList.lookup_insert_ne hvw] at hv
    exact Or.inr ⟨v, phase, hv, hplay⟩

private theorem asking_erase (h : MutualAsk (calls.erase w) p) : MutualAsk calls p := by
  obtain ⟨v, phase, hv, hplay⟩ := h
  exact ⟨v, phase, (lookup_erase_eq_some.1 hv).2, hplay⟩

/-- Only a waiting call is woken, and a waiting call has asked. -/
private theorem asking_wake (h : MutualAsk (wake calls w phase) p) : MutualAsk calls p := by
  unfold wake at h
  cases hw : calls.lookup w with
  | none =>
    rw [hw] at h
    exact h
  | some c =>
    rw [hw] at h
    dsimp only at h
    by_cases hwaiting : c.phase = .waiting
    · rw [if_pos hwaiting] at h
      rcases asking_insert h with ⟨phase', heq, -⟩ | hold
      · refine ⟨w, .waiting, ?_, rfl⟩
        obtain ⟨peer, caller, phase₀⟩ := c
        have hwaiting : phase₀ = .waiting := hwaiting
        cases heq
        rw [hw]
        subst hwaiting
        rfl
      · exact hold
    · rw [if_neg hwaiting] at h
      exact h

private theorem asking_removePending (h : MutualAsk (st.removePending peer).calls p) : MutualAsk st.calls p := by
  unfold AuthManager.removePending at h
  cases hp : st.pending.lookup peer with
  | none =>
    rw [hp] at h
    exact h
  | some v =>
    rw [hp] at h
    exact asking_wake h

private theorem asking_refresh {registry : PeersFile} (h : MutualAsk (st.refresh registry w peer).calls p) :
    MutualAsk st.calls p := by
  unfold AuthManager.refresh at h
  split at h
  · split at h
    · split at h
      · rcases asking_insert h with ⟨phase, heq, -⟩ | hold
        · cases heq
        · exact hold
      · exact h
    · exact h
  · exact h

private theorem asking_authorize {connected mutualAuth : Bool}
    (h : MutualAsk ((st.authorize connected w peer mutualAuth).toOption.getD st).calls p) : MutualAsk st.calls p := by
  cases connected with
  | false => exact h
  | true =>
    rcases asking_insert h with ⟨phase, heq, hplay⟩ | hold
    · cases heq
      cases hplay
    · exact hold

/-- A call that begins to wait has sent its request. -/
private theorem asking_register {info : DeviceInfo} {queued : Bool}
    (h : MutualAsk (st.register info queued w).1.calls p) :
    MutualAsk st.calls p ∨ .authRequest true info ∈ framesTo p (st.register info queued w).2 := by
  unfold AuthManager.register at h ⊢
  split at h
  · cases queued with
    | true =>
      rw [if_pos rfl] at h ⊢
      rcases asking_insert h with ⟨phase, heq, -⟩ | hold
      · cases heq
        exact Or.inr (by simp [framesTo, Caller.mutualAuth])
      · exact Or.inl (asking_removePending hold)
    | false =>
      rw [if_neg Bool.false_ne_true] at h
      rcases asking_insert h with ⟨phase, heq, hplay⟩ | hold
      · cases heq
        cases hplay
      · exact Or.inl (asking_removePending hold)
  · exact Or.inl h

private theorem asking_resume (h : MutualAsk (st.resume w).1.calls p) : MutualAsk st.calls p := by
  unfold AuthManager.resume at h
  split at h
  · rename_i peer caller info hw
    rcases asking_insert h with ⟨phase, heq, -⟩ | hold
    · cases heq
      exact ⟨w, _, hw, rfl⟩
    · exact asking_removePending hold
  · exact asking_removePending (asking_erase h)
  · exact h

private theorem asking_finish {registry : PeersFile} {saveErr : Option String}
    (h : MutualAsk (st.finish registry saveErr w).1.calls p) : MutualAsk st.calls p := by
  unfold AuthManager.finish at h
  split at h
  · exact asking_erase h
  · exact h

private theorem asking_handleInbound {info : DeviceInfo} {registry : PeersFile} {saveErr : Option String}
    {msg : Message} (h : MutualAsk (st.handleInbound info registry saveErr peer msg).1.calls p) :
    MutualAsk st.calls p := by
  unfold AuthManager.handleInbound at h
  split at h
  · split at h
    · split at h <;> exact h
    · exact h
  · split at h
    · exact asking_wake h
    · exact h
  · exact h

end Asked

/-! ### The answers -/

section Answers

variable {registry : PeersFile} {saveErr : Option String} {st : AuthManager} {p : DeviceId} {w : Nat}

/-- A call whose exchange failed answers with an error. -/
private theorem answersIn_resume {answer : DeviceId × Bool × Except String String}
    (h : answer ∈ st.answersIn (st.resume w).2) : ∃ err, answer.2.2 = .error err := by
  unfold AuthManager.resume at h
  split at h
  · cases h
  · rename_i peer caller err hw
    cases caller with
    | refresh recorded => cases h
    | authorize mutualAuth =>
      simp only [AuthManager.answersIn, List.filterMap_cons, hw, List.filterMap_nil, List.mem_singleton] at h
      exact ⟨err, by rw [h]⟩
  · cases h

/-- A call that answers with a host name has recorded it. -/
private theorem answersIn_finish {host : String}
    (h : (p, true, Except.ok host) ∈ st.answersIn (st.finish registry saveErr w).2.2) :
    MutualAsk st.calls p ∧
      ∃ info, record registry saveErr p info true = .ok (st.finish registry saveErr w).2.1 := by
  unfold AuthManager.finish at h ⊢
  split at h
  · rename_i peer caller info hw
    cases caller with
    | refresh recorded =>
      dsimp only at h
      split at h
      · cases h
      · cases h
    | authorize mutualAuth =>
      simp only [AuthManager.answersIn, List.filterMap_cons, hw, List.filterMap_nil, List.mem_singleton] at h
      obtain ⟨rfl, rfl, hresult⟩ := Prod.mk.inj h |>.imp_right Prod.mk.inj
      cases hrecord : record registry saveErr p info true with
      | error err =>
        rw [hrecord] at hresult
        cases hresult
      | ok registry' => exact ⟨⟨w, _, hw, rfl⟩, info, by rw [hrecord]; rfl⟩
  · cases h

private theorem finish_keeps (h : registry.authorizes p = true) :
    (st.finish registry saveErr w).2.1.authorizes p = true := by
  unfold AuthManager.finish
  split
  · rename_i peer caller info hw
    cases hrecord : record registry saveErr peer info true with
    | error err => exact h
    | ok registry' => exact authorizes_record hrecord h
  · exact h

private theorem handleInbound_keeps {info : DeviceInfo} {peer : DeviceId} {msg : Message}
    (h : registry.authorizes p = true) :
    (st.handleInbound info registry saveErr peer msg).2.1.authorizes p = true := by
  unfold AuthManager.handleInbound
  split
  · rename_i mutualAuth info'
    cases mutualAuth with
    | false => exact h
    | true =>
      cases hrecord : record registry saveErr peer info' true with
      | error err => exact h
      | ok registry' => exact authorizes_record hrecord h
  · split <;> exact h
  · exact h

private theorem handleInbound_request {info info' : DeviceInfo} {registry' : PeersFile}
    (h : record registry saveErr p info' true = .ok registry') :
    (st.handleInbound info registry saveErr p (.authRequest true info')).2.1 = registry' := by
  simp only [AuthManager.handleInbound, if_true, h]

/-- A frame makes no call return. -/
private theorem answersIn_handleInbound {info : DeviceInfo} {peer : DeviceId} {msg : Message}
    (answer : DeviceId × Bool × Except String String) :
    answer ∉ st.answersIn (st.handleInbound info registry saveErr peer msg).2.2 := by
  unfold AuthManager.handleInbound
  split
  · split
    · split <;> simp [AuthManager.answersIn]
    · simp [AuthManager.answersIn]
  · split <;> simp [AuthManager.answersIn]
  · simp [AuthManager.answersIn]

private theorem answersIn_register {info : DeviceInfo} {queued : Bool}
    (answer : DeviceId × Bool × Except String String) :
    answer ∉ st.answersIn (st.register info queued w).2 := by
  unfold AuthManager.register
  split
  · split <;> simp [AuthManager.answersIn]
  · simp [AuthManager.answersIn]

end Answers

/-! ### Both sides -/

/-- The request of `d` is on its way, or the other side holds the authorization. -/
def AuthPair.Asked (ids : Bool → DeviceId) (s : AuthPair) (d : Bool) : Prop :=
  (∃ info, .authRequest true info ∈ s.wire d) ∨ (s.side (!d)).registry.authorizes (ids d) = true

structure AuthPairInv (ids : Bool → DeviceId) (s : AuthPair) : Prop where
  asking : ∀ d, MutualAsk (s.side d).auth.calls (ids (!d)) → s.Asked ids d
  answered : ∀ d host, (ids (!d), true, Except.ok host) ∈ (s.side d).answered →
    s.Asked ids d ∧ (s.side d).registry.authorizes (ids (!d)) = true

section Inv

variable {ids : Bool → DeviceId} {infos : Bool → DeviceInfo} {s s' : AuthPair} {d : Bool} {auth : AuthManager}
  {registry : PeersFile} {effs : List AuthEffect} {rest : List Message} {msg : Message} {ev : AuthPairEvent}

/-- What one side does leaves the request of either side where it was, or recorded. -/
private theorem asked_act
    (hmono : (s.side d).registry.authorizes (ids (!d)) = true → registry.authorizes (ids (!d)) = true) {c : Bool}
    (h : s.Asked ids c) : (s.act ids d auth registry effs).Asked ids c := by
  by_cases hc : c = d
  · subst hc
    rcases h with ⟨info, hmem⟩ | hauth
    · exact Or.inl ⟨info, by simp [AuthPair.act, hmem]⟩
    · exact Or.inr (by simpa [AuthPair.act] using hauth)
  · obtain rfl : c = !d := Bool.eq_not.2 hc
    rcases h with ⟨info, hmem⟩ | hauth
    · exact Or.inl ⟨info, by simpa [AuthPair.act] using hmem⟩
    · rw [Bool.not_not] at hauth
      exact Or.inr (by simpa [AuthPair.act] using hmono hauth)

private theorem inv_act (hi : AuthPairInv ids s)
    (hmono : (s.side d).registry.authorizes (ids (!d)) = true → registry.authorizes (ids (!d)) = true)
    (hasking : MutualAsk auth.calls (ids (!d)) →
      MutualAsk (s.side d).auth.calls (ids (!d)) ∨ ∃ info, .authRequest true info ∈ framesTo (ids (!d)) effs)
    (hanswers : ∀ host, (ids (!d), true, Except.ok host) ∈ (s.side d).auth.answersIn effs →
      MutualAsk (s.side d).auth.calls (ids (!d)) ∧ registry.authorizes (ids (!d)) = true) :
    AuthPairInv ids (s.act ids d auth registry effs) where
  asking c h := by
    by_cases hc : c = d
    · subst hc
      rcases hasking (by simpa [AuthPair.act] using h) with hold | ⟨info, hmem⟩
      · exact asked_act hmono (hi.asking c hold)
      · exact Or.inl ⟨info, by simp [AuthPair.act, hmem]⟩
    · exact asked_act hmono (hi.asking c (by simpa [AuthPair.act, hc] using h))
  answered c host h := by
    by_cases hc : c = d
    · subst hc
      have hmem : (ids (!c), true, Except.ok host) ∈ (s.side c).answered ++ (s.side c).auth.answersIn effs := by
        simpa [AuthPair.act] using h
      rcases List.mem_append.1 hmem with hold | hnew
      · obtain ⟨hasked, hauth⟩ := hi.answered c host hold
        exact ⟨asked_act hmono hasked, by simpa [AuthPair.act] using hmono hauth⟩
      · obtain ⟨hold, hauth⟩ := hanswers host hnew
        exact ⟨asked_act hmono (hi.asking c hold), by simpa [AuthPair.act] using hauth⟩
    · obtain ⟨hasked, hauth⟩ := hi.answered c host (by simpa [AuthPair.act, hc] using h)
      exact ⟨asked_act hmono hasked, by simpa [AuthPair.act, hc] using hauth⟩

/-- A frame that is not a request, or one that was recorded, can leave the wire. -/
private theorem asked_handled (hwire : s.wire d = msg :: rest)
    (hmsg : ∀ info, msg = .authRequest true info → (s.side (!d)).registry.authorizes (ids d) = true)
    {c : Bool} (h : s.Asked ids c) : (s.handled d rest).Asked ids c := by
  rcases h with ⟨info, hmem⟩ | hauth
  · by_cases hc : c = d
    · subst hc
      rw [hwire] at hmem
      rcases List.mem_cons.1 hmem with heq | hrest
      · exact Or.inr (hmsg info heq.symm)
      · exact Or.inl ⟨info, by simpa [AuthPair.handled] using hrest⟩
    · exact Or.inl ⟨info, by simpa [AuthPair.handled, hc] using hmem⟩
  · exact Or.inr hauth

private theorem inv_handled (hi : AuthPairInv ids s) (hwire : s.wire d = msg :: rest)
    (hmsg : ∀ info, msg = .authRequest true info → (s.side (!d)).registry.authorizes (ids d) = true) :
    AuthPairInv ids (s.handled d rest) where
  asking c h := asked_handled hwire hmsg (hi.asking c h)
  answered c host h :=
    ⟨asked_handled hwire hmsg (hi.answered c host h).1, (hi.answered c host h).2⟩

theorem authPairInv_start (registry : Bool → PeersFile) : AuthPairInv ids (AuthPair.start registry) where
  asking d h := by
    obtain ⟨w, phase, hw, -⟩ := h
    cases hw
  answered d host h := by cases h

theorem authPairInv_step (hi : AuthPairInv ids s) (hok : AuthPairOk ids s ev)
    (h : authPairStep ids infos s ev = some s') : AuthPairInv ids s' := by
  cases ev with
  | refresh d w peer =>
    obtain ⟨-, heq⟩ := Option.ite_none_left_eq_some.1 h
    cases heq
    exact inv_act hi id (fun h => Or.inl (asking_refresh h)) (by simp [AuthManager.answersIn])
  | authorize d w peer mutualAuth connected =>
    obtain ⟨-, heq⟩ := Option.ite_none_left_eq_some.1 h
    cases heq
    exact inv_act hi id (fun h => Or.inl (asking_authorize h)) (by simp [AuthManager.answersIn])
  | register d w queued =>
    cases h
    exact inv_act hi id (fun h => (asking_register h).imp_right fun hmem => ⟨infos d, hmem⟩)
      fun host hanswer => absurd hanswer (answersIn_register _)
  | expire d w =>
    cases h
    exact inv_act hi id (fun h => Or.inl (asking_wake h)) (by simp [AuthManager.answersIn])
  | resume d w =>
    cases h
    refine inv_act hi id (fun h => Or.inl (asking_resume h)) fun host hanswer => ?_
    obtain ⟨err, herr⟩ := answersIn_resume hanswer
    cases herr
  | finish d w saveErr =>
    cases h
    refine inv_act hi finish_keeps (fun h => Or.inl (asking_finish h)) fun host hanswer => ?_
    obtain ⟨hasking, info, hrecord⟩ := answersIn_finish hanswer
    exact ⟨hasking, authorizes_recorded hrecord hok⟩
  | deliver d queued saveErr =>
    cases hwire : s.wire (!d) with
    | nil =>
      simp only [authPairStep, hwire] at h
      cases h
    | cons msg rest =>
      simp only [authPairStep, hwire] at h
      cases h
      have hanswers : ∀ host, (ids (!d), true, Except.ok host) ∉ (s.side d).auth.answersIn (if queued then
          ((s.side d).auth.handleInbound (infos d) (s.side d).registry saveErr (ids (!d)) msg).2.2 else []) := by
        intro host
        cases queued with
        | true => exact answersIn_handleInbound _
        | false => exact List.not_mem_nil
      refine inv_handled (inv_act hi handleInbound_keeps (fun h => Or.inl (asking_handleInbound h))
        fun host hanswer => absurd hanswer (hanswers host)) (by simpa [AuthPair.act] using hwire) ?_
      rintro info rfl
      obtain ⟨hname, hsome⟩ := hok info (by rw [hwire]; rfl)
      cases hrecord : record (s.side d).registry saveErr (ids (!d)) info true with
      | error err =>
        rw [hrecord] at hsome
        cases hsome
      | ok registry =>
        simpa [AuthPair.act, handleInbound_request hrecord] using authorizes_recorded hrecord hname
  | inbound d peer msg saveErr =>
    obtain ⟨-, heq⟩ := Option.ite_none_left_eq_some.1 h
    cases heq
    exact inv_act hi handleInbound_keeps (fun h => Or.inl (asking_handleInbound h))
      fun host hanswer => absurd hanswer (answersIn_handleInbound _)
  | edit d registry =>
    cases h
    exact inv_act hi hok Or.inl (by simp [AuthManager.answersIn])

/-- A mutual authorization that was reported is on both sides as soon as the frames sent are handled. -/
theorem mutual_authorization {registries : Bool → PeersFile} {es : List AuthPairEvent} {host : String}
    (hr : Run (authPairStep ids infos) (AuthPairOk ids) (AuthPair.start registries) es s)
    (hanswer : (ids (!d), true, Except.ok host) ∈ (s.side d).answered) (hwire : s.wire d = []) :
    (s.side d).registry.authorizes (ids (!d)) = true ∧ (s.side (!d)).registry.authorizes (ids d) = true := by
  have hi : AuthPairInv ids s :=
    hr.invariant (authPairInv_start registries) fun _ _ _ hi hok hs => authPairInv_step hi hok hs
  obtain ⟨hasked, hauth⟩ := hi.answered d host hanswer
  rcases hasked with ⟨info, hmem⟩ | hpeer
  · rw [hwire] at hmem
    cases hmem
  · exact ⟨hauth, hpeer⟩

private def endId (d : Bool) : DeviceId := if d then "b" else "a"

private def endInfo (d : Bool) : DeviceInfo := ⟨if d then "bravo" else "alpha", [], "linux"⟩

/-- Each end knows the other one; `a` has authorized `b`. -/
private def endRegistry (d : Bool) : PeersFile :=
  .document ⟨[⟨(endInfo !d).hostname, endId !d, "", none, !d, [], none, none⟩]⟩

/-- The reply to a `refresh` ends an `authorize` whose own request the other side has yet to handle. -/
theorem mutual_authorization_early : ∃ s, Run (authPairStep endId endInfo) (AuthPairOk endId)
      (AuthPair.start endRegistry)
      [.refresh false 0 "b", .register false 0 true, .authorize false 1 "b" true true, .register false 1 true,
        .deliver true true none, .deliver false true none, .resume false 1, .finish false 1 none,
        .deliver true true none] s ∧
    (s.side false).registry.authorizes "b" = true ∧ (s.side true).registry.authorizes "a" = true := by
  obtain ⟨s, hrun, hview⟩ := run_of_exec_checked (authPairStep endId endInfo) (AuthPairOk endId)
    (AuthPair.start endRegistry)
    [.refresh false 0 "b", .register false 0 true, .authorize false 1 "b" true true, .register false 1 true,
      .deliver true true none, .deliver false true none, .resume false 1, .finish false 1 none, .deliver true true none]
    (fun s => ((s.side false).answered, s.wire false)) ([("b", true, Except.ok "bravo")], []) (by rfl)
  obtain ⟨hanswered, hwire⟩ := Prod.mk.inj hview
  have hmem : (endId (!false), true, Except.ok "bravo") ∈ (s.side false).answered := by simp [hanswered, endId]
  exact ⟨s, hrun, mutual_authorization hrun hmem hwire⟩

end Inv

end Qdrop
