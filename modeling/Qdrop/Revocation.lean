import Qdrop.Auth
import Qdrop.Lib.Run
import Qdrop.Lib.Table

/-!
# Revoking an authorization

`qdrop auth --remove` turns the flag off in `peers.toml`, behind the daemon's back.  A `refresh` or `authorize` that
has already begun waits for the peer's reply and then writes the flag without looking at it again, so its write can
land after the revocation (`refresh_undoes_revocation`).  `revocation_sticks` shows that this is the only way: as
long as no call begun before the revocation writes after it, the flag stays off until it is granted anew.
-/

namespace Qdrop

open Lib

/-! ### The actors -/

/-- The steps of the calls in progress, the inbound frames of the authorization subsystem, and the CLI. -/
inductive AuthEvent where
  | refresh (w : Nat) (peer : DeviceId)
  | authorize (w : Nat) (peer : DeviceId) (mutualAuth connected : Bool)
  | register (w : Nat) (queued : Bool)
  | reply (peer : DeviceId) (ok : Bool) (info : DeviceInfo)
  | request (peer : DeviceId) (mutualAuth : Bool) (info : DeviceInfo) (saveErr : Option String)
  | expire (w : Nat)
  | resume (w : Nat)
  | finish (w : Nat) (saveErr : Option String)
  | revoke (nameOrId : String) (saveErr : Option String)
deriving DecidableEq, Repr

/-- The registry and the authorization subsystem; for one device, whether a revocation is in force (it has completed
and no grant was issued since) and which calls had begun when it completed. -/
structure Watch where
  registry : PeersFile
  auth : AuthManager
  revoked : Bool
  outdated : Nat → Bool

/-- A daemon just started, with any `peers.toml`. -/
def Watch.start (registry : PeersFile) : Watch := ⟨registry, AuthManager.new, false, fun _ => false⟩

/-- `qdrop auth --remove` as one atomic load, change and save. -/
def revokeIn (registry : PeersFile) (saveErr : Option String) (nameOrId : String) : PeersFile :=
  match registry.load with
  | .ok doc =>
    match doc.revoke nameOrId with
    | some doc' => if saveErr = none then .document doc' else registry
    | none => registry
  | .error _ => registry

/-- The command names the entry of `p`, and whatever had to be saved was saved. -/
def revokes (registry : PeersFile) (saveErr : Option String) (nameOrId : String) (p : DeviceId) : Bool :=
  match registry.load with
  | .ok doc =>
    match doc.findAny nameOrId with
    | some e => decide (doc.findById p = some e) && (!e.authorized || saveErr.isNone)
    | none => false
  | .error _ => false

/-- One step; `p` is the device whose revocations are watched. -/
def authStep (localInfo : DeviceInfo) (p : DeviceId) (s : Watch) : AuthEvent → Option Watch
  | .refresh w peer =>
    if (s.auth.calls.lookup w).isSome then none
    else some { s with auth := s.auth.refresh s.registry w peer }
  | .authorize w peer mutualAuth connected =>
    if (s.auth.calls.lookup w).isSome then none
    else some { s with
      auth := (s.auth.authorize connected w peer mutualAuth).toOption.getD s.auth
      revoked := s.revoked && peer != p }
  | .register w queued => some { s with auth := (s.auth.register localInfo queued w).1 }
  | .reply peer ok info =>
    let out := s.auth.handleInbound localInfo s.registry none peer (.authReply ok info)
    some { s with registry := out.2.1, auth := out.1 }
  | .request peer mutualAuth info saveErr =>
    let out := s.auth.handleInbound localInfo s.registry saveErr peer (.authRequest mutualAuth info)
    some { s with
      registry := out.2.1
      auth := out.1
      revoked := s.revoked && !(mutualAuth && peer == p) }
  | .expire w => some { s with auth := s.auth.expire w }
  | .resume w => some { s with auth := (s.auth.resume w).1 }
  | .finish w saveErr =>
    let out := s.auth.finish s.registry saveErr w
    some { s with registry := out.2.1, auth := out.1 }
  | .revoke nameOrId saveErr =>
    if revokes s.registry saveErr nameOrId p then
      some ⟨revokeIn s.registry saveErr nameOrId, s.auth, true, fun w => (s.auth.calls.lookup w).isSome⟩
    else some { s with registry := revokeIn s.registry saveErr nameOrId }

/-- The event is about the device `p`: every call is for this peer and every `AuthRequest` is of it; an `AuthReply` may
come from anyone. -/
def AuthEvent.about (p : DeviceId) : AuthEvent → Bool
  | .refresh _ peer => peer == p
  | .authorize _ peer _ _ => peer == p
  | .request peer _ _ _ => peer == p
  | _ => true

/-- No call that had begun when the revocation completed writes while it is in force. -/
def InTime (s : Watch) : AuthEvent → Prop
  | .finish w _ => s.revoked = true → s.outdated w = false
  | _ => True

instance (s : Watch) : (e : AuthEvent) → Decidable (InTime s e)
  | .finish w _ => inferInstanceAs (Decidable (s.revoked = true → s.outdated w = false))
  | .refresh .. | .authorize .. | .register .. | .reply .. | .request .. | .expire .. | .resume .. | .revoke .. =>
    inferInstanceAs (Decidable True)

/-! ### The registry under a revocation -/

/-- Turning flags off authorizes nobody, and turning the flag of `p` off leaves `p` unauthorized. -/
private theorem Peers.isAuthorized_revoke {doc doc' : Peers} {x : String} (h : doc.revoke x = some doc')
    (p : DeviceId) : doc'.isAuthorized p = (doc.isAuthorized p && decide (doc.findById p ≠ doc.findAny x)) := by
  unfold Peers.revoke at h
  split at h
  · split at h
    · have hfind := Peers.findById_modifyAny h (fun _ => rfl) p
      unfold Peers.isAuthorized
      rw [hfind]
      by_cases he : doc.findById p = doc.findAny x
      · simp only [he, if_true, ne_eq, not_true_eq_false, decide_false, Bool.and_false]
        cases doc.findAny x <;> simp
      · simp [he]
    · cases h
  · cases h

private theorem authorizes_revokeIn {registry : PeersFile} {saveErr : Option String} {x : String} {p : DeviceId}
    (h : registry.authorizes p = false) : (revokeIn registry saveErr x).authorizes p = false := by
  unfold revokeIn
  split
  · rename_i doc hload
    have hdoc : doc.isAuthorized p = false := by simpa [PeersFile.authorizes, hload] using h
    split
    · rename_i doc' hrev
      split
      · simp [Peers.isAuthorized_revoke hrev, hdoc]
      · exact h
    · exact h
  · exact h

/-- A completed revocation of `p` leaves `p` unauthorized. -/
private theorem authorizes_of_revokes {registry : PeersFile} {saveErr : Option String} {x : String} {p : DeviceId}
    (h : revokes registry saveErr x p = true) : (revokeIn registry saveErr x).authorizes p = false := by
  unfold revokes at h
  split at h
  · rename_i doc hload
    split at h
    · rename_i e hx
      simp only [Bool.and_eq_true, decide_eq_true_eq, Bool.or_eq_true, Bool.not_eq_true'] at h
      obtain ⟨hp, hsave⟩ := h
      by_cases he : e.authorized = true
      · have hsave : saveErr = none := by simpa [he] using hsave
        obtain ⟨doc', hmod⟩ := Peers.modifyAny_of_findAny (fun p => { p with authorized := false }) hx
        have hrev : doc.revoke x = some doc' := by simp [Peers.revoke, hx, he, hmod]
        have hin : revokeIn registry saveErr x = .document doc' := by simp only [revokeIn, hload, hrev, hsave, if_true]
        rw [hin, PeersFile.authorizes_document, Peers.isAuthorized_revoke hrev, hp, hx]
        simp only [ne_eq, not_true_eq_false, decide_false, Bool.and_false]
      · apply authorizes_revokeIn
        simpa [PeersFile.authorizes, hload, Peers.isAuthorized, hp] using he
    · cases h
  · cases h

/-! ### The calls -/

private theorem isSome_lookup_insert {calls : AList (fun _ : Nat => Call)} {w v : Nat} {c c' : Call}
    (hw : calls.lookup w = some c) (h : ((calls.insert w c').lookup v).isSome = true) :
    (calls.lookup v).isSome = true := by
  by_cases hv : v = w
  · subst hv
    rw [hw]
    rfl
  · rwa [AList.lookup_insert_ne hv] at h

/-- Waking a call starts none. -/
private theorem isSome_lookup_wake {calls : AList (fun _ : Nat => Call)} {w v : Nat} {phase : CallPhase}
    (h : ((wake calls w phase).lookup v).isSome = true) : (calls.lookup v).isSome = true := by
  unfold wake at h
  split at h
  · rename_i c hw
    split at h
    · exact isSome_lookup_insert hw h
    · exact h
  · exact h

private theorem isSome_lookup_removePending {st : AuthManager} {peer : DeviceId} {v : Nat}
    (h : ((st.removePending peer).calls.lookup v).isSome = true) : (st.calls.lookup v).isSome = true := by
  unfold AuthManager.removePending at h
  split at h
  · exact isSome_lookup_wake h
  · exact h

private theorem isSome_lookup_erase {calls : AList (fun _ : Nat => Call)} {w v : Nat}
    (h : ((calls.erase w).lookup v).isSome = true) : (calls.lookup v).isSome = true := by
  obtain ⟨c, hc⟩ := Option.isSome_iff_exists.1 h
  exact Option.isSome_iff_exists.2 ⟨c, (lookup_erase_eq_some.1 hc).2⟩

/-- After `removePending`, a call that was in progress still is. -/
private theorem lookup_removePending {st : AuthManager} (peer : DeviceId) {w : Nat} {c : Call}
    (hw : st.calls.lookup w = some c) : ∃ c', (st.removePending peer).calls.lookup w = some c' := by
  unfold AuthManager.removePending
  split
  · rename_i v _
    unfold wake
    split
    · split
      · by_cases hv : w = v
        · exact ⟨_, by rw [hv, AList.lookup_insert]⟩
        · exact ⟨c, by rw [AList.lookup_insert_ne hv, hw]⟩
      · exact ⟨c, hw⟩
    · exact ⟨c, hw⟩
  · exact ⟨c, hw⟩

private theorem isSome_lookup_register {st : AuthManager} {localInfo : DeviceInfo} {queued : Bool} {w v : Nat}
    (h : ((st.register localInfo queued w).1.calls.lookup v).isSome = true) : (st.calls.lookup v).isSome = true := by
  unfold AuthManager.register at h
  split at h
  · rename_i peer caller hw
    obtain ⟨c', hc'⟩ := lookup_removePending peer hw
    split at h
    · exact isSome_lookup_removePending (isSome_lookup_insert hc' h)
    · exact isSome_lookup_removePending (isSome_lookup_insert hc' h)
  · exact h

private theorem isSome_lookup_resume {st : AuthManager} {w v : Nat}
    (h : ((st.resume w).1.calls.lookup v).isSome = true) : (st.calls.lookup v).isSome = true := by
  unfold AuthManager.resume at h
  split at h
  · rename_i peer caller info hw
    obtain ⟨c', hc'⟩ := lookup_removePending peer hw
    exact isSome_lookup_removePending (isSome_lookup_insert hc' h)
  · exact isSome_lookup_removePending (isSome_lookup_erase h)
  · exact h

/-- `refresh` does not go on for a device that is not authorized. -/
private theorem refresh_unauthorized {st : AuthManager} {registry : PeersFile} {w : Nat} {p : DeviceId}
    (h : registry.authorizes p = false) : st.refresh registry w p = st := by
  unfold AuthManager.refresh
  split
  · rename_i doc hload
    split
    · rename_i e he
      have : e.authorized = false := by simpa [PeersFile.authorizes, hload, Peers.isAuthorized, he] using h
      rw [if_neg (by simp [this])]
    · rfl
  · rfl

/-- `finish` does nothing unless the call is in progress. -/
private theorem finish_of_none {st : AuthManager} {registry : PeersFile} {saveErr : Option String} {w : Nat}
    (h : st.calls.lookup w = none) : st.finish registry saveErr w = (st, registry, []) := by
  simp [AuthManager.finish, h]

/-! ### The flag stays off -/

/-- While a revocation is in force the flag is off and every call in progress had begun before it. -/
private structure Sticks (p : DeviceId) (s : Watch) : Prop where
  off : s.revoked = true → s.registry.authorizes p = false
  begun : s.revoked = true → ∀ w, (s.auth.calls.lookup w).isSome = true → s.outdated w = true

/-- A step that touches neither the registry nor the ghost state and starts no call. -/
private theorem Sticks.auth {p : DeviceId} {s : Watch} {auth : AuthManager} (h : Sticks p s)
    (hcalls : ∀ w, (auth.calls.lookup w).isSome = true → (s.auth.calls.lookup w).isSome = true) :
    Sticks p { s with auth := auth } where
  off := h.off
  begun hr w hw := h.begun hr w (hcalls w hw)

private theorem sticks_step {localInfo : DeviceInfo} {p : DeviceId} {s t : Watch} {e : AuthEvent}
    (h : Sticks p s) (hp : e.about p = true) (ht : InTime s e) (hs : authStep localInfo p s e = some t) :
    Sticks p t := by
  cases e with
  | refresh w peer =>
    simp only [authStep] at hs
    split at hs
    · cases hs
    · cases hs
      obtain rfl : peer = p := by simpa [AuthEvent.about] using hp
      refine ⟨h.off, fun hr v hv => h.begun hr v ?_⟩
      rwa [refresh_unauthorized (h.off hr)] at hv
  | authorize w peer mutualAuth connected =>
    simp only [authStep] at hs
    split at hs
    · cases hs
    · cases hs
      obtain rfl : peer = p := by simpa [AuthEvent.about] using hp
      exact ⟨fun hr => by simp at hr, fun hr => by simp at hr⟩
  | register w queued =>
    cases hs
    exact h.auth (fun v hv => isSome_lookup_register hv)
  | reply peer ok info =>
    cases hs
    simp only [AuthManager.handleInbound]
    split
    · exact h.auth (fun v hv => isSome_lookup_wake hv)
    · exact h
  | request peer mutualAuth info saveErr =>
    cases hs
    obtain rfl : peer = p := by simpa [AuthEvent.about] using hp
    cases mutualAuth with
    | true => exact ⟨fun hr => by simp at hr, fun hr => by simp at hr⟩
    | false =>
      constructor
      · intro hr
        exact h.off (by simpa using hr)
      · intro hr
        exact h.begun (by simpa using hr)
  | expire w =>
    cases hs
    exact h.auth (fun v hv => isSome_lookup_wake hv)
  | resume w =>
    cases hs
    exact h.auth (fun v hv => isSome_lookup_resume hv)
  | finish w saveErr =>
    cases hs
    by_cases hr : s.revoked = true
    · -- the call would have begun before the revocation, which the condition excludes
      have hnone : s.auth.calls.lookup w = none := by
        cases hw : s.auth.calls.lookup w with
        | none => rfl
        | some c =>
          have hout := h.begun hr w (by simp [hw])
          rw [ht hr] at hout
          cases hout
      simp only [finish_of_none hnone]
      exact h
    · exact ⟨fun hr' => absurd hr' hr, fun hr' => absurd hr' hr⟩
  | revoke x saveErr =>
    simp only [authStep] at hs
    split at hs
    · rename_i hrev
      cases hs
      exact ⟨fun _ => authorizes_of_revokes hrev, fun _ w hw => hw⟩
    · cases hs
      exact ⟨fun hr => authorizes_revokeIn (h.off hr), h.begun⟩

/-- In every interleaving of the calls, the requests and the revocations of one device and the replies of any, in which
no call begun before a revocation writes after it, the device stays unauthorized from each completed revocation to the
next grant. -/
theorem revocation_sticks (localInfo : DeviceInfo) (p : DeviceId) (registry : PeersFile) (es : List AuthEvent)
    (s : Watch) (hr : Run (authStep localInfo p) (fun s e => e.about p = true ∧ InTime s e)
      (Watch.start registry) es s) (hrev : s.revoked = true) : s.registry.authorizes p = false := by
  have h : Sticks p s := by
    refine hr.invariant ⟨(fun h => by cases h), (fun h => by cases h)⟩ ?_
    rintro s e t hs ⟨hp, ht⟩ hstep
    exact sticks_step hs hp ht hstep
  exact h.off hrev

/-! ### A refresh that began too early -/

private def trustedPeer : Peer := ⟨"phone", "p", "", none, true, [], some "phone", none⟩

private def phoneInfo : DeviceInfo := ⟨"phone", [], "linux"⟩

/-- `p` reconnects, the user revokes it while the daemon waits for the reply, and the reply arrives. -/
private def lateReply : List AuthEvent :=
  [.refresh 0 "p", .register 0 true, .revoke "phone" none, .reply "p" true phoneInfo, .resume 0, .finish 0 none]

theorem refresh_undoes_revocation :
    ¬ ∀ (localInfo : DeviceInfo) (p : DeviceId) (registry : PeersFile) (es : List AuthEvent) (s : Watch),
      Run (authStep localInfo p) (fun _ e => e.about p = true) (Watch.start registry) es s →
      s.revoked = true → s.registry.authorizes p = false := by
  intro h
  obtain ⟨s, hrun, hview⟩ := run_of_exec_view (authStep phoneInfo "p") (fun e => e.about "p" = true)
    (Watch.start (.document ⟨[trustedPeer]⟩)) lateReply (fun s => (s.revoked, s.registry.authorizes "p")) (true, true)
    (by decide) (by rfl)
  simp only [Prod.mk.injEq] at hview
  have hoff := h phoneInfo "p" _ lateReply s hrun hview.1
  rw [hview.2] at hoff
  cases hoff

/-- The same calls with the reply before the revocation; `p` reconnects after it, and replies come in once more. -/
private def timelyReply : List AuthEvent :=
  [.refresh 0 "p", .register 0 true, .reply "p" true phoneInfo, .resume 0, .finish 0 none, .revoke "phone" none,
    .refresh 1 "p", .register 1 true, .reply "p" true phoneInfo, .reply "q" true phoneInfo, .resume 1, .finish 1 none,
    .request "p" false phoneInfo none]

theorem revocation_sticks_after_refresh :
    ∃ s, Run (authStep phoneInfo "p") (fun s e => e.about "p" = true ∧ InTime s e)
      (Watch.start (.document ⟨[trustedPeer]⟩)) timelyReply s ∧ s.revoked = true ∧
      s.registry.authorizes "p" = false := by
  obtain ⟨s, hrun, hrev⟩ := run_of_exec_checked (authStep phoneInfo "p")
    (fun s e => e.about "p" = true ∧ InTime s e) (Watch.start (.document ⟨[trustedPeer]⟩)) timelyReply
    (fun s => s.revoked) true (by rfl)
  exact ⟨s, hrun, hrev, revocation_sticks phoneInfo "p" _ timelyReply s hrun hrev⟩

end Qdrop
