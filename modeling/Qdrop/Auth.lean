import Mathlib.Data.List.AList
import Qdrop.Peers

/-!
# Authorization (`qdropd/src/auth.rs`)

The `authorized` flag of a registry entry is written by `record`, on behalf of three actors: a local `qdrop auth`
(`authorize`), the silent re-check on reconnect (`refresh`), and a peer's `AuthRequest` with `mutual = true`.  The
first two ask the peer for its label and wait for the reply; `pending` holds one waiter for each peer, so a call in
progress is a small state machine that the frame router, the timer and the other calls act on.
-/

namespace Qdrop

/-! ### Writing the flag -/

/-- The change `record` makes to the document; `none` when no entry matches. -/
def Peers.recordLabel (doc : Peers) (deviceId : DeviceId) (info : DeviceInfo) (authorized : Bool) : Option Peers :=
  doc.modifyAny deviceId fun p =>
    { p with authorized := authorized, hostname := some info.hostname, macs := info.macs }

/-- `record`: write `authorized` and the peer's label into `peers.toml`; `saveErr` is the error of the save. -/
def record (registry : PeersFile) (saveErr : Option String) (deviceId : DeviceId) (info : DeviceInfo)
    (authorized : Bool) : Except String PeersFile :=
  match registry.load with
  | .error err => .error err
  | .ok doc =>
    match doc.recordLabel deviceId info authorized with
    | none => .error "peer not found in peers.toml (is it paired?)"
    | some doc' =>
      match saveErr with
      | some err => .error err
      | none => .ok (.document doc')

/-- The document `qdrop auth --remove` saves; `none` when it saves nothing. -/
def Peers.revoke (doc : Peers) (nameOrId : String) : Option Peers :=
  match doc.findAny nameOrId with
  | some p => if p.authorized then doc.modifyAny nameOrId fun p => { p with authorized := false } else none
  | none => none

/-- `sysinfo::macs_still_match`. -/
def macsStillMatch (recorded observed : List String) : Bool :=
  recorded.isEmpty || recorded.any (fun m => observed.contains m)

/-! ### Calls in progress -/

/-- Which function runs the exchange. -/
inductive Caller where
  | refresh (recorded : List String)
  | authorize (mutualAuth : Bool)
deriving DecidableEq, Repr

/-- The `mutual` argument of the exchange. -/
def Caller.mutualAuth : Caller → Bool
  | .refresh _ => false
  | .authorize mutualAuth => mutualAuth

/-- How far a call has come. -/
inductive CallPhase where
  /-- The entry or the bus has been checked; the waiter is not registered yet. -/
  | checked
  /-- The request is queued and the call awaits the reply. -/
  | waiting
  /-- The reply is in the channel. -/
  | replied (info : DeviceInfo)
  /-- The exchange failed with this error; the waiter is still to be removed. -/
  | failed (err : String)
  /-- The exchange has returned; `record` is next. -/
  | recording (info : DeviceInfo)
deriving DecidableEq, Repr

structure Call where
  peer : DeviceId
  caller : Caller
  phase : CallPhase
deriving DecidableEq, Repr

/-- `pending` maps a peer to the call whose waiter is registered for it. -/
structure AuthManager where
  pending : AList (fun _ : DeviceId => Nat)
  calls : AList (fun _ : Nat => Call)

def AuthManager.new : AuthManager := ⟨∅, ∅⟩

inductive AuthEffect where
  | send (peer : DeviceId) (msg : Message)
  | notify (summary body : String)
  /-- `authorize` returns to the control socket: the peer's host name, or an error. -/
  | answer (call : Nat) (result : Except String String)
deriving DecidableEq, Repr

/-- What the receiving half of call `w` sees: only a call that waits takes notice. -/
def wake (calls : AList (fun _ : Nat => Call)) (w : Nat) (phase : CallPhase) : AList (fun _ : Nat => Call) :=
  match calls.lookup w with
  | some c => if c.phase = .waiting then calls.insert w { c with phase := phase } else calls
  | none => calls

/-- `pending.remove(peer)`, dropping the sender. -/
def AuthManager.removePending (st : AuthManager) (peerId : DeviceId) : AuthManager :=
  match st.pending.lookup peerId with
  | some w => ⟨st.pending.erase peerId, wake st.calls w (.failed "authorization channel closed")⟩
  | none => st

/-! ### Inbound frames -/

/-- `AuthManager::handle_inbound`. -/
def AuthManager.handleInbound (localInfo : DeviceInfo) (registry : PeersFile) (saveErr : Option String)
    (st : AuthManager) (peerId : DeviceId) : Message → AuthManager × PeersFile × List AuthEffect
  | .authRequest mutualAuth info =>
    let reply : AuthEffect := .send peerId (.authReply true localInfo)
    if mutualAuth then
      match record registry saveErr peerId info true with
      | .ok registry' =>
        (st, registry', [reply, .notify "Device authorized" s!"{info.hostname} can now send here unattended"])
      | .error _ => (st, registry, [reply])
    else (st, registry, [reply])
  | .authReply _ info =>
    match st.pending.lookup peerId with
    | some w => (⟨st.pending.erase peerId, wake st.calls w (.replied info)⟩, registry, [])
    | none => (st, registry, [])
  | _ => (st, registry, [])

/-! ### `authorize`, `refresh` and `exchange` -/

/-- `refresh` up to the exchange: it goes on only for an authorized peer. -/
def AuthManager.refresh (registry : PeersFile) (st : AuthManager) (w : Nat) (peerId : DeviceId) : AuthManager :=
  match registry.load with
  | .ok doc =>
    match doc.findById peerId with
    | some p => if p.authorized then ⟨st.pending, st.calls.insert w ⟨peerId, .refresh p.macs, .checked⟩⟩ else st
    | none => st
  | .error _ => st

/-- `authorize` up to the exchange. -/
def AuthManager.authorize (connected : Bool) (st : AuthManager) (w : Nat) (peerId : DeviceId) (mutualAuth : Bool) :
    Except String AuthManager :=
  if connected then .ok ⟨st.pending, st.calls.insert w ⟨peerId, .authorize mutualAuth, .checked⟩⟩
  else .error "peer is not connected — start both daemons and try again"

/-- `exchange`, first half: register the waiter (which drops the one it replaces) and queue the request. -/
def AuthManager.register (localInfo : DeviceInfo) (queued : Bool) (st : AuthManager) (w : Nat) :
    AuthManager × List AuthEffect :=
  match st.calls.lookup w with
  | some ⟨peerId, caller, .checked⟩ =>
    let st := st.removePending peerId
    let pending := st.pending.insert peerId w
    if queued then
      (⟨pending, st.calls.insert w ⟨peerId, caller, .waiting⟩⟩,
        [.send peerId (.authRequest caller.mutualAuth localInfo)])
    else (⟨pending, st.calls.insert w ⟨peerId, caller, .failed "peer is not connected"⟩⟩, [])
  | _ => (st, [])

/-- `exchange`: the timer fires before the channel has anything. -/
def AuthManager.expire (st : AuthManager) (w : Nat) : AuthManager :=
  ⟨st.pending, wake st.calls w (.failed "peer did not reply (it may be running an older qdrop)")⟩

/-- `exchange`, second half: the outcome is known, whatever waiter is registered now is removed, and a failed call
ends. -/
def AuthManager.resume (st : AuthManager) (w : Nat) : AuthManager × List AuthEffect :=
  match st.calls.lookup w with
  | some ⟨peerId, caller, .replied info⟩ =>
    let st := st.removePending peerId
    (⟨st.pending, st.calls.insert w ⟨peerId, caller, .recording info⟩⟩, [])
  | some ⟨peerId, caller, .failed err⟩ =>
    let st := st.removePending peerId
    (⟨st.pending, st.calls.erase w⟩, match caller with
      | .authorize _ => [.answer w (.error err)]
      | .refresh _ => [])
  | _ => (st, [])

/-- The end of `authorize` and of `refresh`. -/
def AuthManager.finish (registry : PeersFile) (saveErr : Option String) (st : AuthManager) (w : Nat) :
    AuthManager × PeersFile × List AuthEffect :=
  match st.calls.lookup w with
  | some ⟨peerId, caller, .recording info⟩ =>
    let recorded := record registry saveErr peerId info true
    let effs : List AuthEffect := match caller with
      | .refresh macs =>
        if macsStillMatch macs info.macs then []
        else [.notify "Authorized device on a new network"
          s!"{info.hostname} — still trusted (its key is pinned)"]
      | .authorize _ => [.answer w (recorded.map fun _ => info.hostname)]
    (⟨st.pending, st.calls.erase w⟩, recorded.toOption.getD registry, effs)
  | _ => (st, registry, [])

/-! ### The flag of one device -/

/-- Whether `peers.toml` lists the device as authorized; an unreadable file lists nobody. -/
def PeersFile.authorizes (registry : PeersFile) (deviceId : DeviceId) : Bool :=
  match registry.load with
  | .ok doc => doc.isAuthorized deviceId
  | .error _ => false

@[simp] theorem PeersFile.authorizes_document (doc : Peers) (deviceId : DeviceId) :
    (PeersFile.document doc).authorizes deviceId = doc.isAuthorized deviceId := rfl

end Qdrop
