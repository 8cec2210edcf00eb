import Qdrop.Proto

/-!
# The `Hello` exchange (`qdropd/src/connection.rs`)

Both sides send their `Hello` and check the peer's: the protocol version, and the device id when one is expected.
-/

namespace Qdrop

/-- What is learned during the handshake. -/
structure Handshake where
  peer : Hello
  /-- Capabilities both sides support. -/
  effectiveCaps : Caps
deriving DecidableEq, Repr

inductive HandshakeError where
  | timeout
  | versionMismatch (ours their : Nat)
  | identityMismatch
  /-- Another frame came in place of the `Hello`. -/
  | unexpected (got : Message)
  | frame (err : String)
deriving DecidableEq, Repr

/-- `handshake`, given what `read_message` returns first (`none`: nothing before the time limit). -/
def handshake (own : Hello) (expectId : Option DeviceId) (first : Option (Except String Message)) :
    Except HandshakeError Handshake :=
  match first with
  | none => .error .timeout
  | some (.error err) => .error (.frame err)
  | some (.ok (.hello peer)) =>
    if peer.protocolVersion ≠ protocolVersion then .error (.versionMismatch protocolVersion peer.protocolVersion)
    else if expectId.any (· != peer.deviceId) then .error .identityMismatch
    else .ok ⟨peer, own.caps.intersect peer.caps⟩
  | some (.ok other) => .error (.unexpected other)

/-- A successful handshake reports the id that was expected. -/
theorem handshake_ok {own : Hello} {expectId : Option DeviceId} {first : Option (Except String Message)}
    {hs : Handshake} (h : handshake own expectId first = .ok hs) :
    ∀ id, expectId = some id → hs.peer.deviceId = id := by
  rintro id rfl
  unfold handshake at h
  split at h
  · cases h
  · cases h
  · rename_i peer
    split at h
    · cases h
    · split at h
      · cases h
      · rename_i hid
        cases h
        have : id = peer.deviceId := by simpa using hid
        exact this.symm
  · cases h

end Qdrop
