import Mathlib.Data.List.AList
import Qdrop.Peers

/-!
# The trust roster (`qdrop-core/src/roster.rs`)

The set of currently trusted peers, indexed by public key and by device id.  The TLS verifier, the accept tasks, the
dial loops and the connection manager all read it; a reload replaces it as a whole.
-/

namespace Qdrop

/-- One trusted peer. -/
structure RosterPeer where
  deviceId : DeviceId
  name : String
  publicKey : Key
  staticAddrs : List SocketAddr
deriving DecidableEq, Repr

structure RosterInner where
  byKey : AList (fun _ : Key => RosterPeer)
  byId : AList (fun _ : DeviceId => Key)

namespace RosterInner

def isTrustedKey (r : RosterInner) (key : Key) : Bool := (r.byKey.lookup key).isSome

def isTrustedId (r : RosterInner) (deviceId : DeviceId) : Bool := (r.byId.lookup deviceId).isSome

def keyForId (r : RosterInner) (deviceId : DeviceId) : Option Key := r.byId.lookup deviceId

def peerForKey (r : RosterInner) (key : Key) : Option RosterPeer := r.byKey.lookup key

def ids (r : RosterInner) : List DeviceId := r.byId.keys

/-- Static dial addresses configured for a peer. -/
def staticAddrsFor (r : RosterInner) (deviceId : DeviceId) : List SocketAddr :=
  match r.keyForId deviceId with
  | some key => ((r.peerForKey key).map (·.staticAddrs)).getD []
  | none => []

/-- The peers that have a static address. -/
def peersWithStaticAddrs (r : RosterInner) : List RosterPeer :=
  (r.byKey.entries.map (·.2)).filter (fun p => !p.staticAddrs.isEmpty)

/-- `replace`: later entries win over earlier ones with the same key or id. -/
def replace (peers : List RosterPeer) : RosterInner :=
  peers.foldl (fun r p => ⟨r.byKey.insert p.publicKey p, r.byId.insert p.deviceId p.publicKey⟩) ⟨∅, ∅⟩

/-- `Roster::load`: the entries with a usable key; the others are skipped. -/
def load (decode : String → Option (List UInt8)) (resolver : Resolver) (doc : Peers) : RosterInner :=
  replace <| doc.peers.filterMap fun p =>
    match p.keyBytes decode with
    | .ok key => some ⟨p.deviceId, p.name, key, p.staticAddrs resolver⟩
    | .error _ => none

theorem mem_ids {r : RosterInner} {deviceId : DeviceId} : deviceId ∈ r.ids ↔ r.isTrustedId deviceId = true := by
  unfold ids isTrustedId
  rw [AList.lookup_isSome]
  rfl

end RosterInner

end Qdrop
