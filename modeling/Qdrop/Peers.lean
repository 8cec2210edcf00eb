import Mathlib.Algebra.Group.Nat.Defs
import Qdrop.Proto

/-!
# The registry of paired devices (`qdrop-core/src/peers.rs`)

`peers.toml` is a list of entries.  Lookups take the first entry that matches, so what they return depends on the
order of the list when two entries share a name or an id.  `findAnyMut` accepts a name or a device id; its two uses
(recording an authorization and revoking one) are `modifyAny` with the change they make.
-/

namespace Qdrop

/-- A single paired peer. -/
structure Peer where
  name : String
  deviceId : DeviceId
  /-- Base64 of the pinned Ed25519 key. -/
  publicKey : String
  lastSeen : Option String
  /-- Pre-authorized as an unattended sender. -/
  authorized : Bool
  macs : List String
  hostname : Option String
  address : Option String
deriving DecidableEq, Repr

/-- A socket address in its text form. -/
abbrev SocketAddr := String

/-- `DEFAULT_PORT` -/
def defaultPort : Nat := 47654

/-- What `static_addrs` asks of the standard library: it parses an address with a port, parses an address and adds the
default port, and resolves a name with a port. -/
structure Resolver where
  parseSocketAddr : String → Option SocketAddr
  parseIpAddr : String → Option SocketAddr
  toSocketAddrs : String → Option (List SocketAddr)

/-- `parse::<u16>` succeeds. -/
def isU16 (s : List Char) : Bool :=
  let digits := match s with
    | '+' :: ds => ds
    | ds => ds
  !digits.isEmpty && digits.all Char.isDigit && digits.foldl (fun n c => 10 * n + (c.toNat - 48)) 0 < 2 ^ 16

/-- A host gets the default port unless it ends in one. -/
def withPort (raw : String) : String :=
  if isU16 (raw.toList.rtakeWhile (· != ':')) then raw else s!"{raw}:{defaultPort}"

/-- Resolve `address` to socket addresses, or `[]` if unset or unresolvable. -/
def Peer.staticAddrs (resolver : Resolver) (p : Peer) : List SocketAddr :=
  match (p.address.map fun raw => String.ofList (trim raw.toList)).filter (· ≠ "") with
  | none => []
  | some raw =>
    match resolver.parseSocketAddr raw, resolver.parseIpAddr raw with
    | some sa, _ => [sa]
    | none, some sa => [sa]
    | none, none => (resolver.toSocketAddrs (withPort raw)).getD []

/-- Decode the pinned public key; `decode` is the base64 decoder. -/
def Peer.keyBytes (decode : String → Option (List UInt8)) (p : Peer) : Except String Key :=
  let name := p.name
  match decode (String.ofList (trim p.publicKey.toList)) with
  | none => .error s!"decoding public key for peer {name}"
  | some raw =>
    if h : raw.toArray.size = 32 then .ok ⟨raw.toArray, h⟩
    else .error s!"public key for peer {name} is not 32 bytes"

/-- The whole `peers.toml` document. -/
structure Peers where
  peers : List Peer
deriving DecidableEq, Repr

/-- Build a peer entry from a raw public key; `encode` is the base64 encoder. -/
def Peer.new (encode : Key → String) (name : String) (deviceId : DeviceId) (publicKey : Key) : Peer where
  name := name
  deviceId := deviceId
  publicKey := encode publicKey
  lastSeen := none
  authorized := false
  macs := []
  hostname := none
  address := none

/-- What is on disk where `peers.toml` should be. -/
inductive PeersFile where
  | absent
  | unreadable (err : String)
  | document (doc : Peers)
deriving DecidableEq, Repr

/-- `Peers::load`: an absent file is the empty registry. -/
def PeersFile.load : PeersFile → Except String Peers
  | .absent => .ok ⟨[]⟩
  | .unreadable err => .error err
  | .document doc => .ok doc

namespace Peers

/-- Look up a peer by name. -/
def find (doc : Peers) (name : String) : Option Peer := doc.peers.find? (fun p => p.name == name)

/-- Look up a peer by device id. -/
def findById (doc : Peers) (deviceId : DeviceId) : Option Peer :=
  doc.peers.find? (fun p => p.deviceId == deviceId)

/-- Whether `find_any_mut` stops at this entry. -/
def matchesAny (nameOrId : String) (p : Peer) : Bool := p.name == nameOrId || p.deviceId == nameOrId

/-- The entry `find_any_mut` returns. -/
def findAny (doc : Peers) (nameOrId : String) : Option Peer := doc.peers.find? (matchesAny nameOrId)

/-- Apply `f` to the first entry that satisfies `q`. -/
def modifyFirst (q : Peer → Bool) (f : Peer → Peer) : List Peer → Option (List Peer)
  | [] => none
  | p :: ps => if q p then some (f p :: ps) else (modifyFirst q f ps).map (p :: ·)

/-- Change the entry `find_any_mut` returns. -/
def modifyAny (doc : Peers) (nameOrId : String) (f : Peer → Peer) : Option Peers :=
  (modifyFirst (matchesAny nameOrId) f doc.peers).map Peers.mk

/-- Whether a peer (by device id) is pre-authorized as an unattended sender. -/
def isAuthorized (doc : Peers) (deviceId : DeviceId) : Bool :=
  (doc.findById deviceId).any (·.authorized)

/-- Insert `peer`, replacing any entry with the same device id; a name that collides with another device's gets a
short suffix. -/
def upsert (doc : Peers) (peer : Peer) : Peers :=
  let kept := doc.peers.filter (fun p => p.deviceId != peer.deviceId)
  let peer :=
    if kept.any (fun p => p.name == peer.name && p.deviceId != peer.deviceId) then
      let suffix := String.ofList (peer.deviceId.toList.take 6)
      { peer with name := s!"{peer.name}-{suffix}" }
    else peer
  ⟨kept ++ [peer]⟩

/-- Remove the peers with this name; the flag tells whether one was removed. -/
def removeByName (doc : Peers) (name : String) : Peers × Bool :=
  let kept := doc.peers.filter (fun p => p.name != name)
  (⟨kept⟩, kept.length != doc.peers.length)

/-! ### Changing the first match -/

/-- The list is split at the first match. -/
theorem modifyFirst_eq_some {q : Peer → Bool} {f : Peer → Peer} {l l' : List Peer}
    (h : modifyFirst q f l = some l') :
    ∃ as p bs, l = as ++ p :: bs ∧ l' = as ++ f p :: bs ∧ q p = true ∧ ∀ a ∈ as, q a = false := by
  induction l generalizing l' with
  | nil => cases h
  | cons p ps ih =>
    simp only [modifyFirst] at h
    split at h
    · rename_i hq
      cases h
      exact ⟨[], p, ps, rfl, rfl, hq, by simp⟩
    · rename_i hq
      obtain ⟨ps', hps, rfl⟩ := Option.map_eq_some_iff.1 h
      obtain ⟨as, r, bs, rfl, rfl, hr, has⟩ := ih hps
      refine ⟨p :: as, r, bs, rfl, rfl, hr, ?_⟩
      intro a ha
      rcases List.mem_cons.1 ha with rfl | ha
      · simpa using hq
      · exact has a ha

theorem modifyAny_eq_some {doc doc' : Peers} {s : String} {f : Peer → Peer}
    (h : doc.modifyAny s f = some doc') :
    ∃ as p bs, doc.peers = as ++ p :: bs ∧ doc'.peers = as ++ f p :: bs ∧ matchesAny s p = true ∧
      ∀ a ∈ as, matchesAny s a = false := by
  obtain ⟨l, hl, rfl⟩ := Option.map_eq_some_iff.1 h
  exact modifyFirst_eq_some hl

theorem modifyAny_of_findAny {doc : Peers} {s : String} {e : Peer} (f : Peer → Peer)
    (h : doc.findAny s = some e) : ∃ doc', doc.modifyAny s f = some doc' := by
  unfold findAny at h
  unfold modifyAny
  generalize doc.peers = l at h ⊢
  induction l with
  | nil => cases h
  | cons p ps ih =>
    by_cases hp : matchesAny s p = true
    · exact ⟨⟨f p :: ps⟩, by simp [modifyFirst, hp]⟩
    · rw [List.find?_cons_of_neg hp] at h
      obtain ⟨doc', hdoc'⟩ := ih h
      obtain ⟨l, hl, -⟩ := Option.map_eq_some_iff.1 hdoc'
      exact ⟨⟨p :: l⟩, by simp [modifyFirst, hp, hl]⟩

/-- A change that keeps the id shows under an id exactly when the entry it hits is the first with that id. -/
theorem findById_modifyAny {doc doc' : Peers} {s : String} {f : Peer → Peer}
    (h : doc.modifyAny s f = some doc') (hf : ∀ q, (f q).deviceId = q.deviceId) (id : DeviceId) :
    doc'.findById id = if doc.findById id = doc.findAny s then (doc.findById id).map f else doc.findById id := by
  obtain ⟨as, e, bs, hdoc, hdoc', hmatch, has⟩ := modifyAny_eq_some h
  have hany : doc.findAny s = some e := by
    have hnone : as.find? (matchesAny s) = none := by simpa using has
    simp [findAny, hdoc, hnone, hmatch]
  unfold findById
  rw [hany, hdoc, hdoc', List.find?_append, List.find?_append]
  cases hfind : as.find? (fun q => q.deviceId == id) with
  | some q =>
    have hne : q ≠ e := by
      rintro rfl
      rw [has q (List.mem_of_find?_eq_some hfind)] at hmatch
      cases hmatch
    simp [hne]
  | none =>
    by_cases hid : e.deviceId = id
    · simp [hid, hf]
    · have hne : bs.find? (fun q => q.deviceId == id) ≠ some e := by
        intro he
        exact hid (by simpa using List.find?_some he)
      simp [hid, hf, hne]

end Peers

end Qdrop
