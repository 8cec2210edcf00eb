import Qdrop.Registry.Resolve
import Qdrop.Roster

/-!
# The two indexes of the roster

`Roster::load` fills a map from keys to peers and a map from ids to keys in one pass over `peers.toml`.  The registry
lists no device id twice, but it may list a key twice: a device that lost its id and paired again has a second entry.
The map from keys then knows only the entry listed last, and what is looked up by the other id goes to it.
`indexes_agree_iff` says that the indexes agree in every other case.
-/

namespace Qdrop

open Lib

/-! ### Filling the indexes -/

section Load

variable (decode : String → Option (List UInt8)) (resolver : Resolver)

/-- What the roster knows of an entry, if its key is usable. -/
def Peer.trusted (p : Peer) : Option RosterPeer :=
  match p.keyBytes decode with
  | .ok key => some ⟨p.deviceId, p.name, key, p.staticAddrs resolver⟩
  | .error _ => none

theorem RosterInner.load_eq (doc : Peers) :
    RosterInner.load decode resolver doc = replace (doc.peers.filterMap (Peer.trusted decode resolver)) := rfl

/-- `replace` fills each index on its own. -/
theorem RosterInner.replace_eq (peers : List RosterPeer) :
    replace peers =
      ⟨indexBy RosterPeer.publicKey id peers, indexBy RosterPeer.deviceId RosterPeer.publicKey peers⟩ := by
  induction peers using List.reverseRecOn with
  | nil => rfl
  | append_singleton peers p ih =>
    rw [indexBy_append, indexBy_append]
    unfold replace at ih ⊢
    rw [List.foldl_append, ih]
    rfl

end Load

/-- The indexes agree with each other and with the document. -/
structure IndexesAgree (resolver : Resolver) (doc : Peers) (r : RosterInner) : Prop where
  byId : ∀ id key, r.keyForId id = some key → ∃ p, r.peerForKey key = some p ∧ p.deviceId = id
  byKey : ∀ key, r.isTrustedKey key = true ↔ ∃ id, r.keyForId id = some key
  addrs : ∀ id, r.staticAddrsFor id = ((doc.findById id).map (Peer.staticAddrs resolver)).getD []

/-- In whatever order the entries are listed. -/
def Consistent (decode : String → Option (List UInt8)) (resolver : Resolver) (doc : Peers) : Prop :=
  ∀ doc' : Peers, doc'.peers.Perm doc.peers → IndexesAgree resolver doc' (.load decode resolver doc')

/-- Every entry has the text of a key that decodes. -/
def Decodable (encode : Key → String) (decode : String → Option (List UInt8)) (doc : Peers) : Prop :=
  ∀ e ∈ doc.peers, ∃ key, e.publicKey = encode key ∧ KeyRoundTrips encode decode key

section Agree

variable {encode : Key → String} {decode : String → Option (List UInt8)} {resolver : Resolver} {doc : Peers}

theorem Decodable.trusted (h : Decodable encode decode doc) (resolver : Resolver) {e : Peer} (he : e ∈ doc.peers) :
    ∃ key, e.publicKey = encode key ∧ KeyRoundTrips encode decode key ∧
      e.trusted decode resolver = some ⟨e.deviceId, e.name, key, e.staticAddrs resolver⟩ := by
  obtain ⟨key, hkey, hround⟩ := h e he
  refine ⟨key, hkey, hround, ?_⟩
  rw [Peer.trusted, Peer.keyBytes_of_roundTrips hround hkey]

/-- Keys with one text are the same. -/
theorem KeyRoundTrips.inj {key key' : Key} (h : KeyRoundTrips encode decode key)
    (h' : KeyRoundTrips encode decode key') (heq : encode key = encode key') : key = key' := by
  unfold KeyRoundTrips at h h'
  rw [heq, h', Option.some.injEq] at h
  exact (Vector.toList_inj.1 h).symm

/-- What the roster keeps of the entries. -/
private theorem mem_trusted (h : Decodable encode decode doc) {p : RosterPeer} :
    p ∈ doc.peers.filterMap (Peer.trusted decode resolver) ↔
      ∃ e ∈ doc.peers, e.publicKey = encode p.publicKey ∧ KeyRoundTrips encode decode p.publicKey ∧
        p = ⟨e.deviceId, e.name, p.publicKey, e.staticAddrs resolver⟩ := by
  rw [List.mem_filterMap]
  constructor
  · rintro ⟨e, he, hp⟩
    obtain ⟨key, hkey, hround, heq⟩ := h.trusted resolver he
    rw [heq, Option.some.injEq] at hp
    subst hp
    exact ⟨e, he, hkey, hround, rfl⟩
  · rintro ⟨e, he, hkey, hround, hp⟩
    refine ⟨e, he, ?_⟩
    rw [Peer.trusted, Peer.keyBytes_of_roundTrips hround hkey, hp]

private theorem exists_trusted (resolver : Resolver) (h : Decodable encode decode doc) {e : Peer}
    (he : e ∈ doc.peers) :
    ∃ p ∈ doc.peers.filterMap (Peer.trusted decode resolver), p.deviceId = e.deviceId ∧
      e.publicKey = encode p.publicKey ∧ KeyRoundTrips encode decode p.publicKey := by
  obtain ⟨key, hkey, hround, htr⟩ := h.trusted resolver he
  exact ⟨_, List.mem_filterMap.2 ⟨e, he, htr⟩, rfl, hkey, hround⟩

/-- In the roster, too, no id is listed twice, and no key if none is listed twice in the document. -/
private theorem keyed_ids (h : Decodable encode decode doc) (hids : doc.IdsDistinct) :
    Keyed RosterPeer.deviceId (doc.peers.filterMap (Peer.trusted decode resolver)) := by
  refine Keyed.filterMap hids fun e he e' he' p p' hp hp' heq => ?_
  obtain ⟨_, -, -, htr⟩ := h.trusted resolver he
  obtain ⟨_, -, -, htr'⟩ := h.trusted resolver he'
  rw [htr, Option.some.injEq] at hp
  rw [htr', Option.some.injEq] at hp'
  rwa [← hp, ← hp'] at heq

private theorem keyed_keys (h : Decodable encode decode doc) (hkeys : Keyed Peer.publicKey doc.peers) :
    Keyed RosterPeer.publicKey (doc.peers.filterMap (Peer.trusted decode resolver)) := by
  refine Keyed.filterMap hkeys fun e he e' he' p p' hp hp' heq => ?_
  obtain ⟨key, hkey, -, htr⟩ := h.trusted resolver he
  obtain ⟨key', hkey', -, htr'⟩ := h.trusted resolver he'
  rw [htr, Option.some.injEq] at hp
  rw [htr', Option.some.injEq] at hp'
  subst hp hp'
  rw [hkey, hkey']
  exact congrArg encode heq

/-- What each index of a roster finds. -/
private theorem keyForId_load (h : Decodable encode decode doc) (hids : doc.IdsDistinct) {id : DeviceId} {key : Key} :
    (RosterInner.load decode resolver doc).keyForId id = some key ↔
      ∃ p ∈ doc.peers.filterMap (Peer.trusted decode resolver), p.deviceId = id ∧ p.publicKey = key := by
  rw [RosterInner.load_eq, RosterInner.replace_eq]
  exact lookup_indexBy_iff (keyed_ids h hids)

private theorem isTrustedKey_load {key : Key} : (RosterInner.load decode resolver doc).isTrustedKey key = true ↔
    ∃ p ∈ doc.peers.filterMap (Peer.trusted decode resolver), p.publicKey = key := by
  rw [RosterInner.load_eq, RosterInner.replace_eq]
  exact lookup_indexBy_isSome

private theorem peerForKey_load (h : Decodable encode decode doc) (hkeys : Keyed Peer.publicKey doc.peers) {key : Key}
    {p : RosterPeer} : (RosterInner.load decode resolver doc).peerForKey key = some p ↔
      p ∈ doc.peers.filterMap (Peer.trusted decode resolver) ∧ p.publicKey = key := by
  rw [RosterInner.load_eq, RosterInner.replace_eq, RosterInner.peerForKey,
    lookup_indexBy_iff (keyed_keys h hkeys)]
  constructor
  · rintro ⟨q, hq, hkey, rfl⟩
    exact ⟨hq, hkey⟩
  · rintro ⟨hp, hkey⟩
    exact ⟨p, hp, hkey, rfl⟩

private theorem indexesAgree_of_keyed (h : Decodable encode decode doc) (hids : doc.IdsDistinct)
    (hkeys : Keyed Peer.publicKey doc.peers) :
    IndexesAgree resolver doc (RosterInner.load decode resolver doc) where
  byId id key hkey := by
    obtain ⟨p, hp, hid, hpk⟩ := (keyForId_load h hids).1 hkey
    exact ⟨p, (peerForKey_load h hkeys).2 ⟨hp, hpk⟩, hid⟩
  byKey key := by
    rw [isTrustedKey_load]
    constructor
    · rintro ⟨p, hp, hkey⟩
      exact ⟨p.deviceId, (keyForId_load h hids).2 ⟨p, hp, rfl, hkey⟩⟩
    · rintro ⟨id, hid⟩
      obtain ⟨p, hp, -, hkey⟩ := (keyForId_load h hids).1 hid
      exact ⟨p, hp, hkey⟩
  addrs id := by
    unfold RosterInner.staticAddrsFor
    cases hk : (RosterInner.load decode resolver doc).keyForId id with
    | some key =>
      obtain ⟨p, hp, hid, hpk⟩ := (keyForId_load h hids).1 hk
      have hpeer := (peerForKey_load h hkeys).2 ⟨hp, hpk⟩
      obtain ⟨e, he, -, -, heq⟩ := (mem_trusted h).1 hp
      have heid : e.deviceId = id := by rw [← hid, heq]
      rw [(Peers.findById_eq_some hids).2 ⟨he, heid⟩]
      simp only [hpeer, Option.map_some, Option.getD_some]
      rw [heq]
    | none =>
      cases hf : doc.findById id with
      | none => rfl
      | some e =>
        obtain ⟨he, heid⟩ := (Peers.findById_eq_some hids).1 hf
        obtain ⟨p, hp, hid, -, -⟩ := exists_trusted resolver h he
        have hsome := (keyForId_load h hids).2 ⟨p, hp, hid.trans heid, rfl⟩
        rw [hk] at hsome
        cases hsome

/-- The indexes agree exactly when no key is listed twice. -/
private theorem consistent_iff (h : Decodable encode decode doc) (hids : doc.IdsDistinct) :
    Consistent decode resolver doc ↔ Keyed Peer.publicKey doc.peers := by
  constructor
  · intro hcons
    have hagree := hcons doc (List.Perm.refl _)
    refine List.pairwise_map.2 (hids.nodup.imp_of_mem fun {e e'} he he' hne heq => hne ?_)
    obtain ⟨key, hkey, hround⟩ := h e he
    -- the peer found under the key has both ids
    have hboth : ∀ e ∈ doc.peers, e.publicKey = encode key →
        ∃ p, (RosterInner.load decode resolver doc).peerForKey key = some p ∧ p.deviceId = e.deviceId := by
      intro e he hkey
      obtain ⟨p, hp, hid, hpk, hpround⟩ := exists_trusted resolver h he
      have hpkey : p.publicKey = key := hpround.inj hround (hpk.symm.trans hkey)
      exact hagree.byId e.deviceId key ((keyForId_load h hids).2 ⟨p, hp, hid, hpkey⟩)
    obtain ⟨p, hp, hid⟩ := hboth e he hkey
    obtain ⟨p', hp', hid'⟩ := hboth e' he' (heq.symm.trans hkey)
    obtain rfl : p = p' := Option.some.inj (hp.symm.trans hp')
    exact hids.eq_of_mem he he' (hid.symm.trans hid')
  · intro hkeys doc' hperm
    refine indexesAgree_of_keyed (fun e he => h e (hperm.mem_iff.1 he)) (hids.perm hperm.symm) ?_
    exact hkeys.perm hperm.symm

end Agree

/-! ### Runs -/

/-- The key an operation enters. -/
def RegOp.newKey : RegOp → Option Key
  | .recordPeer paired _ => some paired.publicKey
  | .unpair _ | .revoke _ | .record .. => none

/-- An operation on the registry that enters no key but one that decodes to what was encoded. -/
structure CodedOp (encode : Key → String) (decode : String → Option (List UInt8)) where
  op : RegOp
  roundTrips : ∀ key ∈ op.newKey, KeyRoundTrips encode decode key

section Runs

variable {encode : Key → String} {decode : String → Option (List UInt8)}

/-- The registry after the operation; one that saves nothing leaves it. -/
def opStep (doc : Peers) (e : CodedOp encode decode) : Option Peers := some ((e.op.change encode doc).getD doc)

/-- A device is paired with a key that no other device's entry has. -/
def RegOp.KeyFree (encode : Key → String) (doc : Peers) : RegOp → Prop
  | .recordPeer paired _ => ∀ p ∈ doc.peers, p.publicKey = encode paired.publicKey → p.deviceId = paired.deviceId
  | .unpair _ | .revoke _ | .record .. => True

instance (doc : Peers) : (op : RegOp) → Decidable (op.KeyFree encode doc)
  | .recordPeer paired _ => inferInstanceAs (Decidable
    (∀ p ∈ doc.peers, p.publicKey = encode paired.publicKey → p.deviceId = paired.deviceId))
  | .unpair _ | .revoke _ | .record .. => inferInstanceAs (Decidable True)

/-- What holds of the entries in every run. -/
private structure Entries (encode : Key → String) (decode : String → Option (List UInt8)) (doc : Peers) : Prop where
  ids : doc.IdsDistinct
  decodable : Decodable encode decode doc

/-- Pairing enters the key under the id, in place of the entry with this id. -/
private theorem recordPeer_keys {doc : Peers} {paired : Paired} {address : Option String}
    (h : Entries encode decode doc) (hround : KeyRoundTrips encode decode paired.publicKey) :
    Decodable encode decode (doc.recordPeer encode paired address) ∧ (Keyed Peer.publicKey doc.peers →
      (Keyed Peer.publicKey (doc.recordPeer encode paired address).peers ↔
        RegOp.KeyFree encode doc (.recordPeer paired address))) := by
  obtain ⟨e, hpeers, hid, hkey⟩ : ∃ e : Peer,
      (doc.recordPeer encode paired address).peers = put Peer.deviceId doc.peers e ∧ e.deviceId = paired.deviceId ∧
        e.publicKey = encode paired.publicKey :=
    ⟨_, Peers.upsert_peers _ _, Peers.entryFor_deviceId _ _, by rw [Peers.entryFor_eq]; rfl⟩
  constructor
  · intro x hx
    rw [hpeers, mem_put] at hx
    rcases hx with ⟨hx, -⟩ | rfl
    · exact h.decodable x hx
    · exact ⟨paired.publicKey, hkey, hround⟩
  · intro hkeys
    rw [hpeers, put, Keyed.append_iff]
    constructor
    · rintro ⟨-, hne⟩ x hx hxk
      by_contra hxid
      refine hne x (List.mem_filter.2 ⟨hx, ?_⟩) (hxk.trans hkey.symm)
      simpa [hid] using hxid
    · intro hfree
      refine ⟨hkeys.filter _, fun x hx hxk => ?_⟩
      obtain ⟨hx, hxid⟩ := List.mem_filter.1 hx
      rw [hid, bne_iff_ne] at hxid
      exact hxid (hfree x hx (hxk.trans hkey))

/-- Labels and flags touch no key. -/
private theorem Decodable.of_map {doc doc' : Peers} (h : Decodable encode decode doc)
    (hmap : doc'.peers.map Peer.publicKey = doc.peers.map Peer.publicKey) : Decodable encode decode doc' := by
  intro e he
  have hmem : e.publicKey ∈ doc.peers.map Peer.publicKey := by
    rw [← hmap]
    exact List.mem_map_of_mem he
  obtain ⟨e', he', heq⟩ := List.mem_map.1 hmem
  rw [← heq]
  exact h e' he'

private theorem change_keys {doc doc' : Peers} {op : RegOp} (h : Entries encode decode doc)
    (hround : ∀ key ∈ op.newKey, KeyRoundTrips encode decode key) (hop : op.change encode doc = some doc') :
    Decodable encode decode doc' ∧ (Keyed Peer.publicKey doc.peers →
      (Keyed Peer.publicKey doc'.peers ↔ op.KeyFree encode doc)) := by
  have hkept (hmap : doc'.peers.map Peer.publicKey = doc.peers.map Peer.publicKey) :
      Decodable encode decode doc' ∧ (Keyed Peer.publicKey doc.peers → Keyed Peer.publicKey doc'.peers) := by
    refine ⟨h.decodable.of_map hmap, fun hkeys => ?_⟩
    rw [Keyed, hmap]
    exact hkeys
  cases op with
  | recordPeer paired address =>
    cases hop
    exact recordPeer_keys h (hround _ rfl)
  | unpair name =>
    simp only [RegOp.change] at hop
    split at hop
    · cases hop
      refine ⟨fun e he => h.decodable e (List.mem_filter.1 he).1, fun hkeys => iff_of_true ?_ trivial⟩
      exact hkeys.filter _
    · cases hop
  | revoke nameOrId =>
    obtain ⟨hdec, hkeyed⟩ := hkept (map_revoke hop fun _ => rfl)
    exact ⟨hdec, fun hkeys => iff_of_true (hkeyed hkeys) trivial⟩
  | record deviceId info authorized =>
    obtain ⟨hdec, hkeyed⟩ := hkept (map_modifyAny hop fun _ => rfl)
    exact ⟨hdec, fun hkeys => iff_of_true (hkeyed hkeys) trivial⟩

/-- An operation that saves nothing enters no key. -/
private theorem keyFree_of_none {doc : Peers} {op : RegOp} (h : op.change encode doc = none) :
    op.KeyFree encode doc := by
  cases op with
  | recordPeer paired address => cases h
  | unpair | revoke | record => trivial

/-- In every registry on the way, however its entries are listed, the two indexes of the roster agree with each other
and with the document if and only if no device is ever paired with a key that the entry of another device has. -/
theorem indexes_agree_iff (encode : Key → String) (decode : String → Option (List UInt8)) (resolver : Resolver)
    {es : List (CodedOp encode decode)} {doc : Peers} (hr : Run opStep Always ⟨[]⟩ es doc) :
    Throughout opStep (Consistent decode resolver) ⟨[]⟩ es ↔
      Run opStep (fun doc e => e.op.KeyFree encode doc) ⟨[]⟩ es doc := by
  have hstep : ∀ s (e : CodedOp encode decode) t, Entries encode decode s → opStep s e = some t →
      Entries encode decode t ∧ (Keyed Peer.publicKey s.peers →
        (Keyed Peer.publicKey t.peers ↔ e.op.KeyFree encode s)) := by
    rintro s e t hs hst
    cases hst
    cases hop : e.op.change encode s with
    | some t =>
      obtain ⟨hdec, hkeys⟩ := change_keys hs e.roundTrips hop
      exact ⟨⟨hs.ids.change hop, hdec⟩, hkeys⟩
    | none => exact ⟨hs, fun hkeys => iff_of_true hkeys (keyFree_of_none hop)⟩
  have hstart : Entries encode decode ⟨[]⟩ := ⟨Keyed.nil, fun e he => by cases he⟩
  refine hr.throughout_iff hstart ((consistent_iff hstart.decodable hstart.ids).2 Keyed.nil)
    (fun s e t hs hst => (hstep s e t hs hst).1) ?_
  intro s e t hs hcons hst
  obtain ⟨ht, hkeys⟩ := hstep s e t hs hst
  rw [consistent_iff ht.decodable ht.ids]
  exact hkeys ((consistent_iff hs.decodable hs.ids).1 hcons)

end Runs

/-! ### A device that lost its id -/

private def ones : Key := Vector.replicate 32 1

/-- Base64 of `ones`, without padding. -/
private def encodeOnes (_ : Key) : String := "AQEBAQEBAQEBAQEBAQEBAQEBAQEBAQEBAQEBAQEBAQE"

private def decodeOnes (_ : String) : Option (List UInt8) := some (List.replicate 32 1)

private def unresolved : Resolver := ⟨fun _ => none, fun _ => none, fun _ => none⟩

private def pairOnes (deviceId : DeviceId) : CodedOp encodeOnes decodeOnes where
  op := .recordPeer ⟨deviceId, "laptop", ones⟩ none
  roundTrips key hkey := by
    cases hkey
    have hlist : List.replicate 32 1 = ones.toList := by decide +kernel
    exact congrArg some hlist

/-- The device is unpaired by its name. -/
private def unpairLaptop : CodedOp encodeOnes decodeOnes := ⟨.unpair "laptop", fun key hkey => by cases hkey⟩

/-- It is unpaired before it is paired under its new id. -/
theorem indexes_agree_iff_unpaired :
    ∃ doc, Run opStep Always ⟨[]⟩ [pairOnes "a", unpairLaptop, pairOnes "b"] doc ∧ doc.ids = ["b"] ∧
      Throughout opStep (Consistent decodeOnes unresolved) ⟨[]⟩ [pairOnes "a", unpairLaptop, pairOnes "b"] := by
  obtain ⟨doc, hr, hview⟩ := run_of_exec_checked opStep
    (fun doc (e : CodedOp encodeOnes decodeOnes) => e.op.KeyFree encodeOnes doc) ⟨[]⟩
    [pairOnes "a", unpairLaptop, pairOnes "b"] Peers.ids ["b"] (by decide +kernel)
  exact ⟨doc, hr.always, hview, (indexes_agree_iff encodeOnes decodeOnes unresolved hr.always).2 hr⟩

/-- A device is paired, loses its id and is paired again with the key it has kept: the key of its old id is that of
the peer with the new one. -/
theorem key_paired_twice :
    ¬ ∀ (encode : Key → String) (decode : String → Option (List UInt8)) (resolver : Resolver)
      (es : List (CodedOp encode decode)) (doc : Peers), Run opStep Always ⟨[]⟩ es doc →
      Consistent decode resolver doc := by
  intro h
  obtain ⟨doc, hr, hview⟩ := run_of_exec_view opStep (fun _ => True) ⟨[]⟩ [pairOnes "a", pairOnes "b"]
    (fun doc => ((RosterInner.load decodeOnes unresolved doc).keyForId "a",
      ((RosterInner.load decodeOnes unresolved doc).peerForKey ones).map (·.deviceId)))
    (some ones, some "b") (fun _ _ => trivial) (by decide +kernel)
  simp only [Prod.mk.injEq] at hview
  obtain ⟨p, hp, hid⟩ := (h _ _ unresolved _ doc hr.always doc (List.Perm.refl _)).byId "a" ones hview.1
  rw [hp] at hview
  simp [hid] at hview

end Qdrop
