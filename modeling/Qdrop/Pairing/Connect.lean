import Qdrop.Lib.Base64
import Qdrop.Pairing.Honest
import Qdrop.Registry.Indexes
import Qdrop.Transport.Pinned

/-!
# From a pairing to a connection

Two devices run an honest pairing, each records what it has learned in its registry, whatever that held, and other
operations on the registry come before and after.  As long as none of them takes the other device out again, the
roster that the daemon loads pins the key of the other device to its id, so one of the two dials, both ends of TLS
accept the other's key, and both `Hello` checks pass (`pairing_connects`).
-/

namespace Qdrop

open Lib

/-! ### The text of a key -/

/-- `STANDARD_NO_PAD.encode`; its text reads back (`keyRoundTrips`), which is all that the results use. -/
def keyText (key : Key) : String := String.ofList (Base64.encode key.toList)

/-- `STANDARD_NO_PAD.decode`. -/
def keyOfText (text : String) : Option (List UInt8) := Base64.decode text.toList

theorem keyRoundTrips (key : Key) : KeyRoundTrips keyText keyOfText key := by
  have hdigits : ∀ n < 64, isWhitespace (Base64.digit n) = false := by decide
  have hplain : ∀ c ∈ Base64.encode key.toList, isWhitespace c = false := by
    intro c hc
    obtain ⟨n, hn, rfl⟩ := Base64.isDigit64_encode _ c hc
    exact hdigits n hn
  have htrim : trim (Base64.encode key.toList) = Base64.encode key.toList :=
    trim_eq_self fun c hc => hplain c (hc.elim List.mem_of_mem_head? List.mem_of_mem_getLast?)
  unfold KeyRoundTrips keyOfText keyText
  rw [String.toList_ofList, String.toList_ofList, htrim, Base64.decode_encode]

/-! ### What the registry pins -/

section Pins

variable {encode : Key → String} {decode : String → Option (List UInt8)}

/-- An entry has the id and the key, and no entry after it has one of the two. -/
def Peers.Pins (decode : String → Option (List UInt8)) (doc : Peers) (id : DeviceId) (key : Key) : Prop :=
  ∃ before p after, doc.peers = before ++ p :: after ∧ p.deviceId = id ∧ p.keyBytes decode = .ok key ∧
    ∀ q ∈ after, q.deviceId ≠ id ∧ q.keyBytes decode ≠ .ok key

theorem trusted_eq_some {resolver : Resolver} {p : Peer} {q : RosterPeer} (h : p.trusted decode resolver = some q) :
    q.deviceId = p.deviceId ∧ p.keyBytes decode = .ok q.publicKey := by
  unfold Peer.trusted at h
  split at h
  · rename_i key hkey
    cases h
    exact ⟨rfl, hkey⟩
  · cases h

/-- The roster then knows the device by its id and by its key. -/
theorem Peers.Pins.load {doc : Peers} {id : DeviceId} {key : Key} (h : doc.Pins decode id key) (resolver : Resolver) :
    (RosterInner.load decode resolver doc).keyForId id = some key ∧
      ∃ p, (RosterInner.load decode resolver doc).peerForKey key = some p ∧ p.deviceId = id := by
  obtain ⟨before, p, after, hpeers, rfl, hkey, hafter⟩ := h
  have htrusted : p.trusted decode resolver = some ⟨p.deviceId, p.name, key, p.staticAddrs resolver⟩ := by
    rw [Peer.trusted, hkey]
  have hlist : doc.peers.filterMap (Peer.trusted decode resolver) =
      before.filterMap (Peer.trusted decode resolver) ++
        ⟨p.deviceId, p.name, key, p.staticAddrs resolver⟩ :: after.filterMap (Peer.trusted decode resolver) := by
    rw [hpeers, List.filterMap_append, List.filterMap_cons_some htrusted]
  have hrest : ∀ q ∈ after.filterMap (Peer.trusted decode resolver), q.deviceId ≠ p.deviceId ∧ q.publicKey ≠ key := by
    intro q hq
    obtain ⟨e, he, heq⟩ := List.mem_filterMap.1 hq
    obtain ⟨hid, hbytes⟩ := trusted_eq_some heq
    obtain ⟨hne, hnk⟩ := hafter e he
    refine ⟨hid ▸ hne, ?_⟩
    rintro rfl
    exact hnk hbytes
  rw [RosterInner.load_eq, RosterInner.replace_eq, hlist]
  constructor
  · exact lookup_indexBy_last rfl fun q hq => (hrest q hq).1
  · exact ⟨_, lookup_indexBy_last rfl fun q hq => (hrest q hq).2, rfl⟩

/-- Only ids and keys matter. -/
theorem Peers.Pins.of_map {doc doc' : Peers} {id : DeviceId} {key : Key} (h : doc.Pins decode id key)
    (hmap : doc'.peers.map (fun p => (p.deviceId, p.publicKey, p.name)) =
      doc.peers.map fun p => (p.deviceId, p.publicKey, p.name)) : doc'.Pins decode id key := by
  have hbytes : ∀ p q : Peer, (p.deviceId, p.publicKey, p.name) = (q.deviceId, q.publicKey, q.name) →
      p.keyBytes decode = q.keyBytes decode := by
    intro p q heq
    simp only [Prod.mk.injEq] at heq
    unfold Peer.keyBytes
    rw [heq.2.1, heq.2.2]
  obtain ⟨before, p, after, hpeers, hid, hkey, hafter⟩ := h
  rw [hpeers, List.map_append, List.map_cons] at hmap
  obtain ⟨before', rest', hpeers', -, hrest⟩ := List.map_eq_append_iff.1 hmap
  obtain ⟨p', after', rfl, hp, hafter'⟩ := List.map_eq_cons_iff.1 hrest
  refine ⟨before', p', after', hpeers', ?_, (hbytes p' p hp).trans hkey, fun q hq => ?_⟩
  · exact (congrArg Prod.fst hp).trans hid
  · have hmem : (q.deviceId, q.publicKey, q.name) ∈ after.map fun p => (p.deviceId, p.publicKey, p.name) := by
      rw [← hafter']
      exact List.mem_map_of_mem hq
    obtain ⟨e, he, heq⟩ := List.mem_map.1 hmem
    obtain ⟨hne, hnk⟩ := hafter e he
    have hidq : e.deviceId = q.deviceId := congrArg Prod.fst heq
    exact ⟨hidq ▸ hne, hbytes e q heq ▸ hnk⟩

/-- Removing others keeps it. -/
theorem Peers.Pins.filter {doc : Peers} {id : DeviceId} {key : Key} (h : doc.Pins decode id key) (f : Peer → Bool)
    (hf : ∀ p ∈ doc.peers, p.deviceId = id → f p = true) : (Peers.mk (doc.peers.filter f)).Pins decode id key := by
  obtain ⟨before, p, after, hpeers, hid, hkey, hafter⟩ := h
  have hp : f p = true := hf p (by simp [hpeers]) hid
  refine ⟨before.filter f, p, after.filter f, ?_, hid, hkey, fun q hq => hafter q (List.mem_of_mem_filter hq)⟩
  rw [hpeers, List.filter_append, List.filter_cons_of_pos hp]

/-- A pairing puts the device last. -/
theorem Peers.pins_recordPeer (doc : Peers) (paired : Paired) (address : Option String)
    (hround : KeyRoundTrips encode decode paired.publicKey) :
    (doc.recordPeer encode paired address).Pins decode paired.deviceId paired.publicKey := by
  refine ⟨_, _, [], Peers.upsert_peers _ _, Peers.entryFor_deviceId _ _, ?_, fun q hq => by cases hq⟩
  refine Peer.keyBytes_of_roundTrips hround ?_
  rw [Peers.entryFor_eq]
  rfl

/-- The operation neither removes the device, nor gives its id or its key to another. -/
def RegOp.Keeps (registry : PeersFile) (id : DeviceId) (key : Key) : RegOp → Prop
  | .recordPeer paired _ =>
    paired.deviceId = id ∧ paired.publicKey = key ∨ paired.deviceId ≠ id ∧ paired.publicKey ≠ key
  | .unpair name => ∀ doc, registry.load = .ok doc → ∀ p ∈ doc.peers, p.deviceId = id → p.name ≠ name
  | .revoke _ | .record .. => True

/-- The file can be read and pins the device. -/
def PeersFile.Pins (decode : String → Option (List UInt8)) (registry : PeersFile) (id : DeviceId) (key : Key) : Prop :=
  ∃ doc, registry.load = .ok doc ∧ doc.Pins decode id key

theorem PeersFile.Pins.update {registry : PeersFile} {id : DeviceId} {key : Key} {op : RegOp}
    (hround : ∀ key, KeyRoundTrips encode decode key) (h : registry.Pins decode id key)
    (hop : op.Keeps registry id key) : ((op.update encode registry).getD registry).Pins decode id key := by
  rcases RegOp.update_cases encode registry op with ⟨doc, doc', hload, hch, heq⟩ | ⟨-, heq⟩
  · obtain ⟨_, hload', hpins⟩ := h
    obtain rfl : doc = _ := Except.ok.inj (hload.symm.trans hload')
    rw [heq]
    refine ⟨doc', rfl, ?_⟩
    cases op with
    | recordPeer paired address =>
      cases hch
      rcases hop with ⟨rfl, rfl⟩ | ⟨hid, hkey⟩
      · exact doc.pins_recordPeer paired address (hround _)
      · -- the new entry is put behind the others
        obtain ⟨before, p, after, hpeers, hp, hbytes, hafter⟩ := hpins.filter
          (fun q => q.deviceId != paired.deviceId) fun q _ hq => by simpa [hq] using fun he => hid he.symm
        obtain ⟨e, hdoc, heid, hekey⟩ : ∃ e : Peer, (doc.recordPeer encode paired address).peers =
            put Peer.deviceId doc.peers e ∧ e.deviceId = paired.deviceId ∧ e.publicKey = encode paired.publicKey :=
          ⟨_, Peers.upsert_peers _ _, Peers.entryFor_deviceId _ _, by rw [Peers.entryFor_eq]; rfl⟩
        refine ⟨before, p, after ++ [e], ?_, hp, hbytes, fun q hq => ?_⟩
        · dsimp only at hpeers
          rw [hdoc, put, heid, hpeers, List.append_assoc, List.cons_append]
        · rcases List.mem_append.1 hq with hq | hq
          · exact hafter q hq
          · obtain rfl := List.mem_singleton.1 hq
            refine ⟨heid ▸ hid, ?_⟩
            rw [Peer.keyBytes_of_roundTrips (hround _) hekey]
            exact fun he => hkey (Except.ok.inj he)
    | unpair name =>
      simp only [RegOp.change] at hch
      split at hch
      · cases hch
        exact hpins.filter _ fun p hp hid => by simpa using hop doc hload p hp hid
      · cases hch
    | revoke nameOrId => exact hpins.of_map (map_revoke hch fun _ => rfl)
    | record deviceId info authorized => exact hpins.of_map (map_modifyAny hch fun _ => rfl)
  · rwa [heq]

/-- After a pairing, as long as every operation keeps the device. -/
theorem PeersFile.pins_serially {registry : PeersFile} {pre post : List RegOp} {paired : Paired}
    {address : Option String} (hround : ∀ key, KeyRoundTrips encode decode key)
    (hload : ∃ doc, registry.load = .ok doc)
    (hpost : ∀ mid op rest, post = mid ++ op :: rest →
      op.Keeps (applyOps encode registry (pre ++ .recordPeer paired address :: mid)) paired.deviceId paired.publicKey) :
    (applyOps encode registry (pre ++ .recordPeer paired address :: post)).Pins decode paired.deviceId
      paired.publicKey := by
  induction post using List.reverseRecOn with
  | nil =>
    obtain ⟨doc, hdoc⟩ : ∃ doc, (applyOps encode registry pre).load = .ok doc := load_serially pre hload
    rw [applyOps, serially_snoc]
    refine ⟨doc.recordPeer encode paired address, ?_, doc.pins_recordPeer paired address (hround _)⟩
    rw [RegOp.update, hdoc]
    rfl
  | append_singleton post op ih =>
    have hlast := hpost post op [] rfl
    have hpins := ih fun mid op' rest heq => hpost mid op' (rest ++ [op]) (by rw [heq]; simp)
    rw [← List.cons_append, ← List.append_assoc, applyOps, serially_snoc]
    exact hpins.update hround hlast

end Pins

/-! ### The connection -/

/-- The `Hello` of a daemon. -/
def LocalInfo.hello (info : LocalInfo) : Hello := ⟨protocolVersion, info.deviceId, info.deviceName, Caps.all⟩

/-- `x` dials `y`: it pins the key of `y`, both accept the certificate of the other, and both `Hello` checks pass. -/
structure Connects (rosterX rosterY : RosterInner) (x y : LocalInfo) : Prop where
  expect : rosterX.keyForId y.deviceId = some y.publicKey
  server : secureConnect y.publicKey ⟨.ok y.publicKey, true⟩ = some y.publicKey
  client : rosterY.isTrustedKey x.publicKey = true
  dialer : handshake x.hello (some y.deviceId) (some (.ok (.hello y.hello))) = .ok ⟨y.hello, Caps.all⟩
  acceptor : handshake y.hello ((rosterY.peerForKey x.publicKey).map (·.deviceId)) (some (.ok (.hello x.hello))) =
    .ok ⟨x.hello, Caps.all⟩

theorem handshake_hello (own peer : LocalInfo) :
    handshake own.hello (some peer.deviceId) (some (.ok (.hello peer.hello))) = .ok ⟨peer.hello, Caps.all⟩ := by
  simp [handshake, LocalInfo.hello, Caps.intersect, Caps.all]

theorem secureConnect_self (key : Key) : secureConnect key ⟨.ok key, true⟩ = some key := by
  have heq : ctEq key key = true := ctEq_iff.2 rfl
  simp [secureConnect, verifyServerCert, heq]

theorem connects {rosterX rosterY : RosterInner} {x y : LocalInfo}
    (hx : rosterX.keyForId y.deviceId = some y.publicKey)
    (hy : ∃ p, rosterY.peerForKey x.publicKey = some p ∧ p.deviceId = x.deviceId) : Connects rosterX rosterY x y := by
  obtain ⟨p, hp, hid⟩ := hy
  refine ⟨hx, secureConnect_self _, ?_, handshake_hello x y, ?_⟩
  · rw [RosterInner.isTrustedKey, ← RosterInner.peerForKey, hp]
    rfl
  · rw [hp, Option.map_some, hid]
    exact handshake_hello y x

/-- Of two devices exactly one dials the other. -/
theorem exists_dialer (id : PairRole → DeviceId) (h : id .offerer ≠ id .requester) :
    ∃ r, roleFor (id r) (id r.other) = .dialer ∧ roleFor (id r.other) (id r) = .acceptor := by
  have hroles : ∀ r, id r < id r.other →
      roleFor (id r) (id r.other) = .dialer ∧ roleFor (id r.other) (id r) = .acceptor := by
    intro r hlt
    exact ⟨if_pos hlt, if_neg (String.lt_asymm hlt)⟩
  by_cases hlt : id .offerer < id .requester
  · exact ⟨.offerer, hroles .offerer hlt⟩
  · refine ⟨.requester, hroles .requester ?_⟩
    by_contra hge
    exact h (String.le_antisymm (String.not_lt.1 hge) (String.not_lt.1 hlt))

/-- An honest pairing of two devices with different ids whose payloads fit ends with both sides knowing each other.
Where the registries can be read and both sides record the pairing among other operations, none of which loads or saves
in between another's load and save, and none later takes the other device out, the rosters loaded from the registries
connect the two. -/
theorem pairing_connects (P : PairCrypto) (H : HonestPairing P) (hc : H.Correct)
    (encode : Key → String) (decode : String → Option (List UInt8)) (hround : ∀ key, KeyRoundTrips encode decode key)
    (hfits : ∀ r, (H.info r).packLen ≤ maxPairFrame)
    (hids : (H.info .offerer).deviceId ≠ (H.info .requester).deviceId) (es : List HonestEvent) (s : HonestPair)
    (hr : Run H.step Always .start es s) (hstuck : Stuck H.step s) (resolver : Resolver)
    (registry : PairRole → PeersFile) (edits : PairRole → List (Access RegOp))
    (file : PairRole → Shared PeersFile RegOp) (hload : ∀ r, ∃ doc, (registry r).load = .ok doc)
    (hedits : ∀ r, Run (registryStep encode) Exclusive (Shared.start (registry r)) (edits r) (file r))
    (hrecord : ∀ r, ∃ pre paired address post, (file r).done = pre ++ .recordPeer paired address :: post ∧
      (s.calls r).phase = .returned (.ok paired) ∧ ∀ mid op rest, post = mid ++ op :: rest →
        op.Keeps (applyOps encode (registry r) (pre ++ .recordPeer paired address :: mid)) paired.deviceId
          paired.publicKey) :
    ∃ doc : PairRole → Peers, (∀ r, (file r).cell.load = .ok (doc r)) ∧
      ∃ r, roleFor (H.info r).deviceId (H.info r.other).deviceId = .dialer ∧
        roleFor (H.info r.other).deviceId (H.info r).deviceId = .acceptor ∧
        Connects (.load decode resolver (doc r)) (.load decode resolver (doc r.other)) (H.info r)
          (H.info r.other) := by
  obtain ⟨-, hok⟩ := HonestPairing.ok_iff_fits hc hr hstuck
  have hpaired := hok.2 hfits
  have hpins : ∀ r, (file r).cell.Pins decode (H.info r.other).deviceId (H.info r.other).publicKey := by
    intro r
    obtain ⟨pre, paired, address, post, hdone, hphase, hpost⟩ := hrecord r
    obtain rfl : paired = (H.info r.other).paired := by
      rw [hpaired r] at hphase
      cases hphase
      rfl
    rw [serial_of_exclusive (hedits r), hdone]
    exact PeersFile.pins_serially hround (hload r) hpost
  choose doc hdoc hdocPins using hpins
  obtain ⟨r, hdial, haccept⟩ := exists_dialer (fun r => (H.info r).deviceId) hids
  refine ⟨doc, hdoc, r, hdial, haccept, connects ((hdocPins r).load resolver).1 ?_⟩
  have hother := ((hdocPins r.other).load resolver).2
  rwa [PairRole.other_other] at hother

/-! ### A recorded exchange -/

private def deafResolver : Resolver := ⟨fun _ => none, fun _ => none, fun _ => none⟩

/-- What a side records in an empty registry. -/
private def recordedBy (r : PairRole) : RegOp := .recordPeer (infoOf r.other).paired none

private theorem recordedBy_run (r : PairRole) :
    ∃ file, Run (registryStep keyText) Exclusive (Shared.start .absent) [.load 0 (recordedBy r), .save 0] file ∧
      file.cell = .document (Peers.recordPeer keyText ⟨[]⟩ (infoOf r.other).paired none) ∧
      file.done = [recordedBy r] := by
  obtain ⟨file, hrun, hdone⟩ := run_of_exec_checked (registryStep keyText) Exclusive (Shared.start .absent)
    [.load 0 (recordedBy r), .save 0] (fun s => s.done) [recordedBy r] (by cases r <;> decide)
  refine ⟨file, hrun, ?_, hdone⟩
  rw [serial_of_exclusive hrun, hdone]
  rfl

/-- The two devices of the recorded exchange, with empty registries before it. -/
theorem pairing_connects_recorded :
    ∃ r, roleFor (infoOf r).deviceId (infoOf r.other).deviceId = .dialer ∧
      Connects (.load keyOfText deafResolver (Peers.recordPeer keyText ⟨[]⟩ (infoOf r.other).paired none))
        (.load keyOfText deafResolver (Peers.recordPeer keyText ⟨[]⟩ (infoOf r).paired none))
        (infoOf r) (infoOf r.other) := by
  obtain ⟨n, hn⟩ := HonestPairing.run_bounded pairAB_correct
  obtain ⟨es, s, hr, hstuck⟩ := exists_stuck hn
  have hfits : ∀ r, (infoOf r).packLen ≤ maxPairFrame := fun r => by cases r <;> decide +kernel
  have hpaired := (HonestPairing.ok_iff_fits pairAB_correct hr hstuck).2.2 hfits
  choose file hrun hcell hdone using recordedBy_run
  obtain ⟨doc, hdoc, r, hdial, -, hconnects⟩ := pairing_connects recorded _ pairAB_correct keyText keyOfText
    keyRoundTrips hfits (by decide) es s hr hstuck deafResolver (fun _ => .absent)
    (fun r => [.load 0 (recordedBy r), .save 0]) file (fun _ => ⟨_, rfl⟩) hrun
    fun r => ⟨[], (infoOf r.other).paired, none, [], hdone r, hpaired r, fun mid op rest h => by simp at h⟩
  have heq : ∀ r, doc r = Peers.recordPeer keyText ⟨[]⟩ (infoOf r.other).paired none := by
    intro r
    have hload := hdoc r
    rw [hcell r] at hload
    exact (Except.ok.inj hload).symm
  rw [heq r, heq r.other, PairRole.other_other] at hconnects
  exact ⟨r, hdial, hconnects⟩

end Qdrop
