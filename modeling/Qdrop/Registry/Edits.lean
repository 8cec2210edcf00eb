import Qdrop.Lib.Keyed
import Qdrop.Lib.Run
import Qdrop.Peers

/-!
# Histories of the registry

What `upsert` and `remove_by_name` make of the registry, from the empty one and in any order.  The list is keyed by
device id, and as a map it does what one expects of it (`registry_is_map`).  The names are another matter: a name that
another device has is extended by the beginning of the id once, and the result is not looked up again.
`names_distinct_iff` says that this is the only way to get one name twice.
-/

namespace Qdrop

open Lib

inductive RegistryEdit where
  | upsert (peer : Peer)
  | removeByName (name : String)
deriving DecidableEq, Repr

def RegistryEdit.apply (doc : Peers) : RegistryEdit → Peers
  | .upsert peer => doc.upsert peer
  | .removeByName name => (doc.removeByName name).1

abbrev editStep (doc : Peers) (e : RegistryEdit) : Option Peers := some (e.apply doc)

/-- The registry after these edits of the empty one. -/
def Peers.edited (es : List RegistryEdit) : Peers := es.foldl RegistryEdit.apply ⟨[]⟩

/-- The entry with the short suffix. -/
def Peer.suffixed (peer : Peer) : Peer :=
  let suffix := String.ofList (peer.deviceId.toList.take 6)
  { peer with name := s!"{peer.name}-{suffix}" }

namespace Peers

/-- Another device has this name. -/
def taken (doc : Peers) (name : String) (deviceId : DeviceId) : Bool :=
  doc.peers.any fun p => p.name == name && p.deviceId != deviceId

/-- The entry `upsert` makes of `peer`. -/
def entryFor (doc : Peers) (peer : Peer) : Peer := if doc.taken peer.name peer.deviceId then peer.suffixed else peer

/-- No device id is listed twice. -/
def IdsDistinct (doc : Peers) : Prop := Keyed Peer.deviceId doc.peers

/-- No name is listed twice. -/
def NamesDistinct (doc : Peers) : Prop := Keyed Peer.name doc.peers

instance (doc : Peers) : Decidable doc.NamesDistinct := inferInstanceAs (Decidable (doc.peers.map Peer.name).Nodup)

@[simp] theorem entryFor_deviceId (doc : Peers) (peer : Peer) : (doc.entryFor peer).deviceId = peer.deviceId := by
  unfold entryFor
  split <;> rfl

/-- Only the name is changed. -/
theorem entryFor_eq (doc : Peers) (peer : Peer) :
    doc.entryFor peer = { peer with name := (doc.entryFor peer).name } := by
  unfold entryFor
  split <;> rfl

theorem entryFor_name (doc : Peers) (peer : Peer) :
    (doc.entryFor peer).name = peer.name ∨ (doc.entryFor peer).name = peer.suffixed.name := by
  unfold entryFor
  split
  · exact Or.inr rfl
  · exact Or.inl rfl

theorem taken_eq_true {doc : Peers} {name : String} {deviceId : DeviceId} :
    doc.taken name deviceId = true ↔ ∃ p ∈ doc.peers, p.name = name ∧ p.deviceId ≠ deviceId := by
  simp [taken]

theorem upsert_peers (doc : Peers) (peer : Peer) :
    (doc.upsert peer).peers = put Peer.deviceId doc.peers (doc.entryFor peer) := by
  have hany : ((doc.peers.filter fun p => p.deviceId != peer.deviceId).any fun p =>
      p.name == peer.name && p.deviceId != peer.deviceId) = doc.taken peer.name peer.deviceId := by
    rw [Bool.eq_iff_iff, taken_eq_true]
    simp only [List.any_eq_true, List.mem_filter, bne_iff_ne, Bool.and_eq_true, beq_iff_eq]
    tauto
  unfold upsert
  dsimp only
  rw [hany, put, entryFor_deviceId, entryFor]
  rfl

theorem removeByName_peers (doc : Peers) (name : String) :
    (doc.removeByName name).1.peers = doc.peers.filter fun p => p.name != name := rfl

/-! ### Device ids -/

theorem IdsDistinct.apply {doc : Peers} (h : doc.IdsDistinct) (e : RegistryEdit) : (e.apply doc).IdsDistinct := by
  cases e with
  | upsert peer =>
    rw [RegistryEdit.apply, IdsDistinct, upsert_peers]
    exact Keyed.put h _
  | removeByName name => exact Keyed.filter h _

theorem idsDistinct_edited (es : List RegistryEdit) : (edited es).IdsDistinct := by
  induction es using List.reverseRecOn with
  | nil => exact Keyed.nil
  | append_singleton es e ih =>
    rw [edited, List.foldl_append]
    exact ih.apply e

theorem findById_upsert (doc : Peers) (peer : Peer) (id : DeviceId) :
    (doc.upsert peer).findById id = if id = peer.deviceId then some (doc.entryFor peer) else doc.findById id := by
  rw [findById, upsert_peers, find?_put, entryFor_deviceId]
  rfl

theorem findById_removeByName {doc : Peers} (h : doc.IdsDistinct) (name : String) (id : DeviceId) :
    (doc.removeByName name).1.findById id = (doc.findById id).filter fun p => p.name != name :=
  find?_filter h _ id

theorem findById_eq_some {doc : Peers} (h : doc.IdsDistinct) {id : DeviceId} {p : Peer} :
    doc.findById id = some p ↔ p ∈ doc.peers ∧ p.deviceId = id :=
  find?_eq_some_iff h

end Peers

/-! ### The registry as a map -/

/-- The edit is an upsert of this device. -/
def RegistryEdit.upserts (id : DeviceId) : RegistryEdit → Prop
  | .upsert peer => peer.deviceId = id
  | .removeByName _ => False

/-- Without an upsert of the device, its entry stays until its name is removed. -/
private theorem findById_edits {doc : Peers} {id : DeviceId} {es : List RegistryEdit} (h : doc.IdsDistinct)
    (hes : ∀ e ∈ es, ¬ e.upserts id) :
    (es.foldl RegistryEdit.apply doc).findById id =
      (doc.findById id).filter fun p => decide (.removeByName p.name ∉ es) := by
  induction es generalizing doc with
  | nil =>
    rw [List.foldl_nil]
    cases doc.findById id with
    | none => rfl
    | some p => simp [Option.filter]
  | cons e es ih =>
    rw [List.foldl_cons, ih (h.apply e) fun e he => hes e (List.mem_cons_of_mem _ he)]
    cases e with
    | upsert peer =>
      have hne : id ≠ peer.deviceId := fun heq => hes _ (List.mem_cons_self ..) heq.symm
      rw [RegistryEdit.apply, Peers.findById_upsert, if_neg hne]
      congr 1
      funext p
      simp
    | removeByName name =>
      rw [RegistryEdit.apply, Peers.findById_removeByName h, Option.filter_filter]
      congr 1
      funext p
      rw [bne, beq_eq_decide]
      simp [eq_comm]

/-- The key decodes to what was encoded. -/
def KeyRoundTrips (encode : Key → String) (decode : String → Option (List UInt8)) (key : Key) : Prop :=
  decode (String.ofList (trim (encode key).toList)) = some key.toList

theorem Peer.keyBytes_of_roundTrips {encode : Key → String} {decode : String → Option (List UInt8)} {key : Key}
    {p : Peer} (h : KeyRoundTrips encode decode key) (hp : p.publicKey = encode key) : p.keyBytes decode = .ok key := by
  unfold KeyRoundTrips at h
  unfold Peer.keyBytes
  rw [hp, h]
  simp [Vector.toArray_toList]

/-- After any edits of the empty registry no device id is listed twice, and `find_by_id` finds nothing for an id that
was never upserted or whose entry was removed by its name after the last upsert, and otherwise the peer last upserted,
as given except for the name, which may have been extended.  An upsert changes no other device's entry. -/
theorem registry_is_map (encode : Key → String) (decode : String → Option (List UInt8)) (es : List RegistryEdit)
    (id : DeviceId) :
    (Peers.edited es).IdsDistinct ∧
    ((∀ e ∈ es, ¬ e.upserts id) → (Peers.edited es).findById id = none) ∧
    (∀ pre peer post, es = pre ++ .upsert peer :: post → peer.deviceId = id → (∀ e ∈ post, ¬ e.upserts id) →
      ∃ name, name = ((Peers.edited pre).entryFor peer).name ∧ (name = peer.name ∨ name = peer.suffixed.name) ∧
        (.removeByName name ∈ post → (Peers.edited es).findById id = none) ∧
        (.removeByName name ∉ post → (Peers.edited es).findById id = some { peer with name := name }) ∧
        ∀ key, KeyRoundTrips encode decode key → peer.publicKey = encode key →
          ({ peer with name := name } : Peer).keyBytes decode = .ok key) ∧
    ∀ peer : Peer, peer.deviceId ≠ id →
      ((Peers.edited es).upsert peer).findById id = (Peers.edited es).findById id := by
  refine ⟨Peers.idsDistinct_edited es, fun hnone => ?_, ?_, fun peer hne => ?_⟩
  · rw [Peers.edited, findById_edits Keyed.nil hnone]
    rfl
  · rintro pre peer post rfl rfl hpost
    have hfind : (Peers.edited (pre ++ .upsert peer :: post)).findById peer.deviceId =
        (some ((Peers.edited pre).entryFor peer)).filter fun p => decide (.removeByName p.name ∉ post) := by
      have hids := (Peers.idsDistinct_edited pre).apply (.upsert peer)
      rw [Peers.edited, List.foldl_append, List.foldl_cons, ← Peers.edited, findById_edits hids hpost]
      congr 1
      exact (Peers.findById_upsert _ _ _).trans (if_pos rfl)
    refine ⟨_, rfl, Peers.entryFor_name _ _, fun hmem => ?_, fun hmem => ?_, fun key hkey hp => ?_⟩
    · rw [hfind]
      simp [hmem]
    · rw [hfind, ← Peers.entryFor_eq]
      simp [hmem]
    · exact Peer.keyBytes_of_roundTrips hkey hp
  · rw [Peers.findById_upsert, if_neg (Ne.symm hne)]

/-- Base64 of thirty-two bytes 1 and of thirty-two bytes 2, without padding. -/
private def encodeKey (key : Key) : String :=
  if key = Vector.replicate 32 1 then "AQEBAQEBAQEBAQEBAQEBAQEBAQEBAQEBAQEBAQEBAQE"
  else "AgICAgICAgICAgICAgICAgICAgICAgICAgICAgICAgI"

private def decodeKey (text : String) : Option (List UInt8) :=
  if text = "AQEBAQEBAQEBAQEBAQEBAQEBAQEBAQEBAQEBAQEBAQE" then some (List.replicate 32 1)
  else some (List.replicate 32 2)

private def keyed (name : String) (deviceId : DeviceId) (byte : UInt8) : RegistryEdit :=
  .upsert (.new encodeKey name deviceId (Vector.replicate 32 byte))

/-- A device that was paired again under another name, with a new key. -/
theorem registry_is_map_rekeyed :
    ∃ p, (Peers.edited [keyed "desk" "aaa" 1, keyed "box" "bbb" 1, keyed "box" "aaa" 2]).findById "aaa" = some p ∧
      p.name = "box-aaa" ∧ p.keyBytes decodeKey = .ok (Vector.replicate 32 2) := by
  obtain ⟨-, -, hlast, -⟩ := registry_is_map encodeKey decodeKey
    [keyed "desk" "aaa" 1, keyed "box" "bbb" 1, keyed "box" "aaa" 2] "aaa"
  obtain ⟨name, hname, -, -, hfind, hkey⟩ := hlast [keyed "desk" "aaa" 1, keyed "box" "bbb" 1] _ [] rfl rfl (by simp)
  have hround : KeyRoundTrips encodeKey decodeKey (Vector.replicate 32 2) := by
    unfold KeyRoundTrips
    decide +kernel
  refine ⟨_, hfind List.not_mem_nil, ?_, hkey _ hround rfl⟩
  rw [hname]
  decide +kernel

/-! ### Names -/

/-- Names are unambiguous: none is listed twice, and a removal by name removes at most one device. -/
def Unambiguous (doc : Peers) : Prop :=
  doc.NamesDistinct ∧ ∀ name, doc.peers.length ≤ (doc.removeByName name).1.peers.length + 1

/-- Where the name of the peer is taken, the extended name is not. -/
def SuffixFree (doc : Peers) : RegistryEdit → Prop
  | .upsert peer => doc.taken peer.name peer.deviceId = true → doc.taken peer.suffixed.name peer.deviceId = false
  | .removeByName _ => True

instance (doc : Peers) : (e : RegistryEdit) → Decidable (SuffixFree doc e)
  | .upsert peer => inferInstanceAs (Decidable
    (doc.taken peer.name peer.deviceId = true → doc.taken peer.suffixed.name peer.deviceId = false))
  | .removeByName _ => inferInstanceAs (Decidable True)

/-- At most one entry has a given name. -/
private theorem length_le_removeByName {doc : Peers} (h : doc.NamesDistinct) (name : String) :
    doc.peers.length ≤ (doc.removeByName name).1.peers.length + 1 := by
  have hsplit := List.length_eq_length_filter_add (l := doc.peers) fun p => p.name != name
  have hone : (doc.peers.filter fun p => !(p.name != name)).length ≤ 1 := by
    rw [← List.countP_eq_length_filter]
    have hcount := List.nodup_iff_count_le_one.1 h name
    rw [List.count, List.countP_map] at hcount
    refine le_trans (le_of_eq ?_) hcount
    congr 1
    funext p
    simp [bne]
  rw [Peers.removeByName_peers]
  omega

private theorem unambiguous_iff {doc : Peers} : Unambiguous doc ↔ doc.NamesDistinct :=
  ⟨fun h => h.1, fun h => ⟨h, length_le_removeByName h⟩⟩

/-- The names stay distinct exactly when the name of the new entry is not taken. -/
private theorem namesDistinct_upsert {doc : Peers} (h : doc.NamesDistinct) (peer : Peer) :
    (doc.upsert peer).NamesDistinct ↔ doc.taken (doc.entryFor peer).name peer.deviceId = false := by
  rw [Peers.NamesDistinct, Peers.upsert_peers, put, Keyed.append_iff, ← Bool.not_eq_true, Peers.taken_eq_true,
    Peers.entryFor_deviceId]
  constructor
  · rintro ⟨-, hne⟩ ⟨p, hp, hn, hid⟩
    exact hne p (List.mem_filter.2 ⟨hp, by simpa using hid⟩) hn
  · intro hno
    refine ⟨Keyed.filter h _, fun p hp hn => ?_⟩
    obtain ⟨hp, hid⟩ := List.mem_filter.1 hp
    exact hno ⟨p, hp, hn, by simpa using hid⟩

private theorem unambiguous_apply {doc : Peers} {e : RegistryEdit} (h : doc.NamesDistinct) :
    (e.apply doc).NamesDistinct ↔ SuffixFree doc e := by
  cases e with
  | upsert peer =>
    rw [RegistryEdit.apply, namesDistinct_upsert h, SuffixFree, Peers.entryFor]
    by_cases htaken : doc.taken peer.name peer.deviceId = true
    · rw [if_pos htaken]
      exact ⟨fun hfree _ => hfree, fun hfree => hfree htaken⟩
    · rw [if_neg htaken]
      exact iff_of_true (by simpa using htaken) fun ht => absurd ht htaken
  | removeByName name => exact iff_of_true (Keyed.filter h _) trivial

/-- In every registry on the way no name is listed twice, so that a removal by name removes at most one device, if and
only if every upsert of a peer whose name another device has finds the extended name free. -/
theorem names_distinct_iff {es : List RegistryEdit} {doc : Peers} (hr : Run editStep Always ⟨[]⟩ es doc) :
    Throughout editStep Unambiguous ⟨[]⟩ es ↔ Run editStep SuffixFree ⟨[]⟩ es doc := by
  refine hr.throughout_iff (I := fun _ => True) trivial (unambiguous_iff.2 Keyed.nil) (fun _ _ _ _ _ => trivial) ?_
  rintro s e t - hP hs
  cases hs
  rw [unambiguous_iff] at hP ⊢
  exact unambiguous_apply hP

/-- Two devices of one name, the second of which was removed and paired again. -/
private def boxes : List RegistryEdit :=
  [keyed "box" "aaaaaaaa" 1, keyed "box" "bbbbbbbb" 2, .removeByName "box-bbbbbb", keyed "box" "bbbbbbbb" 2]

theorem names_distinct_iff_boxes :
    ∃ doc, Run editStep Always ⟨[]⟩ boxes doc ∧ doc.peers.map Peer.name = ["box", "box-bbbbbb"] ∧
      Throughout editStep Unambiguous ⟨[]⟩ boxes := by
  obtain ⟨doc, hr, hview⟩ := run_of_exec_checked editStep SuffixFree ⟨[]⟩ boxes (fun doc => doc.peers.map Peer.name)
    ["box", "box-bbbbbb"] (by decide +kernel)
  exact ⟨doc, hr.always, hview, (names_distinct_iff hr.always).2 hr⟩

/-- Three devices of one name, where the ids of the last two begin alike: both are `box-bbbbbb`, and one removal by
that name removes both. -/
theorem repaired_name_taken :
    ¬ ∀ (es : List RegistryEdit) (doc : Peers), Run editStep Always ⟨[]⟩ es doc → Unambiguous doc := by
  intro h
  obtain ⟨doc, hr, hview⟩ := run_of_exec_view editStep (fun _ => True) ⟨[]⟩
    [keyed "box" "aaaaaaaa" 1, keyed "box" "bbbbbb1" 2, keyed "box" "bbbbbb2" 2]
    (fun doc => (doc.peers.length, (doc.removeByName "box-bbbbbb").1.peers.length)) (3, 1) (fun _ _ => trivial)
    (by decide +kernel)
  have hle := (h _ doc hr.always).2 "box-bbbbbb"
  simp only [Prod.mk.injEq] at hview
  omega

end Qdrop
