import Mathlib.Data.List.Permutation
import Qdrop.Auth
import Qdrop.Lib.LoadSave
import Qdrop.Pairing.Exchange

/-!
# Concurrent updates of `peers.toml`

Pairing, unpairing and revoking (the CLI, `qdrop/src/main.rs`) and recording an authorization (the daemon) each load
the document, change it and save it, without a lock around the three.  Each save replaces the file atomically, so
the file is always one process's document, but a save throws away what others saved since the load
(`unpair_is_lost`).  `registry_updates` says what is left: some of the operations, applied in the order of their
completion, and all of them when no save falls between the load and the save of another operation.
-/

namespace Qdrop

open Lib

/-- The operations on the registry. -/
inductive RegOp where
  | recordPeer (paired : Paired) (address : Option String)
  | unpair (name : String)
  | revoke (nameOrId : String)
  | record (deviceId : DeviceId) (info : DeviceInfo) (authorized : Bool)
deriving DecidableEq, Repr

/-- `record_peer`: a previously configured address is kept if this pairing did not supply one. -/
def Peers.recordPeer (encode : Key → String) (doc : Peers) (paired : Paired) (address : Option String) : Peers :=
  doc.upsert { Peer.new encode paired.deviceName paired.deviceId paired.publicKey with
    address := address.or ((doc.findById paired.deviceId).bind (·.address)) }

/-- The document an operation saves after loading `doc`; `none` when it saves nothing. -/
def RegOp.change (encode : Key → String) (doc : Peers) : RegOp → Option Peers
  | .recordPeer paired address => some (doc.recordPeer encode paired address)
  | .unpair name => if (doc.removeByName name).2 then some (doc.removeByName name).1 else none
  | .revoke nameOrId => doc.revoke nameOrId
  | .record deviceId info authorized => doc.recordLabel deviceId info authorized

/-- The same on the file; an operation that cannot load the file saves nothing. -/
def RegOp.update (encode : Key → String) (registry : PeersFile) (op : RegOp) : Option PeersFile :=
  match registry.load with
  | .ok doc => (op.change encode doc).map PeersFile.document
  | .error _ => none

/-- The processes at work on the file. -/
abbrev registryStep (encode : Key → String) : Shared PeersFile RegOp → Access RegOp → Option (Shared PeersFile RegOp) :=
  access (RegOp.update encode)

abbrev applyOps (encode : Key → String) : PeersFile → List RegOp → PeersFile := serially (RegOp.update encode)

/-! ### Which devices are listed -/

/-- The device ids of the entries. -/
def Peers.ids (doc : Peers) : List DeviceId := doc.peers.map (·.deviceId)

/-- The file lists an entry with this id. -/
def Lists (registry : PeersFile) (id : DeviceId) : Prop := ∃ doc, registry.load = .ok doc ∧ id ∈ doc.ids

/-- Every entry with this id has this name. -/
def NamedAs (registry : PeersFile) (id : DeviceId) (name : String) : Prop :=
  ∀ doc, registry.load = .ok doc → ∀ e ∈ doc.peers, e.deviceId = id → e.name = name

/-- The operation is a pairing of this device. -/
def RegOp.pairs (id : DeviceId) : RegOp → Prop
  | .recordPeer paired _ => paired.deviceId = id
  | _ => False

variable {encode : Key → String}

private theorem ids_upsert (doc : Peers) (peer : Peer) :
    (doc.upsert peer).ids = doc.ids.filter (· != peer.deviceId) ++ [peer.deviceId] := by
  simp only [Peers.ids, Peers.upsert, List.map_append, List.filter_map, List.map_cons, List.map_nil]
  congr 1
  split <;> rfl

/-- Labelling and revoking change only the flag and the label. -/
theorem map_modifyAny {α : Type} {g : Peer → α} {doc doc' : Peers} {s : String} {f : Peer → Peer}
    (h : doc.modifyAny s f = some doc') (hf : ∀ q, g (f q) = g q) : doc'.peers.map g = doc.peers.map g := by
  obtain ⟨as, e, bs, hdoc, hdoc', -, -⟩ := Peers.modifyAny_eq_some h
  simp [hdoc, hdoc', hf]

theorem map_revoke {α : Type} {g : Peer → α} {doc doc' : Peers} {x : String} (h : doc.revoke x = some doc')
    (hg : ∀ q, g { q with authorized := false } = g q) : doc'.peers.map g = doc.peers.map g := by
  unfold Peers.revoke at h
  split at h
  · split at h
    · exact map_modifyAny h hg
    · cases h
  · cases h

private theorem mem_ids_removeByName {doc : Peers} {name : String} {id : DeviceId} :
    id ∈ (doc.removeByName name).1.ids ↔ ∃ e ∈ doc.peers, e.deviceId = id ∧ e.name ≠ name := by
  simp only [Peers.ids, Peers.removeByName, List.mem_map, List.mem_filter, bne_iff_ne]
  constructor
  · rintro ⟨e, ⟨he, hn⟩, hid⟩
    exact ⟨e, he, hid, hn⟩
  · rintro ⟨e, he, hid, hn⟩
    exact ⟨e, ⟨he, hn⟩, hid⟩

/-- An operation on the file changes the document, or leaves the file alone. -/
theorem RegOp.update_cases (encode : Key → String) (registry : PeersFile) (op : RegOp) :
    (∃ doc doc', registry.load = .ok doc ∧ op.change encode doc = some doc' ∧
      (op.update encode registry).getD registry = .document doc') ∨
    ((∀ doc, registry.load = .ok doc → op.change encode doc = none) ∧
      (op.update encode registry).getD registry = registry) := by
  unfold RegOp.update
  cases hload : registry.load with
  | error err => exact Or.inr ⟨by simp, rfl⟩
  | ok doc =>
    cases hch : op.change encode doc with
    | some doc' => exact Or.inl ⟨doc, doc', rfl, hch, by simp [hch]⟩
    | none => exact Or.inr ⟨by simp [hch], by simp [hch]⟩

/-- Only a pairing of the device adds it. -/
private theorem lists_of_update {registry : PeersFile} {op : RegOp} {id : DeviceId} (hop : ¬ op.pairs id)
    (h : Lists ((op.update encode registry).getD registry) id) : Lists registry id := by
  rcases RegOp.update_cases encode registry op with ⟨doc, doc', hload, hch, heq⟩ | ⟨-, heq⟩
  · rw [heq] at h
    obtain ⟨_, hd, hid⟩ := h
    cases hd
    refine ⟨doc, hload, ?_⟩
    cases op with
    | recordPeer paired address =>
      cases hch
      rw [Peers.recordPeer, ids_upsert] at hid
      rcases List.mem_append.1 hid with hid | hid
      · exact (List.mem_filter.1 hid).1
      · exact absurd (List.mem_singleton.1 hid).symm hop
    | unpair name =>
      simp only [RegOp.change] at hch
      split at hch
      · cases hch
        obtain ⟨e, he, hid, -⟩ := mem_ids_removeByName.1 hid
        exact List.mem_map.2 ⟨e, he, hid⟩
      · cases hch
    | revoke x => rwa [Peers.ids, map_revoke hch fun _ => rfl] at hid
    | record deviceId info authorized => rwa [Peers.ids, map_modifyAny hch fun _ => rfl] at hid
  · rwa [heq] at h

/-- Only an unpairing of all its entries removes a device. -/
private theorem update_lists {registry : PeersFile} {op : RegOp} {id : DeviceId}
    (hop : ∀ n, op = .unpair n → ¬ NamedAs registry id n) (h : Lists registry id) :
    Lists ((op.update encode registry).getD registry) id := by
  rcases RegOp.update_cases encode registry op with ⟨doc, doc', hload, hch, heq⟩ | ⟨-, heq⟩
  · rw [heq]
    obtain ⟨_, hd, hid⟩ := h
    rw [hload] at hd
    cases hd
    refine ⟨doc', rfl, ?_⟩
    cases op with
    | recordPeer paired address =>
      cases hch
      rw [Peers.recordPeer, ids_upsert]
      by_cases hp : id = paired.deviceId
      · exact List.mem_append_right _ (by simp [hp, Peer.new])
      · exact List.mem_append_left _ (List.mem_filter.2 ⟨hid, by simpa [Peer.new] using hp⟩)
    | unpair name =>
      simp only [RegOp.change] at hch
      split at hch
      · cases hch
        rw [mem_ids_removeByName]
        by_contra hno
        refine hop name rfl (fun doc' hload' e he hid' => ?_)
        rw [hload] at hload'
        cases hload'
        by_contra hn
        exact hno ⟨e, he, hid', hn⟩
      · cases hch
    | revoke x => rwa [Peers.ids, map_revoke hch fun _ => rfl]
    | record deviceId info authorized => rwa [Peers.ids, map_modifyAny hch fun _ => rfl]
  · rwa [heq]

/-- Unpairing a device by the name of its entries removes it. -/
private theorem not_lists_unpair {registry : PeersFile} {id : DeviceId} {name : String}
    (h : NamedAs registry id name) :
    ¬ Lists (((RegOp.unpair name).update encode registry).getD registry) id := by
  rcases RegOp.update_cases encode registry (.unpair name) with ⟨doc, doc', hload, hch, heq⟩ | ⟨hno, heq⟩
  · rw [heq]
    rintro ⟨_, hd, hid⟩
    cases hd
    simp only [RegOp.change] at hch
    split at hch
    · cases hch
      obtain ⟨e, he, hid, hn⟩ := mem_ids_removeByName.1 hid
      exact hn (h doc hload e he hid)
    · cases hch
  · rw [heq]
    rintro ⟨doc, hload, hid⟩
    -- nothing was removed, so no entry has the name, hence none has the id
    obtain ⟨e, he, hid⟩ := List.mem_map.1 hid
    have hn := h doc hload e he hid
    have hch : ((doc.removeByName name).2 = true) = False := by
      have hch := hno doc hload
      simp only [RegOp.change] at hch
      split at hch
      · cases hch
      · simp_all
    have hlen : (doc.peers.filter (fun p => p.name != name)).length = doc.peers.length := by
      simpa [Peers.removeByName] using hch
    have hkept := List.length_filter_eq_length_iff.1 hlen e he
    simp [hn] at hkept

/-! ### Runs -/

/-- A device that was unpaired and not paired since is not listed. -/
private theorem not_lists_serially {registry : PeersFile} {id : DeviceId} {ops : List RegOp}
    (hops : ∀ op ∈ ops, ¬ op.pairs id) (h : ¬ Lists registry id) : ¬ Lists (applyOps encode registry ops) id := by
  induction ops generalizing registry with
  | nil => exact h
  | cons op ops ih =>
    apply ih (fun o ho => hops o (List.mem_cons_of_mem _ ho))
    exact fun hl => h (lists_of_update (hops op (List.mem_cons_self ..)) hl)

/-- A device that was paired and not unpaired since is listed. -/
private theorem lists_serially {registry : PeersFile} {id : DeviceId} {ops : List RegOp}
    (hops : ∀ mid n post, ops = mid ++ .unpair n :: post → ¬ NamedAs (applyOps encode registry mid) id n)
    (h : Lists registry id) : Lists (applyOps encode registry ops) id := by
  induction ops generalizing registry with
  | nil => exact h
  | cons op ops ih =>
    apply ih
    · intro mid n post heq
      exact hops (op :: mid) n post (by rw [heq]; rfl)
    · refine update_lists (fun n hn => ?_) h
      exact hops [] n ops (by rw [hn]; rfl)

/-- A readable file stays readable. -/
theorem load_serially {registry : PeersFile} (ops : List RegOp) (h : ∃ doc, registry.load = .ok doc) :
    ∃ doc, (applyOps encode registry ops).load = .ok doc := by
  induction ops generalizing registry with
  | nil => exact h
  | cons op ops ih =>
    rw [applyOps, serially_cons]
    apply ih
    rcases RegOp.update_cases encode registry op with ⟨doc, doc', -, -, heq⟩ | ⟨-, heq⟩
    · rw [heq]
      exact ⟨doc', rfl⟩
    · rwa [heq]

/-- A pairing lists the device. -/
private theorem lists_recordPeer {registry : PeersFile} {paired : Paired} {address : Option String}
    (h : ∃ doc, registry.load = .ok doc) :
    Lists (((RegOp.recordPeer paired address).update encode registry).getD registry) paired.deviceId := by
  obtain ⟨doc, hload⟩ := h
  refine ⟨doc.recordPeer encode paired address, by simp only [RegOp.update, hload]; rfl, ?_⟩
  rw [Peers.recordPeer, ids_upsert]
  exact List.mem_append_right _ (List.mem_singleton.2 rfl)

/-- For every interleaving, the file holds the result of some of the completed operations in the order of their
completion.  When every save finds the file as its operation loaded it, the file holds the result of all of them; in
particular a device whose entries were unpaired by name and that was not paired since is not listed, and one that was
paired and whose entries were not unpaired since is. -/
theorem registry_updates (encode : Key → String) (registry : PeersFile) (es : List (Access RegOp))
    (s : Shared PeersFile RegOp) (hr : Run (registryStep encode) Always (Shared.start registry) es s) :
    (∃ kept, kept.Sublist s.done ∧ s.cell = applyOps encode registry kept) ∧
    (Run (registryStep encode) Exclusive (Shared.start registry) es s →
      s.cell = applyOps encode registry s.done ∧
      (∀ pre n post id, s.done = pre ++ .unpair n :: post → NamedAs (applyOps encode registry pre) id n →
        (∀ op ∈ post, ¬ op.pairs id) → ¬ Lists s.cell id) ∧
      ((∃ doc, registry.load = .ok doc) → ∀ pre paired address post,
        s.done = pre ++ .recordPeer paired address :: post →
        (∀ mid n rest, post = mid ++ .unpair n :: rest →
          ¬ NamedAs (applyOps encode registry (pre ++ .recordPeer paired address :: mid)) paired.deviceId n) →
        Lists s.cell paired.deviceId)) := by
  refine ⟨exists_kept hr, fun hex => ?_⟩
  have hall := serial_of_exclusive hex
  refine ⟨hall, ?_, ?_⟩
  · intro pre n post id hdone hnamed hpost
    rw [hall, hdone, serially_append, serially_cons]
    exact not_lists_serially hpost (not_lists_unpair hnamed)
  · intro hread pre paired address post hdone hpost
    rw [hall, hdone, serially_append, serially_cons]
    refine lists_serially (fun mid n rest heq => ?_) (lists_recordPeer (load_serially pre hread))
    have := hpost mid n rest heq
    rwa [applyOps, serially_append, serially_cons] at this

/-! ### A lost update -/

private def laptop : Peer := ⟨"laptop", "l", "", none, false, [], none, none⟩

private def phone : Peer := ⟨"phone", "p", "", none, true, [], none, none⟩

/-- The daemon refreshes the label of `phone` while the user unpairs `laptop`. -/
private def overlapping : List (Access RegOp) :=
  [.load 0 (.record "p" ⟨"phone", [], "linux"⟩ true), .load 1 (.unpair "laptop"), .save 1, .save 0]

private theorem overlapping_ops :
    (exec (registryStep (fun _ => "")) (Shared.start (.document ⟨[laptop, phone]⟩)) overlapping).map
      (fun s => (s.cell, s.done)) =
      some (.document ⟨[laptop, { phone with hostname := some "phone" }]⟩,
        [.unpair "laptop", .record "p" ⟨"phone", [], "linux"⟩ true]) := by
  decide

/-- `laptop` is listed again after its unpairing has completed, in no order of the two operations. -/
theorem unpair_is_lost :
    ¬ ∀ (encode : Key → String) (registry : PeersFile) (es : List (Access RegOp)) (s : Shared PeersFile RegOp),
      Run (registryStep encode) Always (Shared.start registry) es s →
      ∃ order, order.Perm s.done ∧ s.cell = applyOps encode registry order := by
  intro h
  obtain ⟨s, hrun, hview⟩ := run_of_exec_view _ (fun _ => True) _ _ _ _ (fun _ _ => trivial) overlapping_ops
  simp only [Prod.mk.injEq] at hview
  obtain ⟨order, hperm, heq⟩ := h _ _ _ s hrun
  rw [hview.2] at hperm
  rw [hview.1] at heq
  rcases List.perm_pair.1 hperm with rfl | rfl
  · exact absurd heq (by decide)
  · exact absurd heq (by decide)

/-- One operation after the other. -/
private def disjoint : List (Access RegOp) :=
  [.load 0 (.record "p" ⟨"phone", [], "linux"⟩ true), .save 0, .load 1 (.unpair "laptop"), .save 1]

/-- Both operations take effect: `laptop` is not listed. -/
theorem registry_updates_disjoint :
    ∃ s, Run (registryStep (fun _ => "")) Exclusive (Shared.start (.document ⟨[laptop, phone]⟩)) disjoint s ∧
      ¬ Lists s.cell "l" := by
  obtain ⟨s, hrun, hdone⟩ := run_of_exec_checked (registryStep (fun _ => "")) Exclusive
    (Shared.start (.document ⟨[laptop, phone]⟩)) disjoint (fun s => s.done)
    [.record "p" ⟨"phone", [], "linux"⟩ true, .unpair "laptop"] (by decide)
  refine ⟨s, hrun, ?_⟩
  have h := (registry_updates _ _ disjoint s (hrun.mono (fun _ _ _ => trivial))).2 hrun
  refine h.2.1 [.record "p" ⟨"phone", [], "linux"⟩ true] "laptop" [] "l" hdone ?_ (by simp)
  intro doc hload e he hid
  cases hload
  simp only [List.mem_cons, List.not_mem_nil, or_false] at he
  rcases he with rfl | rfl
  · rfl
  · exact absurd hid (by decide)

end Qdrop
