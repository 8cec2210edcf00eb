import Qdrop.Control
import Qdrop.Registry
import Qdrop.Registry.Edits

/-!
# Which device a name stands for

A string given on the command line or to `record` may be the name of one device and the id of another, since devices
choose their names themselves.  The lookups then differ: `FileXfer::send` and `weblink::dispatch` first ask whether it
is the id of a connected device, `ClipSend` and `Auth` prefer the name, and `find_any_mut` takes whichever entry is
listed first.  `lookups_agree_iff` says when they agree, and `authorizes_only_iff` when recording an authorization
changes the device it is about.
-/

namespace Qdrop

open Lib
open scoped List

/-! ### The first match of two tests -/

section FirstMatch

variable {α : Type} {p q : α → Bool} {l : List α} {a b : α}

/-- The first element that passes either test is the first that passes one of them. -/
private theorem find?_or_cases (hp : l.find? p = some a) (hq : l.find? q = some b) :
    (l.find? (fun x => p x || q x) = some a ∧ (a = b ∨ [a, b] <+ l)) ∨
    (l.find? (fun x => p x || q x) = some b ∧ (a = b ∨ [b, a] <+ l)) := by
  induction l with
  | nil => cases hp
  | cons x l ih =>
    cases hpx : p x with
    | true =>
      obtain rfl : x = a := by simpa [hpx] using hp
      refine Or.inl ⟨by simp [hpx], ?_⟩
      cases hqx : q x with
      | true => exact Or.inl (by simpa [hqx] using hq)
      | false =>
        have hb : l.find? q = some b := by simpa [hqx] using hq
        exact Or.inr (List.Sublist.cons_cons x (List.singleton_sublist.2 (List.mem_of_find?_eq_some hb)))
    | false =>
      have ha : l.find? p = some a := by simpa [hpx] using hp
      cases hqx : q x with
      | true =>
        obtain rfl : x = b := by simpa [hqx] using hq
        refine Or.inr ⟨by simp [hpx, hqx], Or.inr ?_⟩
        exact List.Sublist.cons_cons x (List.singleton_sublist.2 (List.mem_of_find?_eq_some ha))
      | false =>
        have hb : l.find? q = some b := by simpa [hqx] using hq
        rcases ih ha hb with ⟨hf, hab⟩ | ⟨hf, hba⟩
        · exact Or.inl ⟨by simpa [hpx, hqx] using hf, hab.imp_right fun h => h.cons x⟩
        · exact Or.inr ⟨by simpa [hpx, hqx] using hf, hba.imp_right fun h => h.cons x⟩

private theorem find?_or_of_none (hp : l.find? p = none) : l.find? (fun x => p x || q x) = l.find? q := by
  induction l with
  | nil => rfl
  | cons x l ih =>
    have hall := List.find?_eq_none.1 hp
    have hpx : p x = false := by simpa using hall x (List.mem_cons_self ..)
    have hrest : l.find? p = none := List.find?_eq_none.2 fun y hy => hall y (List.mem_cons_of_mem _ hy)
    simp only [List.find?_cons, hpx, Bool.false_or, ih hrest]

private theorem not_both_orders (h : l.Nodup) (hab : [a, b] <+ l) (hba : [b, a] <+ l) : False := by
  induction l with
  | nil => cases hab
  | cons x l ih =>
    obtain ⟨hx, hl⟩ := List.nodup_cons.1 h
    cases hab with
    | cons _ hab =>
      cases hba with
      | cons _ hba => exact ih hl hab hba
      | cons_cons _ _ => exact hx (hab.subset (by simp))
    | cons_cons _ hb =>
      cases hba with
      | cons _ hba => exact hx (hba.subset (by simp))
      | cons_cons _ _ => exact hx (hb.subset (by simp))

end FirstMatch

namespace Peers

variable {doc : Peers} {s : String} {a b : Peer}

/-- `s` is the name of `a`, listed first of the entries with this name, and the id of another device, `b`. -/
structure Collides (doc : Peers) (s : String) (a b : Peer) : Prop where
  byName : doc.find s = some a
  byId : doc.findById s = some b
  ne : a.deviceId ≠ s

theorem findById_eq_some_id (h : doc.findById s = some b) : b.deviceId = s := by simpa using List.find?_some h

theorem Collides.distinct (h : Collides doc s a b) : a ≠ b := by
  rintro rfl
  exact h.ne (findById_eq_some_id h.byId)

theorem IdsDistinct.nodup (h : doc.IdsDistinct) : doc.peers.Nodup := List.Nodup.of_map _ h

/-- Where the name and the id are of two devices, `find_any_mut` takes the one listed first. -/
theorem Collides.findAny (hids : doc.IdsDistinct) (h : Collides doc s a b) :
    doc.findAny s = some a ∧ [a, b] <+ doc.peers ∨ doc.findAny s = some b ∧ ¬ [a, b] <+ doc.peers := by
  rcases find?_or_cases h.byName h.byId with ⟨hf, hab⟩ | ⟨hf, hba⟩
  · exact Or.inl ⟨hf, hab.resolve_left h.distinct⟩
  · exact Or.inr ⟨hf, fun hab => not_both_orders hids.nodup hab (hba.resolve_left h.distinct)⟩

/-- Otherwise it takes the one that the other lookups find. -/
theorem findAny_of_not_collides (hids : doc.IdsDistinct) (hno : ∀ a b, ¬ Collides doc s a b) :
    doc.findAny s = (doc.find s).or (doc.findById s) ∧ ∀ b, doc.findById s = some b → doc.findAny s = some b := by
  cases hn : doc.find s with
  | none =>
    have heq : doc.findAny s = doc.findById s := find?_or_of_none hn
    exact ⟨by rw [heq, Option.none_or], fun b hb => heq.trans hb⟩
  | some a =>
    cases hi : doc.findById s with
    | none =>
      have hcomm : matchesAny s = fun p => p.deviceId == s || p.name == s := by
        funext p
        exact Bool.or_comm ..
      have heq : doc.findAny s = doc.find s := by
        rw [findAny, hcomm]
        exact find?_or_of_none hi
      exact ⟨by rw [heq, hn, Option.or_none], fun b hb => by cases hb⟩
    | some b =>
      -- the first entry with the name is the one with the id
      have hid : a.deviceId = s := by
        by_contra hne
        exact hno a b ⟨hn, hi, hne⟩
      have hab : a = b := hids.eq_of_mem (List.mem_of_find?_eq_some hn) (List.mem_of_find?_eq_some hi)
        (hid.trans (findById_eq_some_id hi).symm)
      subst hab
      have heq : doc.findAny s = some a := by
        rcases find?_or_cases hn hi with ⟨hf, -⟩ | ⟨hf, -⟩
        · exact hf
        · exact hf
      exact ⟨heq, fun b hb => heq.trans hb⟩

end Peers

/-! ### Names on the command line -/

/-- `send --to`, `open --to`, `clip --send --to`, `auth` and `auth --remove` take `s` for the same device, or all find
none. -/
def LookupsAgree (bus : Bus) (doc : Peers) (s : String) : Prop :=
  ∃ target : Option DeviceId,
    bus.targets (.document doc) (some s) = target.toList ∧ clipTargets bus (.document doc) (some s) = target.toList ∧
      resolve (.document doc) s = target ∧ (doc.findAny s).map (·.deviceId) = target

/-- In every registry that upserts and removals lead to, the commands resolve `s` alike if and only if `s` is not the
name of one device and the id of another, or, where it is, the device with the id is not connected and the one with
the name is listed first. -/
theorem lookups_agree_iff (es : List RegistryEdit) (bus : Bus) (s : String)
    (hconn : ∀ p ∈ bus.connected, p ∈ (Peers.edited es).ids) :
    LookupsAgree bus (Peers.edited es) s ↔
      ∀ a b, (Peers.edited es).Collides s a b → s ∉ bus.connected ∧ [a, b] <+ (Peers.edited es).peers := by
  have hids := Peers.idsDistinct_edited es
  generalize Peers.edited es = doc at hids hconn ⊢
  have hresolve : resolve (.document doc) s = ((doc.find s).or (doc.findById s)).map (·.deviceId) := rfl
  constructor
  · rintro ⟨target, hsend, hclip, hauth, hany⟩ a b hc
    have htarget : target = some a.deviceId := by
      rw [← hauth, hresolve, hc.byName]
      rfl
    subst htarget
    constructor
    · intro hmem
      rw [Bus.targets, if_pos hmem] at hsend
      exact hc.ne (List.cons.inj hsend).1.symm
    · rcases hc.findAny hids with ⟨-, hab⟩ | ⟨hf, -⟩
      · exact hab
      · rw [hf] at hany
        have hid : b.deviceId = a.deviceId := Option.some.inj hany
        exact absurd (hid.symm.trans (Peers.findById_eq_some_id hc.byId)) hc.ne
  · intro h
    refine ⟨resolve (.document doc) s, ?_, rfl, rfl, ?_⟩
    · rw [Bus.targets]
      split
      · rename_i hmem
        -- the id of a connected device is not the name of another one
        obtain ⟨b, hb, hid⟩ := List.mem_map.1 (hconn s hmem)
        have hbyId : doc.findById s = some b := (Peers.findById_eq_some hids).2 ⟨hb, hid⟩
        have hno : ∀ a b, ¬ doc.Collides s a b := fun a b hc => (h a b hc).1 hmem
        obtain ⟨hany, hfound⟩ := Peers.findAny_of_not_collides hids hno
        rw [hresolve, ← hany, hfound b hbyId]
        simp [hid]
      · rfl
    · rw [hresolve]
      by_cases hc : ∃ a b, doc.Collides s a b
      · obtain ⟨a, b, hc⟩ := hc
        rcases hc.findAny hids with ⟨hf, -⟩ | ⟨-, hnot⟩
        · rw [hf, hc.byName]
          rfl
        · exact absurd (h a b hc).2 hnot
      · rw [(Peers.findAny_of_not_collides hids fun a b hab => hc ⟨a, b, hab⟩).1]

private def plainEncode (_ : Key) : String := ""

private def upsertNamed (name : String) (deviceId : DeviceId) : RegistryEdit :=
  .upsert (.new plainEncode name deviceId (Vector.replicate 32 0))

/-- A bus with these peers, each with a free slot. -/
private def busOf (connected : List DeviceId) (h : connected.Nodup) : Bus := ⟨connected, h, fun _ => true⟩

/-- `p` is called `laptop`, and a device listed after it calls itself `p`. -/
private def claimedId : List RegistryEdit := [upsertNamed "laptop" "p", upsertNamed "p" "q"]

/-- The name `laptop` stands for `p` everywhere. -/
theorem lookups_agree_iff_laptop :
    LookupsAgree (busOf ["p"] (by simp)) (Peers.edited claimedId) "laptop" := by
  refine (lookups_agree_iff claimedId (busOf ["p"] (by simp)) "laptop" (by decide)).2 fun a b hc => ?_
  have hnone : (Peers.edited claimedId).findById "laptop" = none := by decide +kernel
  exact absurd (hc.byId.symm.trans hnone) (by simp)

/-- A device calls itself by the id of `p`, which is not connected: `qdrop send --to p` and `qdrop auth p` go to that
device and `qdrop auth --remove p` to `p`. -/
theorem id_taken_as_name :
    ¬ ∀ (es : List RegistryEdit) (bus : Bus) (s : String), (∀ p ∈ bus.connected, p ∈ (Peers.edited es).ids) →
      LookupsAgree bus (Peers.edited es) s := by
  intro h
  obtain ⟨target, -, -, hauth, hany⟩ := h claimedId (busOf [] (by simp)) "p" (by decide)
  have hne : resolve (.document (Peers.edited claimedId)) "p" ≠
      ((Peers.edited claimedId).findAny "p").map (·.deviceId) := by decide +kernel
  exact hne (hauth.trans hany.symm)

/-! ### Recording an authorization -/

/-- The entry with the label of a device and the flag set. -/
def Peer.labelled (info : DeviceInfo) (p : Peer) : Peer :=
  { p with authorized := true, hostname := some info.hostname, macs := info.macs }

/-- What recording an authorization of `d` is to make of an entry. -/
def Peer.recorded (d : DeviceId) (info : DeviceInfo) (e : Peer) : Peer :=
  if e.deviceId = d then e.labelled info else e

/-- `record(d, info, true)` labels the entry of `d`, which is then authorized, and changes no other entry. -/
def AuthorizesOnly (doc : Peers) (d : DeviceId) (info : DeviceInfo) : Prop :=
  ∃ doc', record (.document doc) none d info true = .ok (.document doc') ∧
    doc'.peers = doc.peers.map (Peer.recorded d info) ∧
    doc'.isAuthorized d = true ∧ ∀ id, id ≠ d → doc'.isAuthorized id = doc.isAuthorized id

/-- What `record` saves is the document with the entry labelled that `find_any_mut` finds. -/
private theorem record_document {doc : Peers} {d : DeviceId} {e : Peer} (info : DeviceInfo)
    (h : doc.findAny d = some e) :
    ∃ doc', record (.document doc) none d info true = .ok (.document doc') ∧
      doc.modifyAny d (Peer.labelled info) = some doc' := by
  obtain ⟨doc', hmod⟩ := Peers.modifyAny_of_findAny (Peer.labelled info) h
  have hlabel : doc.recordLabel d info true = some doc' := hmod
  exact ⟨doc', by simp [record, PeersFile.load, hlabel], hmod⟩

/-- The entry that changes, between the others. -/
private theorem split_at_findAny {doc doc' : Peers} {s : String} {f : Peer → Peer} {x : Peer}
    (hany : doc.findAny s = some x) (hmod : doc.modifyAny s f = some doc') :
    ∃ as bs, doc.peers = as ++ x :: bs ∧ doc'.peers = as ++ f x :: bs ∧ ∀ a ∈ as, Peers.matchesAny s a = false := by
  obtain ⟨as, y, bs, hdoc, hdoc', hy, has⟩ := Peers.modifyAny_eq_some hmod
  have hyx : y = x := by
    have hnone : as.find? (Peers.matchesAny s) = none := by simpa using has
    simpa [Peers.findAny, hdoc, hnone, hy] using hany
  subst hyx
  exact ⟨as, bs, hdoc, hdoc', has⟩

private theorem map_recorded {l : List Peer} {d : DeviceId} {info : DeviceInfo}
    (h : ∀ e ∈ l, e.deviceId = d → e.labelled info = e) : l.map (Peer.recorded d info) = l := by
  conv => rhs; rw [← List.map_id l]
  refine List.map_congr_left fun e he => ?_
  unfold Peer.recorded
  split
  · rename_i hid
    exact h e he hid
  · rfl

/-- Where `find_any_mut` stops at the entry of `d`, only this entry changes. -/
private theorem authorizesOnly_of_findAny {doc : Peers} {d : DeviceId} {info : DeviceInfo} {e : Peer}
    (hids : doc.IdsDistinct) (hany : doc.findAny d = some e) (hbyId : doc.findById d = some e) :
    AuthorizesOnly doc d info := by
  obtain ⟨doc', hrec, hmod⟩ := record_document info hany
  have hid : e.deviceId = d := Peers.findById_eq_some_id hbyId
  have hfind := Peers.findById_modifyAny hmod fun _ => rfl
  refine ⟨doc', hrec, ?_, ?_, fun id hne => ?_⟩
  · obtain ⟨as, bs, hdoc, hdoc', -⟩ := split_at_findAny hany hmod
    have hdist : ∀ y ∈ as ++ bs, y.deviceId ≠ d := by
      intro y hy hyd
      have hnodup := hids
      rw [Peers.IdsDistinct, hdoc, Keyed, List.map_append, List.map_cons, List.nodup_middle] at hnodup
      refine (List.nodup_cons.1 hnodup).1 ?_
      rw [← List.map_append, hid, ← hyd]
      exact List.mem_map_of_mem hy
    have has : as.map (Peer.recorded d info) = as :=
      map_recorded fun y hy hyd => absurd hyd (hdist y (List.mem_append_left _ hy))
    have hbs : bs.map (Peer.recorded d info) = bs :=
      map_recorded fun y hy hyd => absurd hyd (hdist y (List.mem_append_right _ hy))
    rw [hdoc', hdoc, List.map_append, List.map_cons, has, hbs, Peer.recorded, if_pos hid]
  · rw [Peers.isAuthorized, hfind, hany, hbyId]
    simp [Peer.labelled]
  · have hne' : doc.findById id ≠ doc.findAny d := by
      rw [hany]
      intro he
      exact hne ((Peers.findById_eq_some_id he).symm.trans hid)
    rw [Peers.isAuthorized, hfind, if_neg hne', Peers.isAuthorized]

/-- Where it stops at another entry, this entry and that of `d` would have to be labelled so already. -/
private theorem authorizesOnly_iff_of_collides {doc : Peers} {d : DeviceId} {info : DeviceInfo} {x e : Peer}
    (hids : doc.IdsDistinct) (hc : doc.Collides d x e) (hany : doc.findAny d = some x) :
    AuthorizesOnly doc d info ↔ x.labelled info = x ∧ e.labelled info = e := by
  obtain ⟨doc', hrec, hmod⟩ := record_document info hany
  obtain ⟨as, bs, hdoc, hdoc', has⟩ := split_at_findAny hany hmod
  obtain ⟨hemem, heid⟩ := (Peers.findById_eq_some hids).1 hc.byId
  constructor
  · rintro ⟨doc'', hrec', hentries, -⟩
    rw [hrec] at hrec'
    cases hrec'
    rw [hdoc', hdoc, List.map_append, List.map_cons] at hentries
    obtain ⟨-, htail⟩ := List.append_inj hentries (List.length_map _).symm
    obtain ⟨hhead, hrest⟩ := List.cons.inj htail
    -- the entry of `d` comes after the one that was changed
    have hbs : e ∈ bs := by
      rw [hdoc] at hemem
      rcases List.mem_append.1 hemem with hin | hin
      · have hnot := has e hin
        simp [Peers.matchesAny, heid] at hnot
      · exact (List.mem_cons.1 hin).resolve_left hc.distinct.symm
    have hself : bs.map (Peer.recorded d info) = bs.map id := by rw [← hrest, List.map_id]
    have he := List.map_inj_left.1 hself e hbs
    rw [Peer.recorded, if_pos heid] at he
    exact ⟨by rw [hhead, Peer.recorded, if_neg hc.ne], he⟩
  · rintro ⟨hx, he⟩
    have hsame : doc' = doc := by
      cases doc
      cases doc'
      simp_all
    subst hsame
    refine ⟨doc', hrec, (map_recorded fun y hy hyd => ?_).symm, ?_, fun _ _ => rfl⟩
    · rw [hids.eq_of_mem hy hemem (hyd.trans heid.symm), he]
    · rw [Peers.isAuthorized, hc.byId, ← he]
      rfl

/-! ### Registries -/

theorem Peers.IdsDistinct.change {encode : Key → String} {doc doc' : Peers} {op : RegOp} (h : doc.IdsDistinct)
    (hop : op.change encode doc = some doc') : doc'.IdsDistinct := by
  have hkept : doc'.ids = doc.ids → doc'.IdsDistinct := by
    intro heq
    change doc'.ids.Nodup
    rw [heq]
    exact h
  cases op with
  | recordPeer paired address =>
    cases hop
    exact h.apply (.upsert _)
  | unpair name =>
    simp only [RegOp.change] at hop
    split at hop
    · cases hop
      exact h.apply (.removeByName name)
    · cases hop
  | revoke nameOrId => exact hkept (map_revoke hop fun _ => rfl)
  | record deviceId info authorized => exact hkept (map_modifyAny hop fun _ => rfl)

/-- Pairing, unpairing, revoking and recording list no device id twice. -/
theorem idsDistinct_applyOps {encode : Key → String} {ops : List RegOp} {doc : Peers}
    (h : (applyOps encode .absent ops).load = .ok doc) : doc.IdsDistinct := by
  induction ops using List.reverseRecOn generalizing doc with
  | nil =>
    cases h
    exact Keyed.nil
  | append_singleton ops op ih =>
    rw [applyOps, serially_append, serially_cons] at h
    change ((op.update encode (applyOps encode .absent ops)).getD (applyOps encode .absent ops)).load = .ok doc at h
    rcases RegOp.update_cases encode (applyOps encode .absent ops) op with ⟨before, after, hload, hch, heq⟩ | ⟨-, heq⟩
    · rw [heq] at h
      cases h
      exact (ih hload).change hch
    · rw [heq] at h
      exact ih h

/-- In every registry that pairing, unpairing, revoking and recording lead to, recording an authorization of a listed
device changes that device and no other if and only if no device listed before it is named by its id, or both carry
the label and the flag already. -/
theorem authorizes_only_iff (encode : Key → String) (ops : List RegOp) (doc : Peers) (d : DeviceId) (info : DeviceInfo)
    (hload : (applyOps encode .absent ops).load = .ok doc) (hd : d ∈ doc.ids) :
    AuthorizesOnly doc d info ↔
      ∀ x e, doc.Collides d x e → [x, e] <+ doc.peers → x.labelled info = x ∧ e.labelled info = e := by
  have hids := idsDistinct_applyOps hload
  obtain ⟨e, he, hid⟩ := List.mem_map.1 hd
  have hbyId : doc.findById d = some e := (Peers.findById_eq_some hids).2 ⟨he, hid⟩
  by_cases hc : ∃ x, doc.Collides d x e
  · obtain ⟨x, hc⟩ := hc
    have honly : ∀ x' e', doc.Collides d x' e' → x' = x ∧ e' = e := fun x' e' hc' =>
      ⟨Option.some.inj (hc'.byName.symm.trans hc.byName), Option.some.inj (hc'.byId.symm.trans hc.byId)⟩
    rcases hc.findAny hids with ⟨hany, hbefore⟩ | ⟨hany, hafter⟩
    · rw [authorizesOnly_iff_of_collides hids hc hany]
      constructor
      · rintro h x' e' hc' -
        obtain ⟨rfl, rfl⟩ := honly x' e' hc'
        exact h
      · exact fun h => h x e hc hbefore
    · refine iff_of_true (authorizesOnly_of_findAny hids hany hbyId) fun x' e' hc' hbefore => ?_
      obtain ⟨rfl, rfl⟩ := honly x' e' hc'
      exact absurd hbefore hafter
  · have hno : ∀ x e', ¬ doc.Collides d x e' := by
      intro x e' hc'
      obtain rfl : e' = e := Option.some.inj (hc'.byId.symm.trans hbyId)
      exact hc ⟨x, hc'⟩
    have hany := (Peers.findAny_of_not_collides hids hno).2 e hbyId
    exact iff_of_true (authorizesOnly_of_findAny hids hany hbyId) fun x e' hc' => absurd hc' (hno x e')

private def pairNamed (name : String) (deviceId : DeviceId) : RegOp :=
  .recordPeer ⟨deviceId, name, Vector.replicate 32 0⟩ none

private def linuxInfo : DeviceInfo := ⟨"host", ["02:00:00:00:00:01"], "linux"⟩

/-- `p` is paired before the device that calls itself `p`. -/
private def pairedFirst : Peers := ⟨[.new plainEncode "laptop" "p" (Vector.replicate 32 0),
  .new plainEncode "p" "q" (Vector.replicate 32 0)]⟩

theorem authorizes_only_iff_paired_first : AuthorizesOnly pairedFirst "p" linuxInfo := by
  refine (authorizes_only_iff plainEncode [pairNamed "laptop" "p", pairNamed "p" "q"] pairedFirst "p" linuxInfo
    (by decide +kernel) (by decide +kernel)).2 fun x e hc hbefore => ?_
  -- the colliding entry is listed second
  have hx : pairedFirst.find "p" = some (.new plainEncode "p" "q" (Vector.replicate 32 0)) := by decide +kernel
  have he : pairedFirst.findById "p" = some (.new plainEncode "laptop" "p" (Vector.replicate 32 0)) := by
    decide +kernel
  obtain rfl := Option.some.inj (hc.byName.symm.trans hx)
  obtain rfl := Option.some.inj (hc.byId.symm.trans he)
  exact absurd hbefore (by decide +kernel)

/-- A device that calls itself by the id of `p` is paired, then `p`: authorizing `p` authorizes the other one. -/
theorem authorizes_the_namesake :
    ¬ ∀ (encode : Key → String) (ops : List RegOp) (doc : Peers) (d : DeviceId) (info : DeviceInfo),
      (applyOps encode .absent ops).load = .ok doc → d ∈ doc.ids → AuthorizesOnly doc d info := by
  intro h
  obtain ⟨doc', hrec, -, hauth, -⟩ := h plainEncode [pairNamed "p" "q", pairNamed "laptop" "p"]
    ⟨[.new plainEncode "p" "q" (Vector.replicate 32 0), .new plainEncode "laptop" "p" (Vector.replicate 32 0)]⟩ "p"
    linuxInfo (by decide +kernel) (by decide +kernel)
  have hother : (record (.document ⟨[.new plainEncode "p" "q" (Vector.replicate 32 0),
      .new plainEncode "laptop" "p" (Vector.replicate 32 0)]⟩) none "p" linuxInfo true).toOption.any
        (·.authorizes "p") = false := by decide +kernel
  rw [hrec] at hother
  simp [Except.toOption, hauth] at hother

end Qdrop
