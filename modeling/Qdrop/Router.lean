import Qdrop.Auth
import Qdrop.FileXfer.Paths
import Qdrop.Lib.Run
import Qdrop.Lib.Table

/-!
# The frame router and the confirmation gate (`qdropd/src/main.rs`)

One task takes the inbound application frames of all peers and hands each to its subsystem.  The authorization
subsystem writes `peers.toml`, the file transfer reads it at every `BlobStart`: under the policy `unlisted` a peer's
files go to `pending` as long as its flag is off.  `gate_stays_closed` shows that a peer cannot turn its own flag on,
except by asking for mutual authorization (`mutual_request_lifts_gate`).
-/

namespace Qdrop

open Lib

/-- The state the router's subsystems share. -/
structure Daemon where
  registry : PeersFile
  auth : AuthManager
  rx : Rx

/-- A frame from the hub, with the operating system's answers while it is handled. -/
structure Inbound where
  peer : DeviceId
  msg : Message
  io : Io
  saveErr : Option String

/-- Where a frame went and what came of it. -/
inductive Routed where
  | clipboard (peer : DeviceId) (msg : Message)
  | filexfer (effs : List Effect)
  | weblink (peer : DeviceId) (url : String)
  | auth (effs : List AuthEffect)
  | ignored

variable (sha256 : Bytes → Digest) (localInfo : DeviceInfo) (cfg : XferConfig)

/-- The loop body of the router; a clipboard frame goes to the sync loop's queue and a URL to `weblink`, which
writes neither the registry nor the receiver. -/
def route (d : Daemon) (f : Inbound) : Daemon × Routed :=
  match f.msg with
  | .clipboard .. => (d, .clipboard f.peer f.msg)
  | .blobStart .. | .blobChunk .. | .blobEnd .. | .blobAck .. =>
    let (rx, effs) := handleBlob sha256 cfg d.registry f.io d.rx f.peer f.msg
    (⟨d.registry, d.auth, rx⟩, .filexfer effs)
  | .openUrl url => (d, .weblink f.peer url)
  | .authRequest .. | .authReply .. =>
    let (auth, registry, effs) := d.auth.handleInbound localInfo d.registry f.saveErr f.peer f.msg
    (⟨registry, auth, d.rx⟩, .auth effs)
  | .hello _ | .ping _ | .pong _ => (d, .ignored)

/-- The daemon and what the router has done so far. -/
structure Session where
  daemon : Daemon
  log : List (Inbound × Routed)

def Session.handle (s : Session) (f : Inbound) : Session :=
  ⟨(route sha256 localInfo cfg s.daemon f).1, s.log ++ [(f, (route sha256 localInfo cfg s.daemon f).2)]⟩

/-! ### The gate -/

/-- The peer is paired and its entry is not authorized. -/
def Unlisted (registry : PeersFile) (p : DeviceId) : Prop :=
  ∃ doc e, registry.load = .ok doc ∧ doc.findById p = some e ∧ e.authorized = false

/-- Every file transfer of `p` in progress is bound for `pending`. -/
def BoundForPending (cfg : XferConfig) (p : DeviceId) (rx : Rx) : Prop :=
  ∀ id inc tmp dir file, rx.incoming.lookup (p, id) = some inc → inc.sink = .file tmp dir file →
    dir = join cfg.downloadDir "pending" ∧ Bare inc.name

/-- `dest` is a child of `pending` and not one of the download directory. -/
def InPending (cfg : XferConfig) (dest : PathBuf) : Prop :=
  (∃ n, Bare n ∧ dest = join (join cfg.downloadDir "pending") n) ∧ ∀ n, Bare n → dest ≠ join cfg.downloadDir n

/-- Every file renamed into place while a frame of `p` was handled went to `pending`. -/
def PlacedInPending (cfg : XferConfig) (p : DeviceId) (log : List (Inbound × Routed)) : Prop :=
  ∀ f effs tmp dest, (f, Routed.filexfer effs) ∈ log → f.peer = p → Effect.rename tmp dest ∈ effs →
    InPending cfg dest

/-- The frame asks for mutual authorization. -/
def asksMutual : Message → Bool
  | .authRequest mutualAuth _ => mutualAuth
  | _ => false

variable {sha256 localInfo cfg}

private theorem finalDirFor_unlisted {registry : PeersFile} {p : DeviceId} (hpol : cfg.confirm = .unlisted)
    (h : Unlisted registry p) : finalDirFor cfg registry p = join cfg.downloadDir "pending" := by
  obtain ⟨doc, e, hload, hfind, he⟩ := h
  have hauth : doc.isAuthorized p = false := by simp [Peers.isAuthorized, hfind, he]
  simp [finalDirFor, needsConfirm, hpol, hload, hauth]

private theorem inPending_uniqueDest (fs : FileSys PathBuf) {name : String} (h : Bare name) :
    InPending cfg (uniqueDest fs (join cfg.downloadDir "pending") name) := by
  obtain ⟨n, hn, heq⟩ := uniqueDest_child fs (join cfg.downloadDir "pending") h
  refine ⟨⟨n, hn, heq⟩, ?_⟩
  intro m hm he
  rw [heq] at he
  exact join_ne_join_join (by decide) (by decide) hm.2.2.2 hn.2.2.2 he.symm

/-- An entry that is bound for `pending` stays so while its transfer goes on. -/
private theorem BoundForPending.of_insert {p : DeviceId} {rx : Rx} {fs : FileSys PathBuf} {id : Nat}
    {inc : Incoming} (hb : BoundForPending cfg p rx)
    (hinc : ∀ tmp dir file, inc.sink = .file tmp dir file →
      dir = join cfg.downloadDir "pending" ∧ Bare inc.name) :
    BoundForPending cfg p ⟨rx.incoming.insert (p, id) inc, fs⟩ := by
  intro id' inc' tmp dir file hl hs
  rcases lookup_insert_eq_some.1 hl with ⟨-, rfl⟩ | ⟨-, hl⟩
  · exact hinc tmp dir file hs
  · exact hb id' inc' tmp dir file hl hs

private theorem BoundForPending.of_erase {p : DeviceId} {rx : Rx} {fs : FileSys PathBuf} {id : Nat}
    (hb : BoundForPending cfg p rx) : BoundForPending cfg p ⟨rx.incoming.erase (p, id), fs⟩ := by
  intro id' inc' tmp dir file hl hs
  obtain ⟨-, hl⟩ := lookup_erase_eq_some.1 hl
  exact hb id' inc' tmp dir file hl hs

private theorem rename_notMem_tryRemove {tmp dest p : PathBuf} {io : Io} {fs : FileSys PathBuf} :
    Effect.rename tmp dest ∉ (tryRemove io fs p).2 := by
  intro h
  cases mem_tryRemove h

private theorem rename_notMem_cleanup {tmp dest : PathBuf} {io : Io} {fs : FileSys PathBuf} {sink : Sink} :
    Effect.rename tmp dest ∉ (cleanup io fs sink).2 := by
  intro h
  obtain ⟨_, h⟩ := mem_cleanup h
  cases h

/-- The file transfer's part of the gate: what a frame of an unlisted peer leaves open is bound for `pending`, and
what it renames goes there. -/
private theorem handleBlob_gate (sha256 : Bytes → Digest) {registry : PeersFile} (io : Io) {rx : Rx} {p : DeviceId}
    (hpol : cfg.confirm = .unlisted) (hreg : Unlisted registry p) (hb : BoundForPending cfg p rx) (msg : Message) :
    BoundForPending cfg p (handleBlob sha256 cfg registry io rx p msg).1 ∧
      ∀ tmp dest, Effect.rename tmp dest ∈ (handleBlob sha256 cfg registry io rx p msg).2 → InPending cfg dest := by
  have hdir := finalDirFor_unlisted hpol hreg
  unfold handleBlob
  split
  · rename_i id name size purpose
    rcases onStart_cases cfg registry io rx p id name size purpose with
      ⟨detail, h⟩ | ⟨fs, detail, -, h⟩ | ⟨-, -, -, h⟩ | ⟨safe, fs, fs', handle, -, hsafe, -, -, -, h⟩
    · rw [h]
      exact ⟨hb, by simp [reject]⟩
    · rw [h]
      exact ⟨hb, by simp [reject]⟩
    · rw [h]
      exact ⟨hb.of_insert (by simp), by simp⟩
    · rw [h, hdir]
      refine ⟨hb.of_insert ?_, by simp⟩
      intro tmp dir file hs
      cases hs
      exact ⟨rfl, safeBlobName_bare hsafe⟩
  · rename_i id data
    rcases onChunk_cases io rx p id data with
      ⟨hl, h⟩ | ⟨inc, tmp, dir, file, fs, file', hl, hs, -, h⟩ | ⟨inc, tmp, dir, file, fs, file', -, -, -, h⟩ |
      ⟨inc, buf, -, -, -, h⟩ | ⟨inc, buf, -, -, h⟩
    · rw [h]
      exact ⟨hb, by simp⟩
    · rw [h]
      refine ⟨hb.of_insert ?_, by simp⟩
      intro tmp' dir' file' hs'
      cases hs'
      exact hb id inc tmp dir file hl hs
    · rw [h]
      refine ⟨hb.of_erase, ?_⟩
      intro tmp' dest hmem
      simp [reject, rename_notMem_tryRemove] at hmem
    · rw [h]
      exact ⟨hb.of_insert (by simp [Incoming.push]), by simp⟩
    · rw [h]
      exact ⟨hb.of_erase, by simp [reject]⟩
  · rename_i id sha
    rcases onEnd_cases sha256 cfg registry io rx p id sha with
      ⟨-, h⟩ | ⟨inc, d, -, h⟩ | ⟨inc, bytes, -, -, -, h⟩ | ⟨inc, tmp', dir, file, fs, shown, hl, -, hs, -, h⟩ |
      ⟨inc, tmp', dir, file, d, -, -, h⟩
    · rw [h]
      exact ⟨hb, by simp⟩
    · rw [h]
      refine ⟨hb.of_erase, ?_⟩
      intro tmp dest hmem
      simp [reject, rename_notMem_cleanup] at hmem
    · rw [h]
      refine ⟨hb.of_erase, ?_⟩
      intro tmp dest hmem
      split at hmem <;> simp at hmem
    · rw [h]
      refine ⟨hb.of_erase, ?_⟩
      intro tmp dest hmem
      simp only [List.mem_cons, Effect.rename.injEq, reduceCtorEq, List.not_mem_nil, or_false] at hmem
      obtain ⟨rfl, rfl⟩ := hmem
      obtain ⟨rfl, hbare⟩ := hb id inc tmp dir file hl hs
      exact inPending_uniqueDest rx.fs hbare
    · rw [h]
      refine ⟨hb.of_erase, ?_⟩
      intro tmp dest hmem
      simp [reject, rename_notMem_tryRemove] at hmem
  · exact ⟨hb, by simp⟩

/-- Without a mutual request the authorization subsystem leaves the registry alone. -/
private theorem handleInbound_registry {registry : PeersFile} {saveErr : Option String} {st : AuthManager}
    {p : DeviceId} {msg : Message} (h : asksMutual msg = false) :
    (st.handleInbound localInfo registry saveErr p msg).2.1 = registry := by
  unfold AuthManager.handleInbound
  split
  · rename_i mutualAuth info
    have hm : mutualAuth = false := h
    rw [if_neg (by simp [hm])]
  · split <;> rfl
  · rfl

/-- What holds of a session with an unlisted peer. -/
private structure Gated (cfg : XferConfig) (p : DeviceId) (s : Session) : Prop where
  unlisted : Unlisted s.daemon.registry p
  bound : BoundForPending cfg p s.daemon.rx
  placed : PlacedInPending cfg p s.log

private theorem PlacedInPending.snoc {p : DeviceId} {log : List (Inbound × Routed)} {f : Inbound} {r : Routed}
    (h : PlacedInPending cfg p log)
    (hr : ∀ effs tmp dest, r = .filexfer effs → Effect.rename tmp dest ∈ effs → InPending cfg dest) :
    PlacedInPending cfg p (log ++ [(f, r)]) := by
  intro f' effs tmp dest hmem hp hren
  rcases List.mem_append.1 hmem with hmem | hmem
  · exact h f' effs tmp dest hmem hp hren
  · simp only [List.mem_singleton, Prod.mk.injEq] at hmem
    exact hr effs tmp dest hmem.2.symm hren

/-- A frame goes to the file transfer, to the authorization subsystem, or to neither. -/
theorem route_cases (sha256 : Bytes → Digest) (localInfo : DeviceInfo) (cfg : XferConfig) (d : Daemon)
    (f : Inbound) :
    (∃ r, route sha256 localInfo cfg d f = (d, r) ∧ ∀ effs, r ≠ .filexfer effs) ∨
    (∃ out, out = handleBlob sha256 cfg d.registry f.io d.rx f.peer f.msg ∧
      route sha256 localInfo cfg d f = (⟨d.registry, d.auth, out.1⟩, .filexfer out.2)) ∨
    (∃ out, out = d.auth.handleInbound localInfo d.registry f.saveErr f.peer f.msg ∧
      route sha256 localInfo cfg d f = (⟨out.2.1, out.1, d.rx⟩, .auth out.2.2)) := by
  unfold route
  cases f.msg with
  | blobStart | blobChunk | blobEnd | blobAck => exact Or.inr (Or.inl ⟨_, rfl, rfl⟩)
  | authRequest | authReply => exact Or.inr (Or.inr ⟨_, rfl, rfl⟩)
  | clipboard | openUrl | hello | ping | pong => exact Or.inl ⟨_, rfl, by simp⟩

private theorem gated_handle {p : DeviceId} {s : Session} {f : Inbound} (hpol : cfg.confirm = .unlisted)
    (hg : Gated cfg p s) (hf : f.peer = p) (hm : asksMutual f.msg = false) :
    Gated cfg p (s.handle sha256 localInfo cfg f) := by
  unfold Session.handle
  rcases route_cases sha256 localInfo cfg s.daemon f with ⟨r, h, hr⟩ | ⟨out, rfl, h⟩ | ⟨out, rfl, h⟩
  · rw [h]
    exact ⟨hg.unlisted, hg.bound, hg.placed.snoc (fun effs _ _ he => absurd he (hr effs))⟩
  · rw [h]
    subst hf
    obtain ⟨hbound, hren⟩ := handleBlob_gate sha256 f.io hpol hg.unlisted hg.bound f.msg
    refine ⟨hg.unlisted, hbound, hg.placed.snoc ?_⟩
    intro effs tmp dest heq hmem
    cases heq
    exact hren tmp dest hmem
  · rw [h]
    refine ⟨?_, hg.bound, hg.placed.snoc (by simp)⟩
    dsimp only
    rw [handleInbound_registry hm]
    exact hg.unlisted

/-- A paired but unlisted peer cannot lift its own gate by any sequence of frames without a mutual request: its
entry stays unauthorized and every file it delivers is placed in `pending`. -/
theorem gate_stays_closed (sha256 : Bytes → Digest) (localInfo : DeviceInfo) (cfg : XferConfig) (p : DeviceId)
    (d : Daemon) (frames : List Inbound) (t : Session) (hpol : cfg.confirm = .unlisted)
    (hreg : Unlisted d.registry p) (hopen : BoundForPending cfg p d.rx)
    (hr : Run (fun s f => some (Session.handle sha256 localInfo cfg s f))
      (fun _ f => f.peer = p ∧ asksMutual f.msg = false) ⟨d, []⟩ frames t) :
    Unlisted t.daemon.registry p ∧ PlacedInPending cfg p t.log := by
  have hg : Gated cfg p t := by
    refine hr.invariant ⟨hreg, hopen, ?_⟩ ?_
    · intro f effs tmp dest hmem
      cases hmem
    · rintro s f u hs ⟨hf, hm⟩ hu
      cases hu
      exact gated_handle hpol hs hf hm
  exact ⟨hg.unlisted, hg.placed⟩

/-! ### The mutual request -/

private def unlistedPeer : Peer := ⟨"phone", "p", "", none, false, [], none, none⟩

private def freshDaemon : Daemon := ⟨.document ⟨[unlistedPeer]⟩, AuthManager.new, ⟨∅, FileSys.empty⟩⟩

/-- The daemon after a mutual request. -/
private def liftedDaemon : Daemon :=
  ⟨.document ⟨[{ unlistedPeer with authorized := true, hostname := some "phone" }]⟩, AuthManager.new,
    ⟨∅, FileSys.empty⟩⟩

private def gatedConfig : XferConfig := ⟨"d", .unlisted, false⟩

private def inboundOf (msg : Message) : Inbound := ⟨"p", msg, Io.ok, none⟩

private theorem unlisted_freshDaemon : Unlisted freshDaemon.registry "p" := ⟨_, _, rfl, rfl, rfl⟩

private theorem boundForPending_freshDaemon : BoundForPending gatedConfig "p" freshDaemon.rx := by
  intro id inc tmp dir file hl
  cases hl

private def mutualRequest : Inbound := inboundOf (.authRequest true ⟨"phone", [], "linux"⟩)

private theorem route_mutualRequest (sha256 : Bytes → Digest) (localInfo : DeviceInfo) :
    (route sha256 localInfo gatedConfig freshDaemon mutualRequest).1 = liftedDaemon := rfl

/-- One `AuthRequest` with `mutual = true` turns the sender's flag on, and its next file is placed directly in the
download directory. -/
theorem mutual_request_lifts_gate :
    ¬ ∃ sha256 : Bytes → Digest, ∀ (localInfo : DeviceInfo) (cfg : XferConfig) (p : DeviceId) (d : Daemon)
      (frames : List Inbound) (t : Session), cfg.confirm = .unlisted → Unlisted d.registry p →
      BoundForPending cfg p d.rx →
      Run (fun s f => some (Session.handle sha256 localInfo cfg s f)) (fun _ f => f.peer = p) ⟨d, []⟩ frames t →
      Unlisted t.daemon.registry p ∧ PlacedInPending cfg p t.log := by
  rintro ⟨sha256, h⟩
  let info : DeviceInfo := ⟨"host", [], "linux"⟩
  have hrun := run_of_total (Session.handle sha256 info gatedConfig) (fun f => f.peer = "p") ⟨freshDaemon, []⟩
    [mutualRequest, inboundOf (.blobStart 1 "x" 0 .file)] (by decide)
  generalize hs : [mutualRequest, inboundOf (.blobStart 1 "x" 0 .file)].foldl
    (Session.handle sha256 info gatedConfig) ⟨freshDaemon, []⟩ = s at hrun
  have hd : s.daemon = (route sha256 info gatedConfig liftedDaemon (inboundOf (.blobStart 1 "x" 0 .file))).1 := by
    rw [← hs, ← route_mutualRequest sha256 info]
    rfl
  have hl : s.daemon.rx.incoming.lookup ("p", 1) =
      some ⟨"x", .file "d/.x.1.part" "d" ⟨⟨0, 0⟩, false⟩, [], 0, 0⟩ := by
    rw [hd]; rfl
  have hdest : uniqueDest s.daemon.rx.fs "d" "x" = "d/x" := by rw [hd]; rfl
  obtain ⟨fs', hren⟩ : ∃ fs', s.daemon.rx.fs.rename "d/.x.1.part" "d/x" = some fs' := by
    rw [hd]; exact ⟨_, rfl⟩
  rw [← hdest] at hren
  obtain ⟨shown, hout⟩ := onEnd_place sha256 gatedConfig s.daemon.registry Io.ok hl rfl (Or.inl rfl) rfl rfl hren
  have hend := hrun.snoc (e := inboundOf (.blobEnd 1 (sha256 []))) rfl rfl
  obtain ⟨-, hplaced⟩ := h info gatedConfig "p" freshDaemon _ _ rfl unlisted_freshDaemon
    boundForPending_freshDaemon hend
  have hlog : (inboundOf (.blobEnd 1 (sha256 [])),
      Routed.filexfer (onEnd sha256 gatedConfig s.daemon.registry Io.ok s.daemon.rx "p" 1 (sha256 [])).2) ∈
      (Session.handle sha256 info gatedConfig s (inboundOf (.blobEnd 1 (sha256 [])))).log :=
    List.mem_append_right _ (List.mem_singleton_self _)
  have hdirect := hplaced _ _ "d/.x.1.part" "d/x" hlog rfl (by rw [hout, hdest]; simp)
  exact hdirect.2 "x" (by decide) rfl

/-- Without the request the file goes to `pending`. -/
theorem gate_stays_closed_file :
    PlacedInPending gatedConfig "p" (([inboundOf (.authRequest false ⟨"phone", [], "linux"⟩),
      inboundOf (.blobStart 1 "x" 0 .file), inboundOf (.blobEnd 1 (Vector.replicate 32 0))].foldl
        (Session.handle (fun _ => Vector.replicate 32 0) ⟨"host", [], "linux"⟩ gatedConfig) ⟨freshDaemon, []⟩).log) :=
  (gate_stays_closed _ _ gatedConfig "p" freshDaemon _ _ rfl unlisted_freshDaemon boundForPending_freshDaemon
    (run_of_total _ (fun f : Inbound => f.peer = "p" ∧ asksMutual f.msg = false) _ _ (by decide))).2

end Qdrop
