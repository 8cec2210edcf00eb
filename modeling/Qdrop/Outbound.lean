import Qdrop.Connection.Pack
import Qdrop.Connection.Stream
import Qdrop.Control
import Qdrop.FileXfer.Acks
import Qdrop.Router

/-!
# What the daemon hands to its connections

Every producer of frames in one state machine: the sync loop, the requests of the control socket, the blob transfers,
and the replies to what the peers send.  The limit on a frame's length is checked by the reader alone; `outbound_fits`
says for each producer when the body of its frame is within it.  The counters of broadcasts and of transfers are taken
to stay below 2^64.
-/

namespace Qdrop

open Lib

/-- The fixed facts of a daemon. -/
structure DaemonConfig where
  clip : ClipConfig
  xfer : XferConfig

structure Producers where
  sync : SyncTask
  history : ClipHistory
  sender : Sender
  daemon : Daemon
  /-- The frames put into outbound channels, with their peers. -/
  handed : List (DeviceId × Message)

/-- A daemon just started, with any registry, history and disk. -/
def Producers.start (now : Int) (history : ClipHistory) (registry : PeersFile) (fs : FileSys PathBuf) : Producers :=
  ⟨SyncTask.start now, history, Sender.start, ⟨registry, AuthManager.new, ⟨∅, fs⟩⟩, []⟩

inductive ProducerEvent where
  | localClip (ctl : Controls) (now : Int) (clip : LocalClip)
  | broadcastLocal (bus : Bus)
  | remoteClip (ctl : Controls) (peer : DeviceId) (msg : Message)
  | applyRemote
  | clipSend (bus : Bus) (index : Nat) (dest : Option String)
  | openUrl (bus : Bus) (url : String) (dest : Option String)
  /-- A step of the blob transfers; a large image of the two producers above begins one. -/
  | sender (e : SenderEvent)
  /-- The router handles a frame; `localInfo` is what `local_device_info` finds. -/
  | inbound (bus : Bus) (localInfo : DeviceInfo) (f : Inbound)
  | refresh (w : Nat) (peer : DeviceId)
  | authorize (w : Nat) (peer : DeviceId) (mutualAuth connected : Bool)
  | register (w : Nat) (localInfo : DeviceInfo) (queued : Bool)
  | expire (w : Nat)
  | resume (w : Nat)
  | finish (w : Nat) (saveErr : Option String)

/-- The frames among the effects of the authorization subsystem. -/
def AuthEffect.frame : AuthEffect → Option (DeviceId × Message)
  | .send peer msg => some (peer, msg)
  | .notify .. | .answer .. => none

/-- The frames among the effects of the file transfer. -/
def Effect.frame : Effect → Option (DeviceId × Message)
  | .send peer msg => some (peer, msg)
  | _ => none

/-- The frames the router's subsystems reply with. -/
def Routed.frames : Routed → List (DeviceId × Message)
  | .filexfer effs => effs.filterMap Effect.frame
  | .auth effs => effs.filterMap AuthEffect.frame
  | .clipboard .. | .weblink .. | .ignored => []

variable (sha256 : Bytes → Digest) (cfg : DaemonConfig)

/-- A step of a producer, with the frames it puts into outbound channels. -/
def produce (s : Producers) : ProducerEvent → Option (Producers × List (DeviceId × Message))
  | .localClip ctl now clip =>
    if s.sync.phase ≠ .selecting then none
    else
      let (sync, skipped) := SyncTask.onLocal ctl now s.sync clip
      let history := if skipped = none then s.history.record sha256 clip "local" else s.history
      some ({ s with sync := sync, history := history }, [])
  | .broadcastLocal bus =>
    match s.sync.phase with
    | .recordingLocal clip =>
      let (sync, out) := SyncTask.broadcastLocal sha256 cfg.clip.maxText cfg.clip.ownId s.sync clip
      some ({ s with sync := sync }, match out with
        | .broadcast msg => bus.broadcast msg
        | .skipped _ | .blob _ => [])
    | .selecting | .recordingRemote _ => none
  | .remoteClip ctl peer msg =>
    if s.sync.phase ≠ .selecting then none
    else
      let sync := SyncTask.onRemote ctl cfg.clip.ownId cfg.clip.maxText s.sync msg
      let history := match sync.phase with
        | .recordingRemote clip => s.history.record sha256 clip peer
        | .selecting | .recordingLocal _ => s.history
      some ({ s with sync := sync, history := history }, [])
  | .applyRemote =>
    match s.sync.phase with
    | .recordingRemote clip => some ({ s with sync := (SyncTask.applyRemote sha256 s.sync clip).1 }, [])
    | .selecting | .recordingLocal _ => none
  | .clipSend bus index dest =>
    some (s, match s.history.get index with
      | some (.text t) => bus.handed (clipTargets bus s.daemon.registry dest) (clipSend cfg.clip.ownId t)
      | some (.image _) | none => [])
  | .openUrl bus url dest =>
    some (s, match dispatch bus s.daemon.registry url dest with
      | .ok targets => bus.handed targets (.openUrl url)
      | .error _ => [])
  | .sender e =>
    (senderStep sha256 s.sender e).map fun sender =>
      ({ s with sender := sender }, (s.sender.queues sha256 e).toList)
  | .inbound bus localInfo f =>
    let (daemon, routed) := route sha256 localInfo cfg.xfer s.daemon f
    some ({ s with daemon := daemon }, routed.frames.filter fun h => bus.sendTo h.1)
  | .refresh w peer =>
    some ({ s with daemon := { s.daemon with auth := s.daemon.auth.refresh s.daemon.registry w peer } }, [])
  | .authorize w peer mutualAuth connected =>
    match s.daemon.auth.authorize connected w peer mutualAuth with
    | .ok auth => some ({ s with daemon := { s.daemon with auth := auth } }, [])
    | .error _ => some (s, [])
  | .register w localInfo queued =>
    let (auth, effs) := s.daemon.auth.register localInfo queued w
    some ({ s with daemon := { s.daemon with auth := auth } }, effs.filterMap AuthEffect.frame)
  | .expire w => some ({ s with daemon := { s.daemon with auth := s.daemon.auth.expire w } }, [])
  | .resume w => some ({ s with daemon := { s.daemon with auth := (s.daemon.auth.resume w).1 } }, [])
  | .finish w saveErr =>
    let (auth, registry, _) := s.daemon.auth.finish s.daemon.registry saveErr w
    some ({ s with daemon := ⟨registry, auth, s.daemon.rx⟩ }, [])

/-- The daemon takes a step. -/
def produceStep (s : Producers) (e : ProducerEvent) : Option Producers :=
  (produce sha256 cfg s e).map fun out => { out.1 with handed := s.handed ++ out.2 }

/-! ### When a frame is within the limit -/

/-- The encoded body is one a reader accepts. -/
def Message.Fits (codec : Codec) (msg : Message) : Prop :=
  ∀ body, codec.encode msg = some body → body.length ≤ maxFrameLen

/-- An acknowledgement with a detail of `n` bytes is within the limit. -/
def AckFits (id n : Nat) : Prop := 26 + Msgpack.uintSize id + Msgpack.strSize n ≤ maxFrameLen

/-- The text of the operating system or the name of the file that the reply to a frame quotes, if it quotes one, is
short enough. -/
def ReplyFits (xfer : XferConfig) (registry : PeersFile) (io : Io) (rx : Rx) (peer : DeviceId) : Message → Prop
  | .blobStart id name _ .file =>
    ∀ safe, safeBlobName name = some safe → rx.incoming.keys.length < maxConcurrentIncoming →
      match if io.failMkdir then none else rx.fs.createDirAll (finalDirFor xfer registry peer) with
      | none => AckFits id (28 + io.err.utf8ByteSize)
      | some fs =>
        (io.failCreate = true ∨ fs.create (tmpPathFor (finalDirFor xfer registry peer) safe id) = none) →
          AckFits id (25 + io.err.utf8ByteSize)
  | .blobEnd id sha =>
    ∀ inc tmpPath finalDir file, rx.incoming.lookup (peer, id) = some inc → sha256 inc.hasher = sha →
      (inc.declared = 0 ∨ inc.written = inc.declared) → inc.sink = .file tmpPath finalDir file →
      if io.failRename = true ∨ rx.fs.rename tmpPath (uniqueDest rx.fs finalDir inc.name) = none then
        AckFits id (15 + io.err.utf8ByteSize)
      else AckFits id inc.name.utf8ByteSize
  | _ => True

/-- What a step puts into outbound channels is within the limit: the lengths of what it copies into a frame, on the
branches that send one. -/
def InLimit (s : Producers) : ProducerEvent → Prop
  | .broadcastLocal bus =>
    (∃ p, bus.sendTo p = true) →
      match s.sync.phase with
      | .recordingLocal (.text t) =>
        t.utf8ByteSize ≤ cfg.clip.maxText → some (sha256 (asBytes t)) ≠ s.sync.lastSynced →
          72 + Msgpack.uintSize (s.sync.seq + 1) + strLen cfg.clip.ownId + Msgpack.binSize t.utf8ByteSize ≤ maxFrameLen
      | .recordingLocal (.image png) =>
        png.length ≤ clipImageInlineMax → some (sha256 png) ≠ s.sync.lastSynced →
          57 + Msgpack.uintSize (s.sync.seq + 1) + strLen cfg.clip.ownId + Msgpack.binSize png.length ≤ maxFrameLen
      | .selecting | .recordingRemote _ => True
  | .clipSend bus index dest =>
    ∀ t, s.history.get index = some (.text t) → (∃ p ∈ clipTargets bus s.daemon.registry dest, bus.sendTo p = true) →
      73 + strLen cfg.clip.ownId + Msgpack.binSize t.utf8ByteSize ≤ maxFrameLen
  | .openUrl bus url dest =>
    isAllowedUrl url = true → (∃ p ∈ bus.targets s.daemon.registry dest, bus.sendTo p = true) →
      16 + strLen url ≤ maxFrameLen
  | .sender (.queue id) =>
    ∀ o, s.sender.calls.lookup id = some o → o.call.isStarting = true →
      35 + Msgpack.uintSize id + strLen o.call.name + Msgpack.uintSize o.call.size + o.call.purpose.pack.length ≤
        maxFrameLen
  | .inbound bus localInfo f =>
    bus.sendTo f.peer = true →
      ReplyFits sha256 cfg.xfer s.daemon.registry f.io s.daemon.rx f.peer f.msg ∧
        ∀ mutualAuth info, f.msg = .authRequest mutualAuth info → 23 + localInfo.packLen ≤ maxFrameLen
  | .register w localInfo queued =>
    ∀ call, s.daemon.auth.calls.lookup w = some call → call.phase = .checked → queued = true →
      29 + localInfo.packLen ≤ maxFrameLen
  | _ => True

variable {sha256 : Bytes → Digest} {cfg : DaemonConfig} {codec : Codec}

theorem Codec.Packs.fits_iff (h : codec.Packs) (msg : Message) : msg.Fits codec ↔ msg.pack.length ≤ maxFrameLen := by
  unfold Message.Fits
  rw [h msg]
  simp

/-- A frame for several peers is in the limit, or reaches none of them. -/
private theorem forall_handed {bus : Bus} {targets : List DeviceId} {msg : Message} :
    (∀ h ∈ bus.handed targets msg, h.2.Fits codec) ↔ ((∃ p ∈ targets, bus.sendTo p = true) → msg.Fits codec) := by
  simp only [Bus.handed, List.mem_map, List.mem_filter]
  constructor
  · rintro h ⟨p, hp, hs⟩
    exact h (p, msg) ⟨p, ⟨hp, hs⟩, rfl⟩
  · rintro h _ ⟨p, ⟨hp, hs⟩, rfl⟩
    exact h ⟨p, hp, hs⟩

private theorem forall_broadcast {bus : Bus} {msg : Message} :
    (∀ h ∈ bus.broadcast msg, h.2.Fits codec) ↔ ((∃ p, bus.sendTo p = true) → msg.Fits codec) := by
  rw [Bus.broadcast, forall_handed]
  have hiff : (∃ p ∈ bus.connected, bus.sendTo p = true) ↔ ∃ p, bus.sendTo p = true := by
    constructor
    · rintro ⟨p, -, hs⟩
      exact ⟨p, hs⟩
    · rintro ⟨p, hs⟩
      have hp : p ∈ bus.connected := by simpa using (Bool.and_eq_true_iff.1 hs).1
      exact ⟨p, hp, hs⟩
  rw [hiff]

private theorem clipText_fits (hp : codec.Packs) (seq : Nat) (ownId : DeviceId) (t : String) :
    (Message.clipboard seq ownId [ClipEntry.text t]).Fits codec ↔
      72 + Msgpack.uintSize seq + strLen ownId + Msgpack.binSize t.utf8ByteSize ≤ maxFrameLen := by
  rw [hp.fits_iff, Message.length_pack_clipboard, ClipEntry.length_pack_text]
  omega

private theorem clipPng_fits (hp : codec.Packs) (seq : Nat) (ownId : DeviceId) (png : Bytes) :
    (Message.clipboard seq ownId [ClipEntry.png png]).Fits codec ↔
      57 + Msgpack.uintSize seq + strLen ownId + Msgpack.binSize png.length ≤ maxFrameLen := by
  rw [hp.fits_iff, Message.length_pack_clipboard, ClipEntry.length_pack_png]
  omega

/-- The sync loop. -/
private theorem broadcastLocal_fits (hp : codec.Packs) (bus : Bus) (st : SyncTask) (clip : LocalClip) :
    (∀ h ∈ (match (SyncTask.broadcastLocal sha256 cfg.clip.maxText cfg.clip.ownId st clip).2 with
        | .broadcast msg => bus.broadcast msg
        | .skipped _ | .blob _ => []), h.2.Fits codec) ↔
      ((∃ p, bus.sendTo p = true) →
        match clip with
        | .text t =>
          t.utf8ByteSize ≤ cfg.clip.maxText → some (sha256 (asBytes t)) ≠ st.lastSynced →
            72 + Msgpack.uintSize (st.seq + 1) + strLen cfg.clip.ownId + Msgpack.binSize t.utf8ByteSize ≤ maxFrameLen
        | .image png =>
          png.length ≤ clipImageInlineMax → some (sha256 png) ≠ st.lastSynced →
            57 + Msgpack.uintSize (st.seq + 1) + strLen cfg.clip.ownId + Msgpack.binSize png.length ≤ maxFrameLen) := by
  cases clip with
  | text t =>
    simp only [SyncTask.broadcastLocal]
    by_cases hlen : cfg.clip.maxText < t.utf8ByteSize
    · have hlen' : ¬ t.utf8ByteSize ≤ cfg.clip.maxText := Nat.not_le.2 hlen
      simp [hlen, hlen']
    · have hlen' : t.utf8ByteSize ≤ cfg.clip.maxText := Nat.not_lt.1 hlen
      by_cases hnew : some (sha256 (asBytes t)) = st.lastSynced
      · simp [hlen, hnew]
      · simp only [hlen, hnew, hlen', if_false, ne_eq, not_false_eq_true, forall_const]
        rw [forall_broadcast, clipText_fits hp]
  | image png =>
    simp only [SyncTask.broadcastLocal]
    by_cases hnew : some (sha256 png) = st.lastSynced
    · simp [hnew]
    · by_cases hlen : png.length ≤ clipImageInlineMax
      · simp only [hlen, hnew, if_false, if_true, ne_eq, not_false_eq_true, forall_const]
        rw [forall_broadcast, clipPng_fits hp]
      · simp [hnew, hlen]

/-! ### The replies -/

private theorem blobAck_fits (hp : codec.Packs) (id : Nat) (ok : Bool) (detail : String) :
    (Message.blobAck id ok detail).Fits codec ↔ AckFits id detail.utf8ByteSize := by
  rw [hp.fits_iff, Message.length_pack_blobAck]
  rfl

private theorem ackFits_of_short {id n : Nat} (h : n ≤ 100) : AckFits id n := by
  have hid := Msgpack.uintSize_le id
  have hn := Msgpack.strSize_le n
  unfold AckFits maxFrameLen
  omega

/-- A reply whose detail is a short text of the program. -/
private theorem reject_fits (hp : codec.Packs) (peer : DeviceId) (id : Nat) (detail : String)
    (h : detail.utf8ByteSize ≤ 100) : ∀ f ∈ [reject peer id detail].filterMap Effect.frame, f.2.Fits codec := by
  simp [reject, Effect.frame, blobAck_fits hp, ackFits_of_short h]

private theorem openTemp_fits (hp : codec.Packs) (xfer : XferConfig) (registry : PeersFile) (io : Io) (rx : Rx)
    (peer : DeviceId) (id : Nat) (safe : String) (size : Nat) :
    (∀ f ∈ (openTemp xfer registry io rx peer id safe size).2.filterMap Effect.frame, f.2.Fits codec) ↔
      match if io.failMkdir then none else rx.fs.createDirAll (finalDirFor xfer registry peer) with
      | none => AckFits id (28 + io.err.utf8ByteSize)
      | some fs =>
        (io.failCreate = true ∨ fs.create (tmpPathFor (finalDirFor xfer registry peer) safe id) = none) →
          AckFits id (25 + io.err.utf8ByteSize) := by
  have h₁ : (s!"cannot create download dir: {io.err}").utf8ByteSize = 28 + io.err.utf8ByteSize := by
    rw [String.utf8ByteSize_append]
    rfl
  have h₂ : (s!"cannot create temp file: {io.err}").utf8ByteSize = 25 + io.err.utf8ByteSize := by
    rw [String.utf8ByteSize_append]
    rfl
  unfold openTemp
  dsimp only
  cases hmk : if io.failMkdir then none else rx.fs.createDirAll (finalDirFor xfer registry peer) with
  | none => simp [reject, Effect.frame, blobAck_fits hp, h₁]
  | some fs =>
    dsimp only
    cases hcr : if io.failCreate then none else fs.create (tmpPathFor (finalDirFor xfer registry peer) safe id) with
    | none =>
      have hfail : io.failCreate = true ∨ fs.create (tmpPathFor (finalDirFor xfer registry peer) safe id) = none := by
        split at hcr
        · rename_i h
          exact Or.inl h
        · exact Or.inr hcr
      simp [reject, Effect.frame, blobAck_fits hp, h₂, hfail]
    | some out =>
      have hok : ¬ (io.failCreate = true ∨
          fs.create (tmpPathFor (finalDirFor xfer registry peer) safe id) = none) := by
        split at hcr
        · cases hcr
        · rename_i h
          simp [h, hcr]
      simp [Effect.frame, hok]

private theorem onStart_fits (hp : codec.Packs) (xfer : XferConfig) (registry : PeersFile) (io : Io) (rx : Rx)
    (peer : DeviceId) (id : Nat) (name : String) (size : Nat) (purpose : BlobPurpose) :
    (∀ f ∈ (onStart xfer registry io rx peer id name size purpose).2.filterMap Effect.frame, f.2.Fits codec) ↔
      ReplyFits sha256 xfer registry io rx peer (.blobStart id name size purpose) := by
  unfold onStart
  by_cases hfull : maxConcurrentIncoming ≤ rx.incoming.keys.length
  · rw [if_pos hfull]
    refine iff_of_true (reject_fits hp peer id _ (by decide)) ?_
    cases purpose with
    | clipboardImage => trivial
    | file =>
      intro safe _ hlt
      omega
  · rw [if_neg hfull]
    cases purpose with
    | clipboardImage =>
      refine iff_of_true ?_ trivial
      dsimp only
      split
      · exact reject_fits hp peer id _ (by decide)
      · split
        · exact reject_fits hp peer id _ (by decide)
        · simp
    | file =>
      dsimp only
      cases hsafe : safeBlobName name with
      | none =>
        refine iff_of_true (reject_fits hp peer id _ (by decide)) ?_
        intro safe h
        rw [hsafe] at h
        cases h
      | some safe =>
        rw [openTemp_fits hp]
        constructor
        · intro h safe' hsafe' _
          obtain rfl : safe = safe' := Option.some.inj (hsafe.symm.trans hsafe')
          exact h
        · intro h
          exact h safe hsafe (by omega)

private theorem frames_tryRemove (io : Io) (fs : FileSys PathBuf) (p : PathBuf) :
    (tryRemove io fs p).2.filterMap Effect.frame = [] := by
  refine List.filterMap_eq_nil_iff.2 fun eff h => ?_
  rw [mem_tryRemove h]
  rfl

private theorem frames_cleanup (io : Io) (fs : FileSys PathBuf) (sink : Sink) :
    (cleanup io fs sink).2.filterMap Effect.frame = [] := by
  refine List.filterMap_eq_nil_iff.2 fun eff h => ?_
  obtain ⟨p, rfl⟩ := mem_cleanup h
  rfl

private theorem onChunk_fits (hp : codec.Packs) (io : Io) (rx : Rx) (peer : DeviceId) (id : Nat) (data : Bytes) :
    ∀ f ∈ (onChunk io rx peer id data).2.filterMap Effect.frame, f.2.Fits codec := by
  rcases onChunk_cases io rx peer id data with
    ⟨-, h⟩ | ⟨_, _, _, _, _, _, -, -, -, h⟩ | ⟨_, tmpPath, _, _, fs, _, -, -, -, h⟩ | ⟨_, _, -, -, -, h⟩ |
    ⟨_, _, -, -, h⟩
  · simp [h]
  · simp [h, Effect.frame]
  · have hr := reject_fits hp peer id "write failed" (by decide)
    have hrm := frames_tryRemove io fs tmpPath
    rw [h, List.filterMap_append, List.filterMap_cons, hrm]
    exact hr
  · simp [h]
  · rw [h]
    exact reject_fits hp peer id _ (by decide)

private theorem place_fits (hp : codec.Packs) (xfer : XferConfig) (registry : PeersFile) (io : Io) (rx : Rx)
    (peer : DeviceId) (id : Nat) (name : String) (tmpPath finalDir : PathBuf) :
    (∀ f ∈ (place xfer registry io rx peer id name tmpPath finalDir).2.filterMap Effect.frame, f.2.Fits codec) ↔
      if io.failRename = true ∨ rx.fs.rename tmpPath (uniqueDest rx.fs finalDir name) = none then
        AckFits id (15 + io.err.utf8ByteSize)
      else AckFits id name.utf8ByteSize := by
  have h₁ : (s!"rename failed: {io.err}").utf8ByteSize = 15 + io.err.utf8ByteSize := by
    rw [String.utf8ByteSize_append]
    rfl
  unfold place
  dsimp only
  cases hren : if io.failRename then none else rx.fs.rename tmpPath (uniqueDest rx.fs finalDir name) with
  | none =>
    have hfail : io.failRename = true ∨ rx.fs.rename tmpPath (uniqueDest rx.fs finalDir name) = none := by
      split at hren
      · rename_i h
        exact Or.inl h
      · exact Or.inr hren
    rw [if_pos hfail]
    simp [reject, Effect.frame, frames_tryRemove, blobAck_fits hp, h₁]
  | some fs =>
    have hok : ¬ (io.failRename = true ∨ rx.fs.rename tmpPath (uniqueDest rx.fs finalDir name) = none) := by
      split at hren
      · cases hren
      · rename_i h
        simp [h, hren]
    rw [if_neg hok]
    simp [Effect.frame, blobAck_fits hp]

private theorem onEnd_fits (hp : codec.Packs) (xfer : XferConfig) (registry : PeersFile) (io : Io) (rx : Rx)
    (peer : DeviceId) (id : Nat) (sha : Digest) :
    (∀ f ∈ (onEnd sha256 xfer registry io rx peer id sha).2.filterMap Effect.frame, f.2.Fits codec) ↔
      ReplyFits sha256 xfer registry io rx peer (.blobEnd id sha) := by
  unfold onEnd ReplyFits
  cases hl : rx.incoming.lookup (peer, id) with
  | none =>
    refine iff_of_true (by simp) ?_
    rintro inc _ _ _ hinc
    rw [hl] at hinc
    cases hinc
  | some inc =>
    dsimp only
    by_cases hsha : sha256 inc.hasher = sha
    · rw [if_neg (not_not.2 hsha)]
      by_cases hsize : inc.declared ≠ 0 ∧ inc.written ≠ inc.declared
      · rw [if_pos hsize]
        refine iff_of_true ?_ ?_
        · have hr := reject_fits hp peer id "size mismatch" (by decide)
          simpa [frames_cleanup] using hr
        · rintro inc' _ _ _ hinc' - hs' -
          obtain rfl := Option.some.inj (hl.symm.trans hinc')
          omega
      · rw [if_neg hsize]
        have hsize' : inc.declared = 0 ∨ inc.written = inc.declared := by tauto
        cases hsink : inc.sink with
        | memory buf =>
          refine iff_of_true ?_ ?_
          · have hshort : AckFits id ("clipboard-image" : String).utf8ByteSize := ackFits_of_short (by decide)
            dsimp only
            split <;> simp [Effect.frame, blobAck_fits hp, hshort]
          · rintro inc' _ _ _ hinc' - - hsink'
            obtain rfl := Option.some.inj (hl.symm.trans hinc')
            rw [hsink] at hsink'
            cases hsink'
        | file tmpPath finalDir file =>
          dsimp only
          rw [place_fits hp]
          constructor
          · rintro h inc' tmpPath' finalDir' file' hinc' - - hsink'
            obtain rfl := Option.some.inj (hl.symm.trans hinc')
            rw [hsink] at hsink'
            cases hsink'
            exact h
          · intro h
            exact h inc tmpPath finalDir file hl hsha hsize' hsink
    · rw [if_pos hsha]
      refine iff_of_true ?_ ?_
      · have hr := reject_fits hp peer id "sha256 mismatch" (by decide)
        simpa [frames_cleanup] using hr
      · rintro inc' _ _ _ hinc' hsha' - -
        obtain rfl := Option.some.inj (hl.symm.trans hinc')
        exact absurd hsha' hsha

/-- The handlers of the file transfer reply with acknowledgements, to the peer whose frame they handle. -/
theorem handleBlob_replies (xfer : XferConfig) (registry : PeersFile) (io : Io) (rx : Rx) (peer : DeviceId)
    (msg : Message) : ∀ f ∈ (handleBlob sha256 xfer registry io rx peer msg).2.filterMap Effect.frame,
      ∃ id ok detail, f = (peer, .blobAck id ok detail) := by
  unfold handleBlob
  split
  · rename_i id name size purpose
    rcases onStart_cases xfer registry io rx peer id name size purpose with
      ⟨_, h⟩ | ⟨_, _, -, h⟩ | ⟨-, -, -, h⟩ | ⟨_, _, _, _, -, -, -, -, -, h⟩ <;> simp [h, reject, Effect.frame]
  · rename_i id data
    rcases onChunk_cases io rx peer id data with
      ⟨-, h⟩ | ⟨_, _, _, _, _, _, -, -, -, h⟩ | ⟨_, tmpPath, _, _, fs, _, -, -, -, h⟩ | ⟨_, _, -, -, -, h⟩ |
      ⟨_, _, -, -, h⟩
    · simp [h]
    · simp [h, Effect.frame]
    · rw [h, List.filterMap_append, List.filterMap_cons, frames_tryRemove]
      simp [reject, Effect.frame]
    · simp [h]
    · simp [h, reject, Effect.frame]
  · rename_i id sha
    rcases onEnd_cases sha256 xfer registry io rx peer id sha with
      ⟨-, h⟩ | ⟨_, _, -, h⟩ | ⟨_, _, -, -, -, h⟩ | ⟨_, _, _, _, _, _, -, -, -, -, h⟩ | ⟨_, _, _, _, _, -, -, h⟩
    · simp [h]
    · rw [h, List.filterMap_append, frames_cleanup]
      simp [reject, Effect.frame]
    · rw [h]
      split <;> simp [Effect.frame]
    · simp [h, Effect.frame]
    · rw [h, List.filterMap_append, frames_tryRemove]
      simp [reject, Effect.frame]
  · simp

private theorem handleBlob_fits (hp : codec.Packs) (xfer : XferConfig) (registry : PeersFile) (io : Io) (rx : Rx)
    (peer : DeviceId) (msg : Message) :
    (∀ f ∈ (handleBlob sha256 xfer registry io rx peer msg).2.filterMap Effect.frame, f.2.Fits codec) ↔
      ReplyFits sha256 xfer registry io rx peer msg := by
  cases msg with
  | blobStart id name size purpose => exact onStart_fits hp xfer registry io rx peer id name size purpose
  | blobChunk id data => exact iff_of_true (onChunk_fits hp io rx peer id data) trivial
  | blobEnd id sha => exact onEnd_fits hp xfer registry io rx peer id sha
  | hello | ping | pong | clipboard | blobAck | openUrl | authRequest | authReply =>
    exact iff_of_true (by simp [handleBlob]) trivial

theorem handleInbound_frames (localInfo : DeviceInfo) (registry : PeersFile) (saveErr : Option String)
    (auth : AuthManager) (peer : DeviceId) (mutualAuth : Bool) (info : DeviceInfo) :
    (auth.handleInbound localInfo registry saveErr peer (.authRequest mutualAuth info)).2.2.filterMap AuthEffect.frame =
      [(peer, .authReply true localInfo)] := by
  unfold AuthManager.handleInbound
  dsimp only
  split
  · split <;> rfl
  · rfl

/-- The replies of the router. -/
private theorem route_fits (hp : codec.Packs) (localInfo : DeviceInfo) (bus : Bus) (d : Daemon) (f : Inbound) :
    (∀ h ∈ (route sha256 localInfo cfg.xfer d f).2.frames.filter (fun h => bus.sendTo h.1), h.2.Fits codec) ↔
      (bus.sendTo f.peer = true →
        ReplyFits sha256 cfg.xfer d.registry f.io d.rx f.peer f.msg ∧
          ∀ mutualAuth info, f.msg = .authRequest mutualAuth info → 23 + localInfo.packLen ≤ maxFrameLen) := by
  have hfilter : ∀ frames : List (DeviceId × Message), (∀ h ∈ frames, h.1 = f.peer) →
      ((∀ h ∈ frames.filter (fun h => bus.sendTo h.1), h.2.Fits codec) ↔
        (bus.sendTo f.peer = true → ∀ h ∈ frames, h.2.Fits codec)) := by
    intro frames hpeer
    simp only [List.mem_filter]
    constructor
    · intro h hs m hm
      exact h m ⟨hm, by rw [hpeer m hm]; exact hs⟩
    · rintro h m ⟨hm, hs⟩
      rw [hpeer m hm] at hs
      exact h hs m hm
  have hblob : ∀ frames : List (DeviceId × Message),
      frames = (handleBlob sha256 cfg.xfer d.registry f.io d.rx f.peer f.msg).2.filterMap Effect.frame →
      (∀ mutualAuth info, f.msg ≠ .authRequest mutualAuth info) →
      ((∀ h ∈ frames.filter (fun h => bus.sendTo h.1), h.2.Fits codec) ↔ (bus.sendTo f.peer = true →
        ReplyFits sha256 cfg.xfer d.registry f.io d.rx f.peer f.msg ∧
          ∀ mutualAuth info, f.msg = .authRequest mutualAuth info → 23 + localInfo.packLen ≤ maxFrameLen)) := by
    rintro frames rfl hne
    have hpeer : ∀ h ∈ (handleBlob sha256 cfg.xfer d.registry f.io d.rx f.peer f.msg).2.filterMap Effect.frame,
        h.1 = f.peer := by
      intro h hh
      obtain ⟨id, ok, detail, rfl⟩ := handleBlob_replies cfg.xfer d.registry f.io d.rx f.peer f.msg h hh
      rfl
    rw [hfilter _ hpeer, handleBlob_fits hp]
    refine forall_congr' fun _ => ?_
    constructor
    · intro h
      exact ⟨h, fun mutualAuth info he => absurd he (hne mutualAuth info)⟩
    · rintro ⟨h, -⟩
      exact h
  obtain ⟨peer, msg, io, saveErr⟩ := f
  cases msg with
  | blobStart | blobChunk | blobEnd | blobAck => exact hblob _ rfl (fun _ _ h => by cases h)
  | authRequest mutualAuth info =>
    have hframes : (route sha256 localInfo cfg.xfer d ⟨peer, .authRequest mutualAuth info, io, saveErr⟩).2.frames =
        [(peer, .authReply true localInfo)] :=
      handleInbound_frames localInfo d.registry saveErr d.auth peer mutualAuth info
    rw [hframes, hfilter _ (by simp)]
    simp [hp.fits_iff, Message.length_pack_authReply, ReplyFits]
  | authReply ok info =>
    refine iff_of_true ?_ (fun _ => ⟨trivial, (fun _ _ h => by cases h)⟩)
    simp only [route, Routed.frames, AuthManager.handleInbound]
    split <;> simp
  | hello | ping | pong | clipboard | openUrl =>
    exact iff_of_true (by simp [route, Routed.frames]) fun _ => ⟨trivial, (fun _ _ h => by cases h)⟩

private theorem register_fits (hp : codec.Packs) (auth : AuthManager) (localInfo : DeviceInfo) (queued : Bool)
    (w : Nat) :
    (∀ h ∈ (auth.register localInfo queued w).2.filterMap AuthEffect.frame, h.2.Fits codec) ↔
      ∀ call, auth.calls.lookup w = some call → call.phase = .checked → queued = true →
        29 + localInfo.packLen ≤ maxFrameLen := by
  unfold AuthManager.register
  split
  · rename_i peer caller hl
    cases queued with
    | false => exact iff_of_true (by simp) (fun _ _ _ h => by cases h)
    | true =>
      simp only [if_true, List.filterMap_cons, AuthEffect.frame, List.filterMap_nil, List.mem_singleton, forall_eq,
        hp.fits_iff, Message.length_pack_authRequest, forall_const]
      constructor
      · intro h _ _ _
        exact h
      · intro h
        exact h _ hl rfl
  · rename_i hne
    refine iff_of_true (by simp) ?_
    rintro ⟨peer, caller, phase⟩ hl rfl
    exact absurd hl (hne peer caller)

/-- No call is about to queue a chunk longer than `BLOB_CHUNK`. -/
def Producers.ShortChunks (s : Producers) : Prop :=
  ∀ id o, s.sender.calls.lookup id = some o → ∀ data, o.call.phase = .sending data → data.length ≤ blobChunk

/-- A blob transfer queues a `BlobStart` with the file's name; its other frames are short. -/
private theorem queue_fits (hp : codec.Packs) {s s' : Sender} {id : Nat}
    (hchunks : ∀ id o, s.calls.lookup id = some o → ∀ data, o.call.phase = .sending data → data.length ≤ blobChunk)
    (hs : senderStep sha256 s (.queue id) = some s') :
    (∀ h ∈ (s.queues sha256 (.queue id)).toList, h.2.Fits codec) ↔
      ∀ o, s.calls.lookup id = some o → o.call.isStarting = true →
        35 + Msgpack.uintSize id + strLen o.call.name + Msgpack.uintSize o.call.size + o.call.purpose.pack.length ≤
          maxFrameLen := by
  obtain ⟨out, hq, -⟩ := Option.map_eq_some_iff.1 hs
  obtain ⟨o, m, hl, hm, rfl⟩ := Sender.queue_cases hq
  have hqueues : s.queues sha256 (.queue id) = some (o.peer, m) := by simp [Sender.queues, hq]
  have hid := Msgpack.uintSize_le id
  rw [hqueues]
  simp only [Option.toList_some, List.mem_singleton, forall_eq, hp.fits_iff, hl, Option.some.injEq, forall_eq']
  rcases SendCall.frame_cases hm with ⟨hst, rfl, -⟩ | ⟨data, hst, rfl, -⟩ | ⟨sha, hst, rfl, -⟩
  · rw [Message.length_pack_blobStart]
    simp [hst]
  · refine iff_of_true ?_ (fun h => by simp [hst] at h)
    have hdata : data.length ≤ blobChunk := by
      refine hchunks id o hl data ?_
      unfold SendCall.frame at hm
      split at hm <;> cases hm
      assumption
    have hbin := Msgpack.binSize_le data.length
    rw [Message.length_pack_blobChunk]
    unfold blobChunk at hdata
    unfold maxFrameLen
    omega
  · refine iff_of_true ?_ (fun h => by simp [hst] at h)
    have hend := Message.length_pack_blobEnd id sha
    unfold maxFrameLen
    omega

/-! ### Every producer -/

/-- A step hands over frames within the limit exactly when the lengths of what it copies into them allow it. -/
theorem produce_fits (hp : codec.Packs) {s : Producers} {e : ProducerEvent}
    {out : Producers × List (DeviceId × Message)} (hchunks : s.ShortChunks) (h : produce sha256 cfg s e = some out) :
    (∀ h ∈ out.2, h.2.Fits codec) ↔ InLimit sha256 cfg s e := by
  cases e with
  | broadcastLocal bus =>
    unfold produce at h
    dsimp only at h
    split at h
    · rename_i clip hphase
      cases h
      rw [broadcastLocal_fits hp, InLimit, hphase]
      cases clip <;> rfl
    · cases h
    · cases h
  | clipSend bus index dest =>
    cases h
    unfold InLimit
    dsimp only
    cases hget : s.history.get index with
    | none => simp
    | some r =>
      cases r with
      | image png => simp
      | text t =>
        dsimp only
        rw [forall_handed, clipSend, clipText_fits hp]
        have hu : Msgpack.uintSize 0 = 1 := rfl
        simp only [Option.some.injEq, Restored.text.injEq, forall_eq', hu]
  | openUrl bus url dest =>
    cases h
    unfold InLimit dispatch
    by_cases hok : isAllowedUrl url = true
    · cases htargets : bus.targets s.daemon.registry dest with
      | nil => cases dest <;> simp [hok, htargets]
      | cons p ps =>
        simp only [hok, Bool.true_eq_false, if_false, forall_const]
        rw [forall_handed, hp.fits_iff, Message.length_pack_openUrl, htargets]
    · simp [hok]
  | sender e =>
    obtain ⟨sender, hs, rfl⟩ := Option.map_eq_some_iff.1 h
    cases e with
    | queue id => exact queue_fits hp hchunks hs
    | sendOne | sendClipImage | closed | openFile | read | nextChunk | answer | timeout | inbound =>
      exact iff_of_true (by simp [Sender.queues]) trivial
  | inbound bus localInfo f =>
    cases h
    exact route_fits hp localInfo bus s.daemon f
  | register w localInfo queued =>
    cases h
    exact register_fits hp s.daemon.auth localInfo queued w
  | localClip | remoteClip | applyRemote | refresh | authorize | expire | resume | finish =>
    unfold produce at h
    dsimp only at h
    repeat' split at h
    all_goals cases h
    all_goals exact iff_of_true (by simp) trivial

private theorem shortChunks_step {s t : Producers} {e : ProducerEvent} (h : s.ShortChunks)
    (hs : produceStep sha256 cfg s e = some t) : t.ShortChunks := by
  obtain ⟨out, hout, rfl⟩ := Option.map_eq_some_iff.1 hs
  have hkeep : out.1.sender = s.sender → Producers.ShortChunks { out.1 with handed := s.handed ++ out.2 } := by
    intro heq id o hl
    exact h id o (by rw [← heq]; exact hl)
  cases e with
  | sender e =>
    obtain ⟨sender, hsender, rfl⟩ := Option.map_eq_some_iff.1 hout
    refine Sender.calls_step (R := fun _ o => ∀ data, o.call.phase = .sending data → data.length ≤ blobChunk) hsender
      ?_ (fun _ _ _ h => h) ?_ (fun _ _ _ _ _ hc => hc.chunk) (fun _ _ _ _ _ h => h) h
    · intro peer c _ hc data hd
      have hd : c.phase = .sending data := hd
      simp [SendCall.isStarting, hd] at hc
    · intro id o m _ _ _ hm data hd
      exact absurd hd (SendCall.queued_phase_ne_sending hm data)
  | localClip | broadcastLocal | remoteClip | applyRemote | clipSend | openUrl | inbound | refresh | authorize |
    register | expire | resume | finish =>
    unfold produce at hout
    dsimp only at hout
    repeat' split at hout
    all_goals cases hout
    all_goals exact hkeep rfl

/-- Every frame the daemon put into an outbound channel has a body a reader accepts. -/
def Producers.AllFit (codec : Codec) (s : Producers) : Prop := ∀ h ∈ s.handed, h.2.Fits codec

/-- The frames of a run are all within the reader's limit if and only if each of its steps keeps what it copies into a
frame short enough. -/
theorem outbound_fits (sha256 : Bytes → Digest) (cfg : DaemonConfig) {codec : Codec} (hp : codec.Packs) (now : Int)
    (history : ClipHistory) (registry : PeersFile) (fs : FileSys PathBuf) {es : List ProducerEvent} {s : Producers}
    (hr : Run (produceStep sha256 cfg) Always (.start now history registry fs) es s) :
    s.AllFit codec ↔ Run (produceStep sha256 cfg) (InLimit sha256 cfg) (.start now history registry fs) es s := by
  refine hr.iff_of_step (I := Producers.ShortChunks) (P := Producers.AllFit codec) ?_ ?_ ?_ ?_
  · intro id o hl
    cases hl
  · intro h hh
    cases hh
  · exact fun s e t h hs => shortChunks_step h hs
  · intro s e t h hs
    obtain ⟨out, hout, rfl⟩ := Option.map_eq_some_iff.1 hs
    rw [← produce_fits hp h hout]
    simp only [Producers.AllFit, List.mem_append]
    constructor
    · intro hall
      exact ⟨fun f hf => hall f (Or.inl hf), fun f hf => hall f (Or.inr hf)⟩
    · rintro ⟨hold, hnew⟩ f (hf | hf)
      · exact hold f hf
      · exact hnew f hf

/-- `rmp_serde` without its decoder. -/
private def packer : Codec := ⟨fun msg => some msg.pack, fun _ => .error "not read"⟩

/-- A daemon with the default limit of 1 MiB for clipboard texts. -/
private def defaults : DaemonConfig := ⟨⟨"a", .other, 1024 * 1024⟩, ⟨"d", .never, true⟩⟩

private def noHash (_ : Bytes) : Digest := Vector.replicate 32 0

private def peerB : Bus := ⟨["b"], List.nodup_singleton _, fun _ => true⟩

theorem outbound_fits_open :
    ∃ s, Run (produceStep noHash defaults) Always (.start 0 (.load 25 []) .absent FileSys.empty)
        [.openUrl peerB "http://a" none] s ∧
      s.handed = [("b", .openUrl "http://a")] ∧ s.AllFit packer := by
  have hstep : produceStep noHash defaults (.start 0 (.load 25 []) .absent FileSys.empty)
      (.openUrl peerB "http://a" none) =
      some { Producers.start 0 (.load 25 []) .absent FileSys.empty with handed := [("b", .openUrl "http://a")] } := by
    have hok : isAllowedUrl "http://a" = true := by decide +kernel
    simp [produceStep, produce, dispatch, hok, Bus.targets, peerB, Bus.handed, Bus.sendTo, Producers.start]
  have hlen : 16 + strLen "http://a" ≤ maxFrameLen := by decide +kernel
  refine ⟨_, (Run.nil _).snoc trivial hstep, rfl, ?_⟩
  exact (outbound_fits noHash defaults (fun _ => rfl) 0 (.load 25 []) .absent FileSys.empty
    ((Run.nil _).snoc trivial hstep)).2 ((Run.nil _).snoc (fun _ _ => hlen) hstep)

/-- What the user copied is sent from the history, whatever the limit says. -/
private theorem sent_from_history {t : String} (hne : t ≠ "") (hover : defaults.clip.maxText < t.utf8ByteSize) :
    ∃ s, Run (produceStep noHash defaults) Always (.start 0 (.load 25 []) .absent FileSys.empty)
        [.localClip ⟨false, true⟩ 0 (.text t), .broadcastLocal peerB, .clipSend peerB 0 none] s ∧
      s.handed = [("b", clipSend "a" t)] := by
  obtain ⟨s₁, hs₁⟩ : ∃ s₁ : Producers, s₁ = {
      Producers.start 0 (.load 25 []) .absent FileSys.empty with
      sync := ⟨0, none, 0, .recordingLocal (.text t)⟩
      history := ⟨25, [⟨.text t, "local", noHash (asBytes t)⟩]⟩ } := ⟨_, rfl⟩
  have hcopy : produceStep noHash defaults (.start 0 (.load 25 []) .absent FileSys.empty)
      (.localClip ⟨false, true⟩ 0 (.text t)) = some s₁ := by
    simp [produceStep, produce, Producers.start, SyncTask.start, SyncTask.onLocal, minGap, ClipHistory.load,
      ClipHistory.record, ClipHistory.recordText, ClipHistory.enabled, ClipHistory.push, hne, hs₁]
  have hskip : produceStep noHash defaults s₁ (.broadcastLocal peerB) =
      some { s₁ with sync := ⟨0, none, 0, .selecting⟩, handed := [] } := by
    simp [produceStep, produce, hs₁, SyncTask.broadcastLocal, hover, Producers.start]
  have hsend : produceStep noHash defaults { s₁ with sync := ⟨0, none, 0, .selecting⟩, handed := [] }
      (.clipSend peerB 0 none) =
      some { s₁ with sync := ⟨0, none, 0, .selecting⟩, handed := [("b", clipSend "a" t)] } := by
    simp [produceStep, produce, hs₁, ClipHistory.get, clipTargets, peerB, Bus.handed, Bus.sendTo, defaults]
  exact ⟨_, (((Run.nil _).snoc trivial hcopy).snoc trivial hskip).snoc trivial hsend, rfl⟩

private theorem length_clipSend {t : String} (ht : t.utf8ByteSize = maxFrameLen) :
    (clipSend "a" t).pack.length = maxFrameLen + 80 := by
  have hown : strLen "a" = 2 := rfl
  have hbin : Msgpack.binSize maxFrameLen = 5 + maxFrameLen := by
    unfold Msgpack.binSize
    rw [if_neg (by decide), if_neg (by decide)]
  have hu : Msgpack.uintSize 0 = 1 := rfl
  rw [clipSend, Message.length_pack_clipboard, ClipEntry.length_pack_text, ht, hown, hbin, hu]
  omega

/-- A text of 16 MiB that was copied and not broadcast, for it is over the limit, is sent all the same from the
history; the reader refuses the frame. -/
theorem history_text_too_large :
    ∃ es s, Run (produceStep noHash defaults) Always (.start 0 (.load 25 []) .absent FileSys.empty) es s ∧
      packer.Packs ∧ ∃ peer msg body bytes, (peer, msg) ∈ s.handed ∧ packer.encode msg = some body ∧
        maxFrameLen < body.length ∧ writeMessage packer msg = some bytes ∧
        ∀ stop rest, readMessage packer stop (bytes ++ rest) = .error (.tooLarge body.length) := by
  obtain ⟨t, ht⟩ : ∃ t : String, t.utf8ByteSize = maxFrameLen := ⟨longText maxFrameLen, utf8ByteSize_longText _⟩
  have hne : t ≠ "" := by
    rintro rfl
    cases ht
  have hover : defaults.clip.maxText < t.utf8ByteSize := by
    rw [ht]
    decide
  have hlen := length_clipSend ht
  have hlt : (clipSend "a" t).pack.length < 2 ^ 32 := by
    rw [hlen]
    decide
  have hwrite := writeMessage_of_encode (show packer.encode (clipSend "a" t) = some (clipSend "a" t).pack from rfl) hlt
  obtain ⟨s, hr, hhanded⟩ := sent_from_history hne hover
  refine ⟨_, s, hr, fun _ => rfl, "b", clipSend "a" t, _, _, ?_, rfl, by omega, hwrite, ?_⟩
  · rw [hhanded]
    exact List.mem_singleton_self _
  · exact fun stop rest => readMessage_tooLarge (by omega) hlt rest

end Qdrop
