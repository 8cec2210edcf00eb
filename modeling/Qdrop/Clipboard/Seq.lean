import Qdrop.Outbound

/-!
# Sequence numbers of clipboard frames (`qdropd/src/sync.rs`, `control.rs`)

`Message::Clipboard` documents `seq` as monotonic per origin.  The sync loop counts its broadcasts from one, and a
`ClipSend` request of the control socket sends its text with the number zero.  `own_seqs_increase_iff` says which runs
keep the numbers increasing.
-/

namespace Qdrop

open Lib

/-- The sequence number of a clipboard frame that has `ownId` as its origin. -/
def Message.ownSeq? (ownId : DeviceId) : Message → Option Nat
  | .clipboard seq originId _ => if originId = ownId then some seq else none
  | _ => none

/-- The daemon's own sequence numbers among the frames for `peer`, in the order they were queued. -/
def ownSeqs (ownId peer : DeviceId) (handed : List (DeviceId × Message)) : List Nat :=
  handed.filterMap fun h => if h.1 = peer then h.2.ownSeq? ownId else none

/-- The numbers queued to each peer are strictly increasing. -/
def SeqsIncrease (ownId : DeviceId) (s : Producers) : Prop := ∀ peer, (ownSeqs ownId peer s.handed).Pairwise (· < ·)

/-- A text sent from the history is the daemon's first clipboard frame for each peer it is queued to. -/
def FirstOwnFrame (cfg : DaemonConfig) (s : Producers) : ProducerEvent → Prop
  | .clipSend bus index dest =>
    ∀ t, s.history.get index = some (.text t) → ∀ peer ∈ clipTargets bus s.daemon.registry dest,
      bus.sendTo peer = true → ownSeqs cfg.clip.ownId peer s.handed = []
  | _ => True

/-- The loop's counter is not behind the numbers that were queued. -/
def SeqsBounded (ownId : DeviceId) (s : Producers) : Prop :=
  ∀ peer, ∀ n ∈ ownSeqs ownId peer s.handed, n ≤ s.sync.seq

variable {sha256 : Bytes → Digest} {cfg : DaemonConfig} {ownId peer : DeviceId}

theorem ownSeqs_append (handed handed' : List (DeviceId × Message)) :
    ownSeqs ownId peer (handed ++ handed') = ownSeqs ownId peer handed ++ ownSeqs ownId peer handed' :=
  List.filterMap_append

theorem ownSeqs_eq_nil {handed : List (DeviceId × Message)} (h : ∀ f ∈ handed, f.2.ownSeq? ownId = none) :
    ownSeqs ownId peer handed = [] := by
  refine List.filterMap_eq_nil_iff.2 fun f hf => ?_
  split
  · exact h f hf
  · rfl

/-- A frame handed to different targets reaches each of them at most once. -/
theorem ownSeqs_handed {bus : Bus} {targets : List DeviceId} (hnd : targets.Nodup) {msg : Message} {n : Nat}
    (hmsg : msg.ownSeq? ownId = some n) :
    ownSeqs ownId peer (bus.handed targets msg) = if peer ∈ targets ∧ bus.sendTo peer = true then [n] else [] := by
  have key : ∀ l : List DeviceId, l.Nodup →
      ownSeqs ownId peer (l.map fun p => (p, msg)) = if peer ∈ l then [n] else [] := by
    intro l hl
    induction l with
    | nil => rfl
    | cons p l ih =>
      rw [List.nodup_cons] at hl
      have hsplit : ownSeqs ownId peer ((p :: l).map fun p => (p, msg)) =
          (if p = peer then [n] else []) ++ ownSeqs ownId peer (l.map fun p => (p, msg)) := by
        by_cases hp : p = peer <;> simp [ownSeqs, hp, hmsg]
      rw [hsplit, ih hl.2]
      by_cases hp : p = peer
      · subst hp
        simp [hl.1]
      · simp [hp, Ne.symm hp]
  rw [Bus.handed, key _ (hnd.filter _)]
  simp only [List.mem_filter]

theorem clipTargets_nodup (bus : Bus) (registry : PeersFile) (dest : Option String) :
    (clipTargets bus registry dest).Nodup := by
  cases dest with
  | none => exact bus.nodup
  | some name =>
    have htargets : clipTargets bus registry (some name) = (resolve registry name).toList := rfl
    rw [htargets]
    cases resolve registry name with
    | none => exact List.nodup_nil
    | some p => exact List.nodup_singleton p

/-! ### What a step queues -/

/-- The router's replies are no clipboard frames. -/
private theorem route_ownSeq (localInfo : DeviceInfo) (xfer : XferConfig) (d : Daemon) (f : Inbound) :
    ∀ h ∈ (route sha256 localInfo xfer d f).2.frames, h.2.ownSeq? ownId = none := by
  obtain ⟨peer, msg, io, saveErr⟩ := f
  have hacks : ∀ h ∈ (handleBlob sha256 xfer d.registry io d.rx peer msg).2.filterMap Effect.frame,
      h.2.ownSeq? ownId = none := by
    intro h hh
    obtain ⟨id, ok, detail, rfl⟩ := handleBlob_replies xfer d.registry io d.rx peer msg h hh
    rfl
  cases msg with
  | blobStart | blobChunk | blobEnd | blobAck => exact hacks
  | authRequest mutualAuth info =>
    intro h hh
    have hframes : (route sha256 localInfo xfer d ⟨peer, .authRequest mutualAuth info, io, saveErr⟩).2.frames =
        [(peer, .authReply true localInfo)] :=
      handleInbound_frames localInfo d.registry saveErr d.auth peer mutualAuth info
    rw [hframes, List.mem_singleton] at hh
    rw [hh]
    rfl
  | authReply ok info =>
    simp only [route, Routed.frames, AuthManager.handleInbound]
    split <;> simp
  | hello | ping | pong | clipboard | openUrl => simp [route, Routed.frames]

/-- What the sync loop broadcasts carries the next number. -/
private theorem broadcastLocal_seq (sha256 : Bytes → Digest) (ownId : DeviceId) (maxText : Nat)
    (st : SyncTask) (clip : LocalClip) :
    (∃ msg, SyncTask.broadcastLocal sha256 maxText ownId st clip =
        ({ st with lastSynced := some (sha256 clip.bytes), seq := st.seq + 1, phase := .selecting }, .broadcast msg) ∧
      msg.ownSeq? ownId = some (st.seq + 1)) ∨
    ((SyncTask.broadcastLocal sha256 maxText ownId st clip).1.seq = st.seq ∧
      ∀ msg, (SyncTask.broadcastLocal sha256 maxText ownId st clip).2 ≠ .broadcast msg) := by
  cases clip with
  | text t =>
    simp only [SyncTask.broadcastLocal]
    split
    · exact Or.inr ⟨rfl, fun _ h => by cases h⟩
    split
    · exact Or.inr ⟨rfl, fun _ h => by cases h⟩
    · exact Or.inl ⟨_, rfl, if_pos rfl⟩
  | image png =>
    simp only [SyncTask.broadcastLocal]
    split
    · exact Or.inr ⟨rfl, fun _ h => by cases h⟩
    split
    · exact Or.inl ⟨_, rfl, if_pos rfl⟩
    · exact Or.inr ⟨rfl, fun _ h => by cases h⟩

private theorem onLocal_seq (ctl : Controls) (now : Int) (st : SyncTask) (clip : LocalClip) :
    (SyncTask.onLocal ctl now st clip).1.seq = st.seq := by
  unfold SyncTask.onLocal
  repeat' split
  all_goals rfl

private theorem onRemote_seq (ctl : Controls) (own : DeviceId) (maxText : Nat) (st : SyncTask) (msg : Message) :
    (SyncTask.onRemote ctl own maxText st msg).seq = st.seq := by
  unfold SyncTask.onRemote
  repeat' split
  all_goals rfl

private theorem applyRemote_seq (st : SyncTask) (clip : LocalClip) :
    (SyncTask.applyRemote sha256 st clip).1.seq = st.seq := by
  unfold SyncTask.applyRemote
  split <;> rfl

/-- A step queues none of the daemon's own clipboard frames, or the next broadcast, or a text of the history. -/
theorem produce_cases {s : Producers} {e : ProducerEvent} {out : Producers × List (DeviceId × Message)}
    (h : produce sha256 cfg s e = some out) :
    (out.1.sync.seq = s.sync.seq ∧ (∀ f ∈ out.2, f.2.ownSeq? cfg.clip.ownId = none) ∧ FirstOwnFrame cfg s e) ∨
    (∃ bus msg, e = .broadcastLocal bus ∧ out.2 = bus.broadcast msg ∧
      msg.ownSeq? cfg.clip.ownId = some (s.sync.seq + 1) ∧ out.1.sync.seq = s.sync.seq + 1) ∨
    (∃ bus index dest t, e = .clipSend bus index dest ∧ s.history.get index = some (.text t) ∧
      out = (s, bus.handed (clipTargets bus s.daemon.registry dest) (clipSend cfg.clip.ownId t))) := by
  cases e with
  | localClip ctl now clip =>
    unfold produce at h
    dsimp only at h
    split at h
    · cases h
    · cases h
      exact Or.inl ⟨onLocal_seq ctl now s.sync clip, by simp, trivial⟩
  | broadcastLocal bus =>
    unfold produce at h
    dsimp only at h
    split at h
    · rename_i clip hphase
      cases h
      rcases broadcastLocal_seq sha256 cfg.clip.ownId cfg.clip.maxText s.sync clip with
        ⟨msg, heq, hmsg⟩ | ⟨hseq, hno⟩
      · refine Or.inr (Or.inl ⟨bus, msg, rfl, ?_, hmsg, ?_⟩)
        · rw [heq]
        · rw [heq]
      · refine Or.inl ⟨hseq, ?_, trivial⟩
        cases hout : (SyncTask.broadcastLocal sha256 cfg.clip.maxText cfg.clip.ownId s.sync clip).2 with
        | broadcast msg => exact absurd hout (hno msg)
        | skipped why => simp
        | blob png => simp
    · cases h
    · cases h
  | remoteClip ctl peer msg =>
    unfold produce at h
    dsimp only at h
    split at h
    · cases h
    · cases h
      exact Or.inl ⟨onRemote_seq ctl _ _ s.sync msg, by simp, trivial⟩
  | applyRemote =>
    unfold produce at h
    dsimp only at h
    split at h
    · rename_i clip hphase
      cases h
      exact Or.inl ⟨applyRemote_seq s.sync clip, by simp, trivial⟩
    · cases h
    · cases h
  | clipSend bus index dest =>
    cases h
    cases hget : s.history.get index with
    | none => exact Or.inl ⟨rfl, by simp, fun t ht => by rw [hget] at ht; cases ht⟩
    | some r =>
      cases r with
      | image png => exact Or.inl ⟨rfl, by simp, fun t ht => by rw [hget] at ht; cases ht⟩
      | text t => exact Or.inr (Or.inr ⟨bus, index, dest, t, rfl, hget, rfl⟩)
  | openUrl bus url dest =>
    cases h
    refine Or.inl ⟨rfl, ?_, trivial⟩
    dsimp only
    split
    · simp only [Bus.handed, List.mem_map]
      rintro _ ⟨p, -, rfl⟩
      rfl
    · simp
  | sender e =>
    obtain ⟨sender, hs, rfl⟩ := Option.map_eq_some_iff.1 h
    refine Or.inl ⟨rfl, fun f hf => ?_, trivial⟩
    cases e with
    | queue id =>
      obtain ⟨out, hq, -⟩ := Option.map_eq_some_iff.1 hs
      obtain ⟨o, m, -, hm, rfl⟩ := Sender.queue_cases hq
      have hqueues : s.sender.queues sha256 (.queue id) = some (o.peer, m) := by simp [Sender.queues, hq]
      simp only [hqueues, Option.toList_some, List.mem_singleton] at hf
      subst hf
      rcases SendCall.frame_cases hm with ⟨-, rfl, -⟩ | ⟨data, -, rfl, -⟩ | ⟨sha, -, rfl, -⟩ <;> rfl
    | sendOne | sendClipImage | closed | openFile | read | nextChunk | answer | timeout | inbound =>
      simp [Sender.queues] at hf
  | inbound bus localInfo f =>
    cases h
    refine Or.inl ⟨rfl, fun h hh => ?_, trivial⟩
    exact route_ownSeq localInfo cfg.xfer s.daemon f h (List.mem_of_mem_filter hh)
  | register w localInfo queued =>
    cases h
    refine Or.inl ⟨rfl, ?_, trivial⟩
    split
    · split <;> simp [AuthEffect.frame, Message.ownSeq?]
    · simp
  | authorize w peer mutualAuth connected =>
    unfold produce at h
    dsimp only at h
    split at h <;> cases h <;> exact Or.inl ⟨rfl, by simp, trivial⟩
  | refresh | expire | resume | finish =>
    cases h
    exact Or.inl ⟨rfl, by simp, trivial⟩

/-! ### Runs -/

/-- Step lemma: a step keeps the numbers increasing exactly when a text it sends from the history comes first. -/
private theorem seqsIncrease_step {s t : Producers} {e : ProducerEvent} (hb : SeqsBounded cfg.clip.ownId s)
    (h : produceStep sha256 cfg s e = some t) :
    SeqsBounded cfg.clip.ownId t ∧
      (SeqsIncrease cfg.clip.ownId t ↔ SeqsIncrease cfg.clip.ownId s ∧ FirstOwnFrame cfg s e) := by
  obtain ⟨out, hout, rfl⟩ := Option.map_eq_some_iff.1 h
  unfold SeqsIncrease SeqsBounded
  simp only [ownSeqs_append]
  rcases produce_cases hout with ⟨hseq, hnone, hok⟩ | ⟨bus, msg, rfl, hframes, hmsg, hseq⟩ |
    ⟨bus, index, dest, t, rfl, hget, rfl⟩
  · have hnil : ∀ peer, ownSeqs cfg.clip.ownId peer out.2 = [] := fun peer => ownSeqs_eq_nil hnone
    simp only [hnil, List.append_nil, hseq]
    exact ⟨hb, fun hinc => ⟨hinc, hok⟩, fun hinc => hinc.1⟩
  · simp only [hframes, Bus.broadcast, ownSeqs_handed bus.nodup hmsg, hseq]
    constructor
    · intro peer n hn
      rcases List.mem_append.1 hn with hn | hn
      · exact Nat.le_succ_of_le (hb peer n hn)
      · split at hn
        · exact Nat.le_of_eq (List.mem_singleton.1 hn)
        · cases hn
    · constructor
      · intro hinc
        exact ⟨fun peer => (List.pairwise_append.1 (hinc peer)).1, trivial⟩
      · rintro ⟨hinc, -⟩ peer
        refine List.pairwise_append.2 ⟨hinc peer, ?_, fun n hn m hm => ?_⟩
        · split
          · exact List.pairwise_singleton ..
          · exact List.Pairwise.nil
        · split at hm
          · obtain rfl := List.mem_singleton.1 hm
            exact Nat.lt_succ_of_le (hb peer n hn)
          · cases hm
  · have hmsg : (clipSend cfg.clip.ownId t).ownSeq? cfg.clip.ownId = some 0 := if_pos rfl
    simp only [ownSeqs_handed (clipTargets_nodup bus s.daemon.registry dest) hmsg]
    constructor
    · intro peer n hn
      rcases List.mem_append.1 hn with hn | hn
      · exact hb peer n hn
      · split at hn
        · rw [List.mem_singleton.1 hn]
          exact Nat.zero_le _
        · cases hn
    · constructor
      · intro hinc
        refine ⟨fun peer => (List.pairwise_append.1 (hinc peer)).1, fun t' _ peer hpeer hsent => ?_⟩
        -- zero is larger than no number
        have hlt := (List.pairwise_append.1 (hinc peer)).2.2
        rw [if_pos ⟨hpeer, hsent⟩] at hlt
        refine List.eq_nil_iff_forall_not_mem.2 fun n hn => ?_
        exact Nat.not_lt_zero n (hlt n hn 0 (List.mem_singleton_self 0))
      · rintro ⟨hinc, hfirst⟩ peer
        by_cases hpeer : peer ∈ clipTargets bus s.daemon.registry dest ∧ bus.sendTo peer = true
        · rw [if_pos hpeer, hfirst t hget peer hpeer.1 hpeer.2]
          exact List.pairwise_singleton ..
        · rw [if_neg hpeer, List.append_nil]
          exact hinc peer

/-- The daemon's own clipboard frames to each peer carry strictly increasing numbers if and only if every text that is
sent from the history is the first clipboard frame for the peers it is queued to. -/
theorem own_seqs_increase_iff (sha256 : Bytes → Digest) (cfg : DaemonConfig) (now : Int) (history : ClipHistory)
    (registry : PeersFile) (fs : FileSys PathBuf) {es : List ProducerEvent} {s : Producers}
    (hr : Run (produceStep sha256 cfg) Always (.start now history registry fs) es s) :
    SeqsIncrease cfg.clip.ownId s ↔
      Run (produceStep sha256 cfg) (FirstOwnFrame cfg) (.start now history registry fs) es s := by
  refine hr.iff_of_step (I := SeqsBounded cfg.clip.ownId) (P := SeqsIncrease cfg.clip.ownId) ?_ ?_ ?_ ?_
  · intro peer n hn
    cases hn
  · exact fun peer => List.Pairwise.nil
  · exact fun s e t hb hs => (seqsIncrease_step hb hs).1
  · exact fun s e t hb hs => (seqsIncrease_step hb hs).2

/-- A daemon that broadcasts texts of one byte. -/
private def oneByte : DaemonConfig := ⟨⟨"a", .other, 1⟩, ⟨"d", .never, true⟩⟩

private def busToB : Bus := ⟨["b"], List.nodup_singleton _, fun _ => true⟩

/-- The SHA-256 digests of "z" and of "xy". -/
private def copyDigest (content : Bytes) : Digest :=
  if content = [122] then #v[
    89, 78, 81, 154, 228, 153, 49, 43, 41, 67, 59, 125, 216, 169, 127, 240, 104, 222, 252, 186, 151, 85,
    182, 213, 208, 14, 132, 197, 36, 214, 123, 6]
  else #v[
    118, 154, 78, 109, 0, 3, 24, 156, 126, 150, 197, 217, 183, 232, 16, 160, 209, 28, 58, 18, 131, 37,
    39, 236, 148, 176, 248, 109, 39, 127, 81, 202]

/-- A text over the limit is sent from the history, and the next copy is broadcast. -/
private def sentFirst : List ProducerEvent :=
  [.localClip ⟨false, true⟩ 0 (.text "xy"), .broadcastLocal busToB, .clipSend busToB 0 none,
    .localClip ⟨false, true⟩ 300 (.text "z"), .broadcastLocal busToB]

/-- Nothing was handed over when a text is sent from the history. -/
private def sendsFirst (s : Producers) : ProducerEvent → Bool
  | .clipSend .. => s.handed.isEmpty
  | _ => true

theorem own_seqs_increase_iff_sent_first :
    ∃ s, Run (produceStep copyDigest oneByte) Always (.start 0 (.load 25 []) .absent FileSys.empty) sentFirst s ∧
      ownSeqs "a" "b" s.handed = [0, 1] ∧ SeqsIncrease "a" s := by
  obtain ⟨s, hr, hv⟩ := run_of_exec_checked (produceStep copyDigest oneByte) (fun s e => sendsFirst s e = true)
    (.start 0 (.load 25 []) .absent FileSys.empty) sentFirst (fun s => ownSeqs "a" "b" s.handed) [0, 1] (by rfl)
  have hrun := hr.always
  refine ⟨s, hrun, hv, ?_⟩
  refine (own_seqs_increase_iff copyDigest oneByte 0 (.load 25 []) .absent FileSys.empty hrun).2 (hr.mono ?_)
  intro s e hfirst
  cases e with
  | clipSend bus index dest =>
    have hnil : s.handed = [] := List.isEmpty_iff.1 hfirst
    intro t _ peer _ _
    rw [hnil]
    rfl
  | _ => trivial

/-- A text that was broadcast with the number one is sent again from the history with the number zero. -/
theorem history_text_seq_zero :
    ¬ ∀ (sha256 : Bytes → Digest) (cfg : DaemonConfig) (now : Int) (history : ClipHistory) (registry : PeersFile)
      (fs : FileSys PathBuf) (es : List ProducerEvent) (s : Producers),
      Run (produceStep sha256 cfg) Always (.start now history registry fs) es s → SeqsIncrease cfg.clip.ownId s := by
  intro hall
  obtain ⟨s, hr, hv⟩ := run_of_exec_view (produceStep copyDigest oneByte) (fun _ => True)
    (.start 0 (.load 25 []) .absent FileSys.empty)
    [.localClip ⟨false, true⟩ 0 (.text "z"), .broadcastLocal busToB, .clipSend busToB 0 none]
    (fun s => ownSeqs "a" "b" s.handed) [1, 0] (fun _ _ => trivial) (by rfl)
  have hinc := hall copyDigest oneByte 0 (.load 25 []) .absent FileSys.empty _ s hr.always "b"
  rw [show ownSeqs oneByte.clip.ownId "b" s.handed = [1, 0] from hv] at hinc
  exact absurd hinc (by decide)

end Qdrop
