import Mathlib.Logic.Relation
import Qdrop.Clipboard.Follow

/-!
# `qdrop copy` (`ClipSet` in `qdropd/src/control.rs`)

The request puts its text on the clipboard by the command the sync loop uses for a peer's text.  The clipboard thread
arms `suppress` with it and remembers the token of its own write, so no poll takes the text for a copy of the user, and
it is not broadcast.  `copy_command_sent_iff` says when the text goes out all the same: the user has copied it too, and
that copy is the next thing the sync loop broadcasts.
-/

namespace Qdrop

open Lib

variable {ι : Type}

/-- No clipboard activity at `d` besides what is on its way there; the clipboard takes every write. -/
def Calm (d : ι) (_ : ClipNet ι) : ClipEvent ι → Prop
  | .pause d' _ | .copy d' _ _ | .command d' _ | .receive d' _ | .blob d' _ => d' ≠ d
  | .take d' res => d' = d → res ≠ .failed
  | .tick _ | .settle _ | .poll _ | .forward _ | .takeLocal _ | .finishLocal .. | .finishRemote _ | .lose .. => True

instance [DecidableEq ι] (d : ι) (n : ClipNet ι) : (e : ClipEvent ι) → Decidable (Calm d n e)
  | .pause d' _ | .copy d' _ _ | .command d' _ | .receive d' _ | .blob d' _ => inferInstanceAs (Decidable (d' ≠ d))
  | .take d' res => inferInstanceAs (Decidable (d' = d → res ≠ .failed))
  | .tick _ | .settle _ | .poll _ | .forward _ | .takeLocal _ | .finishLocal .. | .finishRemote _ | .lose .. =>
    isTrue trivial

namespace Desk

/-- The commands are applied, a poll would find nothing new, and the sync loop has nothing to do. -/
structure Settled (k : Desk) : Prop where
  cmds : k.cmds = []
  waiting : k.thread.phase = .waiting
  selecting : k.sync.phase = .selecting
  quiet : k.Quiet

instance (k : Desk) : Decidable k.Settled :=
  decidable_of_iff (k.cmds = [] ∧ k.thread.phase = .waiting ∧ k.sync.phase = .selecting ∧ k.Quiet)
    ⟨fun h => ⟨h.1, h.2.1, h.2.2.1, h.2.2.2⟩, fun h => ⟨h.cmds, h.waiting, h.selecting, h.quiet⟩⟩

/-- Since `k` a frame with the text `t` has been broadcast, under the device's own id. -/
def SentSince (ownId : DeviceId) (t : String) (k k' : Desk) : Prop :=
  ∃ seq, (LocalClip.text t, Outcome.broadcast (.clipboard seq ownId [ClipEntry.text t])) ∈
    k'.outcomes.drop k.outcomes.length

/-- A copy of `t` is what the sync loop is about to broadcast, or what it takes next, and what it finishes before is
not the same content. -/
def Underway (sha256 : Bytes → Digest) (cfg : ClipConfig) (t : String) (k : Desk) : Prop :=
  k.sync.phase = .recordingLocal (.text t) ∨
  (k.changes ++ k.thread.phase.pending).head? = some (.text t) ∧
    (k.sync.settle sha256 cfg).lastSynced ≠ some (sha256 (asBytes t))

/-! ### What the device does by itself -/

/-- A step of the device's thread or of its sync loop. -/
inductive Works (sha256 : Bytes → Digest) (cfg : ClipConfig) (now : Int) (k k' : Desk) : Prop
  | take (res : SetResult) (hres : res ≠ .failed) (h : k.take sha256 res = some k')
  | settle (h : k.settle cfg = some k')
  | poll (h : k.poll sha256 cfg = some k')
  | forward (h : k.forward = some k')
  | takeLocal (h : k.takeLocal now = some k')
  | finishLocal (out : Outcome) (h : k.finishLocal sha256 cfg = some (k', out))
  | finishRemote (h : k.finishRemote sha256 = some k')

end Desk

section Net

variable [DecidableEq ι] {sha256 : Bytes → Digest} {cfg : ι → ClipConfig} {n m : ClipNet ι} {d : ι}

@[simp] theorem ClipNet.post_now (n : ClipNet ι) (d : ι) (reached : ι → Bool) (out : Outcome) :
    (n.post d reached out).now = n.now := by
  cases out <;> rfl

/-- What a device does by itself changes no other. -/
private theorem works_of_map {d' : ι} {k? : Option Desk} (hs : k?.map (n.setDesk d') = some m)
    (hw : d' = d → ∀ k, k? = some k → (n.desk d).Works sha256 (cfg d) n.now k) :
    (n.desk d).Works sha256 (cfg d) n.now (m.desk d) ∧ m.now = n.now ∨ m.desk d = n.desk d ∧ n.now ≤ m.now := by
  obtain ⟨k, hk, rfl⟩ := Option.map_eq_some_iff.1 hs
  by_cases hd : d' = d
  · have hwork := hw hd k hk
    subst hd
    rw [ClipNet.setDesk_desk_self]
    exact Or.inl ⟨hwork, rfl⟩
  · exact Or.inr ⟨ClipNet.setDesk_desk_of_ne n k (Ne.symm hd), le_rfl⟩

/-- In the calm the device works, or time passes. -/
theorem Calm.works {e : ClipEvent ι} (hc : Calm d n e) (hs : n.step sha256 cfg e = some m) :
    (n.desk d).Works sha256 (cfg d) n.now (m.desk d) ∧ m.now = n.now ∨ m.desk d = n.desk d ∧ n.now ≤ m.now := by
  cases e with
  | tick ms =>
    cases hs
    exact Or.inr ⟨rfl, by simp⟩
  | pause d' on | copy d' c token | command d' cmd =>
    cases hs
    exact Or.inr ⟨ClipNet.setDesk_desk_of_ne n _ (Ne.symm hc), le_rfl⟩
  | lose src dst =>
    simp only [ClipNet.step] at hs
    split at hs
    · cases hs
    · cases hs
      exact Or.inr ⟨rfl, le_rfl⟩
  | receive d' src =>
    simp only [ClipNet.step] at hs
    split at hs
    · cases hs
    · obtain ⟨k, -, rfl⟩ := Option.map_eq_some_iff.1 hs
      exact Or.inr ⟨ClipNet.setDesk_desk_of_ne _ k (Ne.symm hc), le_rfl⟩
  | blob d' src =>
    simp only [ClipNet.step] at hs
    split at hs
    · cases hs
    · cases hs
      exact Or.inr ⟨ClipNet.setDesk_desk_of_ne _ _ (Ne.symm hc), le_rfl⟩
  | take d' res => exact works_of_map hs (by rintro rfl k hk; exact .take res (hc rfl) hk)
  | settle d' => exact works_of_map hs (by rintro rfl k hk; exact .settle hk)
  | poll d' => exact works_of_map hs (by rintro rfl k hk; exact .poll hk)
  | forward d' => exact works_of_map hs (by rintro rfl k hk; exact .forward hk)
  | takeLocal d' => exact works_of_map hs (by rintro rfl k hk; exact .takeLocal hk)
  | finishLocal d' reached =>
    obtain ⟨⟨k, out⟩, hk, rfl⟩ := Option.map_eq_some_iff.1 hs
    by_cases hd : d' = d
    · subst hd
      exact Or.inl ⟨.finishLocal out (by rw [hk, ClipNet.post_desk, ClipNet.setDesk_desk_self]), ClipNet.post_now ..⟩
    · refine Or.inr ⟨?_, (ClipNet.post_now ..).ge⟩
      rw [ClipNet.post_desk]
      exact ClipNet.setDesk_desk_of_ne n k (Ne.symm hd)
  | finishRemote d' => exact works_of_map hs (by rintro rfl k hk; exact .finishRemote hk)

/-- What the device can do by itself is a step of the net. -/
theorem Desk.Works.step {k : Desk} (h : (n.desk d).Works sha256 (cfg d) n.now k) :
    ∃ e m, Calm d n e ∧ n.step sha256 cfg e = some m ∧ m.now = n.now ∧ m.desk d = k := by
  cases h with
  | take res hres h => exact ⟨.take d res, n.setDesk d k, fun _ => hres, by simp [ClipNet.step, h], rfl, by simp⟩
  | settle h => exact ⟨.settle d, n.setDesk d k, trivial, by simp [ClipNet.step, h], rfl, by simp⟩
  | poll h => exact ⟨.poll d, n.setDesk d k, trivial, by simp [ClipNet.step, h], rfl, by simp⟩
  | forward h => exact ⟨.forward d, n.setDesk d k, trivial, by simp [ClipNet.step, h], rfl, by simp⟩
  | takeLocal h => exact ⟨.takeLocal d, n.setDesk d k, trivial, by simp [ClipNet.step, h], rfl, by simp⟩
  | finishLocal out h =>
    exact ⟨.finishLocal d fun _ => false, _, trivial, by simp [ClipNet.step, h]; rfl, by simp [ClipNet.setDesk],
      by simp⟩
  | finishRemote h => exact ⟨.finishRemote d, n.setDesk d k, trivial, by simp [ClipNet.step, h], rfl, by simp⟩

/-- So is a series of such steps a run. -/
theorem Desk.works_run {k : Desk} (h : Relation.ReflTransGen (Desk.Works sha256 (cfg d) n.now) (n.desk d) k) :
    ∃ es m, Run (ClipNet.step sha256 cfg) (Calm d) n es m ∧ m.now = n.now ∧ m.desk d = k := by
  induction h with
  | refl => exact ⟨[], n, Run.nil n, rfl, rfl⟩
  | tail _ hw ih =>
    obtain ⟨es, m, hr, hnow, rfl⟩ := ih
    rw [← hnow] at hw
    obtain ⟨e, m', hc, hs, hnow', hk⟩ := hw.step
    exact ⟨es ++ [e], m', hr.snoc hc hs, hnow'.trans hnow, hk⟩

end Net

/-! ### A copy on its way is sent -/

namespace Desk

variable {sha256 : Bytes → Digest} {cfg : ClipConfig} {now : Int} {t : String} {k₀ k k' : Desk}

/-- The copy of `t` on its way will be broadcast, or has been. -/
structure Coming (sha256 : Bytes → Digest) (cfg : ClipConfig) (t : String) (k₀ : Desk) (now : Int) (k : Desk) :
    Prop where
  unpaused : k.controls.clipboardPaused = false
  since : k₀.outcomes <+: k.outcomes
  copy : SentSince cfg.ownId t k₀ k ∨
    k.sync.phase = .recordingLocal (.text t) ∧ k.sync.lastSynced ≠ some (sha256 (asBytes t)) ∨
    (k.changes ++ k.thread.phase.pending).head? = some (.text t) ∧
      (k.sync.settle sha256 cfg).lastSynced ≠ some (sha256 (asBytes t)) ∧ minGap ≤ now - k.sync.lastBroadcast

theorem SentSince.append {ownId : DeviceId} (h : SentSince ownId t k₀ k) {new : List (LocalClip × Outcome)}
    (hk : k'.outcomes = k.outcomes ++ new) : SentSince ownId t k₀ k' := by
  obtain ⟨seq, hmem⟩ := h
  refine ⟨seq, ?_⟩
  rw [hk, List.drop_append]
  exact List.mem_append_left _ hmem

theorem Works.grows (hw : k.Works sha256 cfg now k') :
    k'.controls = k.controls ∧ ∃ new, k'.outcomes = k.outcomes ++ new := by
  cases hw with
  | take res hres hs =>
    obtain ⟨cmd, cmds, -, -, rfl⟩ := take_some hs
    exact ⟨rfl, [], (List.append_nil _).symm⟩
  | settle hs =>
    obtain ⟨-, rfl⟩ := settle_some hs
    exact ⟨rfl, [], (List.append_nil _).symm⟩
  | poll hs =>
    obtain ⟨-, rfl⟩ := poll_some hs
    exact ⟨rfl, [], (List.append_nil _).symm⟩
  | forward hs =>
    obtain ⟨clip, -, rfl⟩ := forward_some hs
    exact ⟨rfl, [], (List.append_nil _).symm⟩
  | takeLocal hs =>
    obtain ⟨clip, changes, -, -, ⟨sync, why, -, rfl⟩ | ⟨sync, -, rfl⟩⟩ := takeLocal_some hs
    · exact ⟨rfl, [(clip, .skipped why)], rfl⟩
    · exact ⟨rfl, [], (List.append_nil _).symm⟩
  | finishLocal out hs =>
    obtain ⟨clip, -, -, hk⟩ := finishLocal_some hs
    dsimp only at hk
    subst hk
    exact ⟨rfl, [(clip, out)], rfl⟩
  | finishRemote hs =>
    obtain ⟨clip, -, rfl⟩ := finishRemote_some hs
    exact ⟨rfl, [], (List.append_nil _).symm⟩

/-- A copy that is sent stays so, and steps of the thread leave the clips on their way in order. -/
theorem Coming.of_thread (h : Coming sha256 cfg t k₀ now k) (hw : k.Works sha256 cfg now k')
    (hsync : k'.sync = k.sync)
    (hclips : (k.changes ++ k.thread.phase.pending) <+: (k'.changes ++ k'.thread.phase.pending)) :
    Coming sha256 cfg t k₀ now k' := by
  obtain ⟨hunpaused, hsince, hcopy⟩ := h
  obtain ⟨hctl, new, hnew⟩ := hw.grows
  refine ⟨hctl ▸ hunpaused, hsince.trans ⟨new, hnew.symm⟩, ?_⟩
  rw [hsync]
  rcases hcopy with hsent | hrecording | ⟨hhead, hrest⟩
  · exact Or.inl (hsent.append hnew)
  · exact Or.inr (Or.inl hrecording)
  · refine Or.inr (Or.inr ⟨?_, hrest⟩)
    obtain ⟨clips, hclips⟩ := hclips
    rw [← hclips, List.head?_append, hhead]
    rfl

/-- When the sync loop leaves its await, a copy that waits comes next. -/
theorem Coming.of_settle (h : Coming sha256 cfg t k₀ now k) (hw : k.Works sha256 cfg now k')
    (hsync : k'.sync = k.sync.settle sha256 cfg) (hchanges : k'.changes = k.changes) (hthread : k'.thread = k.thread)
    (hrecording : k.sync.phase = .recordingLocal (.text t) → k.sync.lastSynced ≠ some (sha256 (asBytes t)) →
      SentSince cfg.ownId t k₀ k') :
    Coming sha256 cfg t k₀ now k' := by
  obtain ⟨hunpaused, hsince, hcopy⟩ := h
  obtain ⟨hctl, new, hnew⟩ := hw.grows
  refine ⟨hctl ▸ hunpaused, hsince.trans ⟨new, hnew.symm⟩, ?_⟩
  rcases hcopy with hsent | ⟨hphase, hlast⟩ | ⟨hhead, hlast, hgap⟩
  · exact Or.inl (hsent.append hnew)
  · exact Or.inl (hrecording hphase hlast)
  · have hphase := SyncTask.settle_phase sha256 cfg k.sync
    rw [hchanges, hthread, hsync, SyncTask.settle_of_selecting hphase, SyncTask.settle_lastBroadcast]
    exact Or.inr (Or.inr ⟨hhead, hlast, hgap⟩)

/-- Every step of the device brings the copy on. -/
theorem Coming.works (hlen : t.utf8ByteSize ≤ cfg.maxText) (h : Coming sha256 cfg t k₀ now k)
    (hw : k.Works sha256 cfg now k') : Coming sha256 cfg t k₀ now k' := by
  cases hw with
  | take res hres hs =>
    obtain ⟨cmd, cmds, hp, -, rfl⟩ := take_some hs
    refine h.of_thread (.take res hres hs) rfl ?_
    cases cmd <;> simp [ClipThread.onCommand, hp, ThreadPhase.pending]
  | settle hs =>
    obtain ⟨hp, rfl⟩ := settle_some hs
    exact h.of_thread (.settle hs) rfl (by simp [hp, ThreadPhase.pending])
  | poll hs =>
    obtain ⟨hp, rfl⟩ := poll_some hs
    exact h.of_thread (.poll hs) rfl (by simp [hp, ThreadPhase.pending])
  | forward hs =>
    obtain ⟨clip, hp, rfl⟩ := forward_some hs
    exact h.of_thread (.forward hs) rfl (by simp [hp, ThreadPhase.pending])
  | takeLocal hs =>
    have hw : k.Works sha256 cfg now k' := .takeLocal hs
    obtain ⟨hctl, new, hnew⟩ := hw.grows
    obtain ⟨hunpaused, hsince, hcopy⟩ := h
    refine ⟨hctl ▸ hunpaused, hsince.trans ⟨new, hnew.symm⟩, ?_⟩
    obtain ⟨clip, changes, hp, hc, hout⟩ := takeLocal_some hs
    rcases hcopy with hsent | ⟨hphase, -⟩ | ⟨hhead, hlast, hgap⟩
    · exact Or.inl (hsent.append hnew)
    · rw [hp] at hphase
      cases hphase
    · -- the copy is the change that is taken, and the gap has passed
      rw [hc] at hhead
      obtain rfl : clip = .text t := Option.some.inj hhead
      rw [SyncTask.onLocal_text now k.sync t hunpaused, if_neg (Int.not_lt.2 hgap)] at hout
      rw [SyncTask.settle_of_selecting hp] at hlast
      obtain ⟨sync, why, ho, -⟩ | ⟨sync, ho, rfl⟩ := hout
      · cases ho
      · cases ho
        exact Or.inr (Or.inl ⟨rfl, hlast⟩)
  | finishLocal out hs =>
    obtain ⟨clip, hp, hout, hk⟩ := finishLocal_some hs
    dsimp only at hout hk
    subst hout hk
    refine h.of_settle (.finishLocal _ hs) (SyncTask.settle_of_recordingLocal hp).symm rfl rfl fun hphase hlast => ?_
    rw [hp] at hphase
    obtain rfl : clip = .text t := SyncPhase.recordingLocal.inj hphase
    rw [SyncTask.broadcastLocal_text sha256 cfg.ownId k.sync hlen, if_neg hlast.symm]
    refine ⟨k.sync.seq + 1, ?_⟩
    dsimp only
    rw [List.drop_append_of_le_length h.since.length_le]
    exact List.mem_append_right _ (List.mem_singleton.2 rfl)
  | finishRemote hs =>
    obtain ⟨clip, hp, rfl⟩ := finishRemote_some hs
    refine h.of_settle (.finishRemote hs) (SyncTask.settle_of_recordingRemote hp).symm rfl rfl fun hphase _ => ?_
    rw [hp] at hphase
    cases hphase

theorem Coming.later {now' : Int} (h : Coming sha256 cfg t k₀ now k) (hnow : now ≤ now') :
    Coming sha256 cfg t k₀ now' k := by
  refine ⟨h.unpaused, h.since, ?_⟩
  rcases h.copy with hsent | hrecording | ⟨hhead, hlast, hgap⟩
  · exact Or.inl hsent
  · exact Or.inr (Or.inl hrecording)
  · exact Or.inr (Or.inr ⟨hhead, hlast, by omega⟩)

theorem Coming.sent (h : Coming sha256 cfg t k₀ now k) (hk : k.Settled) : SentSince cfg.ownId t k₀ k := by
  obtain ⟨-, hchanges, hthread⟩ := hk.quiet.phases
  rcases h.copy with hsent | ⟨hphase, -⟩ | ⟨hhead, -⟩
  · exact hsent
  · rw [hk.selecting] at hphase
    cases hphase
  · rw [hchanges, hthread] at hhead
    cases hhead

/-! ### Otherwise the device can come to rest without sending -/

/-- From `k` to `k'` no frame with the text `t` has been broadcast. -/
def Unsent (ownId : DeviceId) (t : String) (k k' : Desk) : Prop :=
  ∃ new, k'.outcomes = k.outcomes ++ new ∧
    ∀ seq, (LocalClip.text t, Outcome.broadcast (.clipboard seq ownId [ClipEntry.text t])) ∉ new

namespace Unsent

variable {ownId : DeviceId} {k'' : Desk}

theorem of_eq (h : k'.outcomes = k.outcomes) : Unsent ownId t k k' := ⟨[], by simp [h], by simp⟩

theorem trans (h : Unsent ownId t k k') (h' : Unsent ownId t k' k'') : Unsent ownId t k k'' := by
  obtain ⟨new, hk, hnew⟩ := h
  obtain ⟨new', hk', hnew'⟩ := h'
  refine ⟨new ++ new', by rw [hk', hk, List.append_assoc], fun seq hmem => ?_⟩
  rcases List.mem_append.1 hmem with hmem | hmem
  · exact hnew seq hmem
  · exact hnew' seq hmem

theorem not_sentSince (h : Unsent ownId t k k') : ¬ SentSince ownId t k k' := by
  obtain ⟨new, hk, hnew⟩ := h
  rintro ⟨seq, hmem⟩
  rw [hk, List.drop_left] at hmem
  exact hnew seq hmem

end Unsent

/-- The device gets on with its clips, at one moment, and sends nothing with the text `t`. -/
private structure GetsOn (sha256 : Bytes → Digest) (cfg : ClipConfig) (now : Int) (t : String) (k k' : Desk) :
    Prop where
  reach : Relation.ReflTransGen (Works sha256 cfg now) k k'
  controls : k'.controls = k.controls
  cmds : k.cmds <+: k'.cmds
  unsent : Unsent cfg.ownId t k k'

private theorem GetsOn.refl (k : Desk) : GetsOn sha256 cfg now t k k := ⟨.refl, rfl, List.prefix_rfl, .of_eq rfl⟩

private theorem GetsOn.trans {k'' : Desk} (h : GetsOn sha256 cfg now t k k') (h' : GetsOn sha256 cfg now t k' k'') :
    GetsOn sha256 cfg now t k k'' :=
  ⟨h.reach.trans h'.reach, h'.controls.trans h.controls, h.cmds.trans h'.cmds, h.unsent.trans h'.unsent⟩

section Schedule

variable (sha256 cfg now t)

/-- The sync loop leaves its await; a copy of `t` is not sent if `t` was synced last. -/
private theorem getsOn_settle
    (hlast : k.sync.phase = .recordingLocal (.text t) → k.sync.lastSynced = some (sha256 (asBytes t))) :
    ∃ k', GetsOn sha256 cfg now t k k' ∧ k'.sync = k.sync.settle sha256 cfg ∧ k'.changes = k.changes ∧
      k'.thread = k.thread := by
  cases hp : k.sync.phase with
  | selecting => exact ⟨k, .refl k, (SyncTask.settle_of_selecting hp).symm, rfl, rfl⟩
  | recordingLocal clip =>
    have hstep : k.finishLocal sha256 cfg = some ({ k with
        sync := (k.sync.broadcastLocal sha256 cfg.maxText cfg.ownId clip).1
        outcomes := k.outcomes ++ [(clip, (k.sync.broadcastLocal sha256 cfg.maxText cfg.ownId clip).2)] },
        (k.sync.broadcastLocal sha256 cfg.maxText cfg.ownId clip).2) := by
      simp only [finishLocal, hp]
    refine ⟨_, ⟨.single (.finishLocal _ hstep), rfl, List.prefix_rfl, _, rfl, fun seq hmem => ?_⟩, ?_, rfl, rfl⟩
    · obtain ⟨hclip, hout⟩ := Prod.mk.inj (List.mem_singleton.1 hmem)
      subst hclip
      obtain ⟨why, hskipped⟩ := SyncTask.broadcastLocal_synced cfg.maxText cfg.ownId (hlast hp)
      rw [hskipped] at hout
      cases hout
    · exact (SyncTask.settle_of_recordingLocal hp).symm
  | recordingRemote clip =>
    have hstep : k.finishRemote sha256 = some { k with
        sync := (k.sync.applyRemote sha256 clip).1, cmds := k.cmds ++ (k.sync.applyRemote sha256 clip).2.toList } := by
      simp only [finishRemote, hp]
    exact ⟨_, ⟨.single (.finishRemote hstep), rfl, List.prefix_append _ _, .of_eq rfl⟩,
      (SyncTask.settle_of_recordingRemote hp).symm, rfl, rfl⟩

/-- What waits for the loop before the gap has passed is dropped. -/
private theorem getsOn_drain {clips : List LocalClip} (hp : k.sync.phase = .selecting)
    (hunpaused : k.controls.clipboardPaused = false) (hgap : now - k.sync.lastBroadcast < minGap)
    (hchanges : k.changes = clips) :
    ∃ k', GetsOn sha256 cfg now t k k' ∧ k'.sync = k.sync ∧ k'.changes = [] ∧ k'.thread = k.thread := by
  induction clips generalizing k with
  | nil => exact ⟨k, .refl k, rfl, hchanges, rfl⟩
  | cons clip clips ih =>
    have hstep : k.takeLocal now = some { k with
        changes := clips, outcomes := k.outcomes ++ [(clip, .skipped .rateLimited)] } := by
      simp only [takeLocal, hp, hchanges, SyncTask.onLocal_early clip hunpaused hgap]
    obtain ⟨k', hon, hsync, hchanges', hthread⟩ := ih (k := { k with
      changes := clips, outcomes := k.outcomes ++ [(clip, .skipped .rateLimited)] }) hp hunpaused hgap rfl
    exact ⟨k', .trans ⟨.single (.takeLocal hstep), rfl, List.prefix_rfl, _, rfl, by simp⟩ hon, hsync, hchanges',
      hthread⟩

/-- The first clip that waits opens the next gap; a copy of `t` is not sent if `t` was synced last. -/
private theorem getsOn_first {clip : LocalClip} {clips : List LocalClip} (hp : k.sync.phase = .selecting)
    (hunpaused : k.controls.clipboardPaused = false) (hgap : minGap ≤ now - k.sync.lastBroadcast)
    (hchanges : k.changes = clip :: clips)
    (hlast : clip = .text t → k.sync.lastSynced = some (sha256 (asBytes t))) :
    ∃ k', GetsOn sha256 cfg now t k k' ∧ k'.sync.phase = .selecting ∧ now - k'.sync.lastBroadcast < minGap ∧
      k'.changes = clips ∧ k'.thread = k.thread := by
  have hpos : now - now < minGap := by
    rw [Int.sub_self]
    decide
  rcases SyncTask.onLocal_gap clip hunpaused hgap with hlocal | ⟨-, hlocal⟩
  · have htake : k.takeLocal now = some { k with
        changes := clips, sync := { k.sync with lastBroadcast := now, phase := .recordingLocal clip } } := by
      simp only [takeLocal, hp, hchanges, hlocal]
    obtain ⟨k', hon, hsync, hchanges', hthread⟩ := getsOn_settle sha256 cfg now t
      (k := { k with changes := clips, sync := { k.sync with lastBroadcast := now, phase := .recordingLocal clip } })
      (fun h => hlast (SyncPhase.recordingLocal.inj h))
    refine ⟨k', .trans ⟨.single (.takeLocal htake), rfl, List.prefix_rfl, .of_eq rfl⟩ hon, ?_, ?_, hchanges', hthread⟩
    · rw [hsync]
      exact SyncTask.settle_phase ..
    · rw [hsync, SyncTask.settle_lastBroadcast]
      exact hpos
  · have htake : k.takeLocal now = some { k with
        changes := clips, sync := { k.sync with lastBroadcast := now }
        outcomes := k.outcomes ++ [(clip, .skipped .imagesOff)] } := by
      simp only [takeLocal, hp, hchanges, hlocal]
    exact ⟨_, ⟨.single (.takeLocal htake), rfl, List.prefix_rfl, _, rfl, by simp⟩, hp, hpos, rfl, rfl⟩

/-- The loop takes all that waits for it. -/
private theorem getsOn_changes (hp : k.sync.phase = .selecting) (hunpaused : k.controls.clipboardPaused = false)
    (hfirst : minGap ≤ now - k.sync.lastBroadcast → k.changes.head? = some (.text t) →
      k.sync.lastSynced = some (sha256 (asBytes t))) :
    ∃ k', GetsOn sha256 cfg now t k k' ∧ k'.sync.phase = .selecting ∧ k'.changes = [] ∧ k'.thread = k.thread ∧
      (k.changes = [] ∧ k' = k ∨ k.changes ≠ [] ∧ now - k'.sync.lastBroadcast < minGap) := by
  cases hchanges : k.changes with
  | nil => exact ⟨k, .refl k, hp, hchanges, rfl, Or.inl ⟨rfl, rfl⟩⟩
  | cons clip clips =>
    by_cases hgap : now - k.sync.lastBroadcast < minGap
    · obtain ⟨k', hon, hsync, hnil, hthread⟩ := getsOn_drain sha256 cfg now t hp hunpaused hgap hchanges
      exact ⟨k', hon, hsync ▸ hp, hnil, hthread, Or.inr ⟨by simp, hsync ▸ hgap⟩⟩
    · have hgap := Int.not_lt.1 hgap
      obtain ⟨k₁, hon₁, hp₁, hgap₁, hchanges₁, hthread₁⟩ := getsOn_first sha256 cfg now t hp hunpaused hgap
        hchanges fun hclip => hfirst hgap (by rw [hchanges, hclip]; rfl)
      obtain ⟨k', hon, hsync, hnil, hthread⟩ := getsOn_drain sha256 cfg now t hp₁ (hon₁.controls ▸ hunpaused)
        hgap₁ hchanges₁
      exact ⟨k', hon₁.trans hon, hsync ▸ hp₁, hnil, hthread.trans hthread₁, Or.inr ⟨by simp, hsync ▸ hgap₁⟩⟩

/-- Also what the thread is about to hand on is taken. -/
private theorem getsOn_clips (hp : k.sync.phase = .selecting) (hunpaused : k.controls.clipboardPaused = false)
    (hfirst : minGap ≤ now - k.sync.lastBroadcast → (k.changes ++ k.thread.phase.pending).head? = some (.text t) →
      k.sync.lastSynced = some (sha256 (asBytes t))) :
    ∃ k', GetsOn sha256 cfg now t k k' ∧ k'.sync.phase = .selecting ∧ k'.changes = [] ∧
      k'.thread.phase.pending = [] := by
  obtain ⟨k₁, hon₁, hp₁, hchanges₁, hthread₁, hcase⟩ := getsOn_changes sha256 cfg now t hp
    hunpaused fun hgap hhead => hfirst hgap (by rw [List.head?_append, hhead]; rfl)
  cases hth : k₁.thread.phase with
  | waiting => exact ⟨k₁, hon₁, hp₁, hchanges₁, by rw [hth]; rfl⟩
  | applied => exact ⟨k₁, hon₁, hp₁, hchanges₁, by rw [hth]; rfl⟩
  | sending clip =>
    have hforward : k₁.forward = some { k₁ with
        thread := { k₁.thread with phase := .waiting }, changes := [clip], forwarded := k₁.forwarded ++ [clip] } := by
      simp [forward, hth, hchanges₁, localCap]
    obtain ⟨k', hon, hp', hnil, hthread, -⟩ := getsOn_changes sha256 cfg now t
      (k := { k₁ with thread := { k₁.thread with phase := .waiting }, changes := [clip],
                      forwarded := k₁.forwarded ++ [clip] }) hp₁ (hon₁.controls ▸ hunpaused) fun hgap hhead => by
      rcases hcase with ⟨hnil, rfl⟩ | ⟨-, hgap'⟩
      · refine hfirst hgap ?_
        rw [hnil, hth]
        exact hhead
      · exact absurd hgap (Int.not_le.2 hgap')
    refine ⟨k', hon₁.trans (.trans ⟨.single (.forward hforward), rfl, List.prefix_rfl, .of_eq rfl⟩ hon), hp', hnil, ?_⟩
    rw [hthread]
    rfl

/-- A write that succeeds; an image is read back as it is. -/
private def written (b : Board) : ClipCommand → SetResult
  | .applyImage png => .done (b.token + 1) png
  | .applyText _ | .getText => .done (b.token + 1) []

/-- Only the thread has been at work, and `rest` is what it has still to do. -/
private structure ThreadDone (rest : List ClipCommand) (k k' : Desk) : Prop where
  cmds : k'.cmds = rest
  waiting : k'.thread.phase = .waiting
  sync : k'.sync = k.sync
  changes : k'.changes = k.changes
  outcomes : k'.outcomes = k.outcomes

/-- The thread works off one command; if it writes, it knows the token of this write afterwards. -/
private theorem exists_applied {cmd : ClipCommand} {cmds : List ClipCommand} (hth : k.thread.phase = .waiting)
    (hcmds : k.cmds = cmd :: cmds) :
    ∃ k', Relation.ReflTransGen (Works sha256 cfg now) k k' ∧ ThreadDone cmds k k' ∧
      (k.thread.lastToken = some k.board.token ∨ cmd ≠ .getText →
        k'.thread.lastToken = some k'.board.token) := by
  have htake : k.take sha256 (written k.board cmd) = some { k with
      cmds := cmds, board := k.board.set (written k.board cmd) cmd, thread := k.thread.onCommand sha256 cmd } := by
    simp only [take, hth, hcmds]
  have hres : written k.board cmd ≠ .failed := by cases cmd <;> simp [written]
  by_cases hget : cmd = .getText
  · subst hget
    exact ⟨_, .single (.take _ hres htake), ⟨rfl, hth, rfl, rfl, rfl⟩, fun h => h.resolve_right (by simp)⟩
  · have happlied : (k.thread.onCommand sha256 cmd).phase = .applied := by
      cases cmd with
      | applyText | applyImage => rfl
      | getText => exact absurd rfl hget
    have hsettle : ({ k with cmds := cmds, board := k.board.set (written k.board cmd) cmd,
                             thread := k.thread.onCommand sha256 cmd } : Desk).settle cfg = some { k with
        cmds := cmds, board := k.board.set (written k.board cmd) cmd
        thread := (k.thread.onCommand sha256 cmd).settle
          ((k.board.set (written k.board cmd) cmd).snapshot cfg.os k.controls.syncImages) } := by
      simp only [settle, happlied]
    refine ⟨_, .head (.take _ hres htake) (.single (.settle hsettle)), ⟨rfl, rfl, rfl, rfl, rfl⟩, fun _ => ?_⟩
    exact Board.snapshot_token ..

/-- The thread works off its commands, and knows the token of the last write. -/
private theorem exists_threadDone {cmds : List ClipCommand} (hth : k.thread.phase = .waiting)
    (hcmds : k.cmds = cmds) (hknown : k.thread.lastToken = some k.board.token ∨ ∃ cmd ∈ cmds, cmd ≠ .getText) :
    ∃ k', Relation.ReflTransGen (Works sha256 cfg now) k k' ∧ ThreadDone [] k k' ∧
      k'.thread.lastToken = some k'.board.token := by
  induction cmds generalizing k with
  | nil => exact ⟨k, .refl, ⟨hcmds, hth, rfl, rfl, rfl⟩, by simpa using hknown⟩
  | cons cmd cmds ih =>
    obtain ⟨k₁, hreach₁, hdone₁, hknown₁⟩ := exists_applied sha256 cfg now hth hcmds
    have hlater : k₁.thread.lastToken = some k₁.board.token ∨ ∃ cmd ∈ cmds, cmd ≠ .getText := by
      rcases hknown with hknown | ⟨cmd', hmem, hne⟩
      · exact Or.inl (hknown₁ (Or.inl hknown))
      · rcases List.mem_cons.1 hmem with rfl | hmem
        · exact Or.inl (hknown₁ (Or.inr hne))
        · exact Or.inr ⟨cmd', hmem, hne⟩
    obtain ⟨k', hreach, hdone, hknown'⟩ := ih hdone₁.waiting hdone₁.cmds hlater
    exact ⟨k', hreach₁.trans hreach, ⟨hdone.cmds, hdone.waiting, hdone.sync.trans hdone₁.sync,
      hdone.changes.trans hdone₁.changes, hdone.outcomes.trans hdone₁.outcomes⟩, hknown'⟩

/-- After the request the device can come to rest without sending the text, if no copy of it is on its way. -/
private theorem exists_settled_unsent (hunpaused : k.controls.clipboardPaused = false)
    (hnot : ¬ k.Underway sha256 cfg t) (hcmd : .applyText t ∈ k.cmds) :
    ∃ k', Relation.ReflTransGen (Works sha256 cfg now) k k' ∧ k'.Settled ∧ Unsent cfg.ownId t k k' := by
  obtain ⟨k₁, hon₁, hsync₁, hchanges₁, hthread₁⟩ := getsOn_settle sha256 cfg now t
    (k := k) fun h => absurd (Or.inl h) hnot
  have hp₁ : k₁.sync.phase = .selecting := hsync₁ ▸ SyncTask.settle_phase ..
  obtain ⟨k₂, hon₂, hp₂, hchanges₂, hthread₂⟩ := getsOn_clips sha256 cfg now t hp₁
    (hon₁.controls ▸ hunpaused) fun _ hhead => by
      rw [hchanges₁, hthread₁] at hhead
      rw [hsync₁]
      by_contra hlast
      exact hnot (Or.inr ⟨hhead, hlast⟩)
  have hon := hon₁.trans hon₂
  obtain ⟨cmds, hcmds⟩ := hon.cmds
  have hmem : .applyText t ∈ k₂.cmds := hcmds ▸ List.mem_append_left _ hcmd
  -- the thread leaves the snapshot it may be in
  obtain ⟨k₃, hreach₃, hth₃, hcmds₃, hsync₃, hchanges₃, houtcomes₃⟩ : ∃ k₃,
      Relation.ReflTransGen (Works sha256 cfg now) k₂ k₃ ∧ k₃.thread.phase = .waiting ∧ k₃.cmds = k₂.cmds ∧
        k₃.sync = k₂.sync ∧ k₃.changes = k₂.changes ∧ k₃.outcomes = k₂.outcomes := by
    cases hth : k₂.thread.phase with
    | waiting => exact ⟨k₂, .refl, hth, rfl, rfl, rfl, rfl⟩
    | applied =>
      have hsettle : k₂.settle cfg = some { k₂ with
          thread := k₂.thread.settle (k₂.board.snapshot cfg.os k₂.controls.syncImages) } := by
        simp only [settle, hth]
      exact ⟨_, .single (.settle hsettle), rfl, rfl, rfl, rfl, rfl⟩
    | sending clip =>
      rw [hth] at hthread₂
      cases hthread₂
  obtain ⟨k₄, hreach₄, hdone, hknown⟩ := exists_threadDone sha256 cfg now hth₃ hcmds₃
    (Or.inr ⟨_, hmem, by simp⟩)
  have hsync₄ : k₄.sync = k₂.sync := hdone.sync.trans hsync₃
  refine ⟨k₄, (hon.reach.trans hreach₃).trans hreach₄,
    ⟨hdone.cmds, hdone.waiting, hsync₄ ▸ hp₂, Or.inr hknown, ?_⟩,
    hon.unsent.trans (.of_eq (hdone.outcomes.trans houtcomes₃))⟩
  rw [pipeline, hsync₄, hp₂, hdone.changes, hchanges₃, hchanges₂, hdone.waiting]
  rfl

end Schedule

end Desk

/-- The text of a `ClipSet` request is broadcast in every run that takes the device to rest exactly if the user's own
copy of it is the next thing to be broadcast. -/
theorem copy_command_sent_iff [DecidableEq ι] (sha256 : Bytes → Digest) (cfg : ι → ClipConfig) (n : ClipNet ι) (d : ι)
    (t : String) (hunpaused : (n.desk d).controls.clipboardPaused = false)
    (hgap : minGap ≤ n.now - (n.desk d).sync.lastBroadcast) (hlen : t.utf8ByteSize ≤ (cfg d).maxText)
    (hnew : (n.desk d).sync.lastSynced ≠ some (sha256 (asBytes t))) :
    (∀ n' es m, n.step sha256 cfg (.command d (.applyText t)) = some n' →
      Run (ClipNet.step sha256 cfg) (Calm d) n' es m → (m.desk d).Settled →
        (n.desk d).SentSince (cfg d).ownId t (m.desk d)) ↔
      (n.desk d).Underway sha256 (cfg d) t := by
  have hstep : n.step sha256 cfg (.command d (.applyText t)) =
      some (n.setDesk d ((n.desk d).command (.applyText t))) := rfl
  constructor
  · intro h
    by_contra hnot
    obtain ⟨k, hreach, hsettled, hunsent⟩ := Desk.exists_settled_unsent sha256 (cfg d) n.now t
      (k := (n.desk d).command (.applyText t)) hunpaused hnot (by simp [Desk.command])
    rw [← ClipNet.setDesk_desk_self n d ((n.desk d).command (.applyText t))] at hreach
    have hn : (n.setDesk d ((n.desk d).command (.applyText t))).now = n.now := rfl
    rw [← hn] at hreach
    obtain ⟨es, m, hr, -, rfl⟩ := Desk.works_run hreach
    exact hunsent.not_sentSince (h _ es m hstep hr hsettled)
  · rintro hunder n' es m hs hr hsettled
    obtain rfl := Option.some.inj (hstep.symm.trans hs)
    have hstart : Desk.Coming sha256 (cfg d) t (n.desk d) n.now ((n.desk d).command (.applyText t)) := by
      refine ⟨hunpaused, List.prefix_rfl, ?_⟩
      rcases hunder with hphase | ⟨hhead, hlast⟩
      · exact Or.inr (Or.inl ⟨hphase, hnew⟩)
      · exact Or.inr (Or.inr ⟨hhead, hlast, hgap⟩)
    have hend := hr.invariant (I := fun m => Desk.Coming sha256 (cfg d) t (n.desk d) m.now (m.desk d))
      (by rw [ClipNet.setDesk_desk_self]; exact hstart) fun u e v hu hc hs => by
      rcases hc.works hs with ⟨hw, hnow⟩ | ⟨hdesk, hnow⟩
      · rw [hnow]
        exact hu.works hlen hw
      · rw [hdesk]
        exact hu.later hnow
    exact hend.sent hsettled

/-! ### Two devices -/

private def firstByte (content : Bytes) : Digest := Vector.replicate 32 (content.headD 0)

private def twoDevices (d : Bool) : ClipConfig := ⟨if d then "b" else "a", .other, 1024⟩

private def twoDesks : ClipNet Bool := .start twoDevices (fun _ => ⟨false, true⟩) fun _ => ⟨.ofText "old", 0⟩

/-- The user of the first device has copied "hi", and the sync loop records it. -/
private def hiCopied : ClipNet Bool :=
  (exec (ClipNet.step firstByte twoDevices) twoDesks
    [.copy false (.ofText "hi") 1, .poll false, .forward false, .takeLocal false, .tick 300]).getD twoDesks

/-- The text goes out when the user has copied it as well. -/
theorem copy_command_sent_iff_copied :
    ∃ n' es m, hiCopied.step firstByte twoDevices (.command false (.applyText "hi")) = some n' ∧
      Run (ClipNet.step firstByte twoDevices) (Calm false) n' es m ∧ (m.desk false).Settled ∧
      (hiCopied.desk false).SentSince "a" "hi" (m.desk false) := by
  obtain ⟨m, hr, hsettled⟩ := run_of_exec_checked (ClipNet.step firstByte twoDevices) (Calm false)
    (hiCopied.setDesk false ((hiCopied.desk false).command (.applyText "hi")))
    [.finishLocal false fun _ => true, .take false (.done 2 []), .settle false]
    (fun m => decide (m.desk false).Settled) true (by decide +kernel)
  have hunder : (hiCopied.desk false).Underway firstByte (twoDevices false) "hi" := Or.inl (by decide +kernel)
  have hsent := (copy_command_sent_iff firstByte twoDevices hiCopied false "hi" (by decide +kernel)
    (by decide +kernel) (by decide +kernel) (by decide +kernel)).2 hunder
  exact ⟨_, _, m, rfl, hr, of_decide_eq_true hsettled, hsent _ _ m rfl hr (of_decide_eq_true hsettled)⟩

/-- On a device at rest `qdrop copy` sets the clipboard, and no poll forwards it. -/
theorem copy_command_stays_local :
    ∃ n' es m, twoDesks.step firstByte twoDevices (.command false (.applyText "hi")) = some n' ∧
      Run (ClipNet.step firstByte twoDevices) (Calm false) n' es m ∧ (m.desk false).Settled ∧
      (m.desk false).board.content = .ofText "hi" ∧ (m.desk false).outcomes = [] ∧
      ¬ (twoDesks.desk false).SentSince "a" "hi" (m.desk false) := by
  obtain ⟨m, hr, hview⟩ := run_of_exec_checked (ClipNet.step firstByte twoDevices) (Calm false)
    (twoDesks.setDesk false ((twoDesks.desk false).command (.applyText "hi")))
    [.take false (.done 1 []), .settle false, .poll false, .tick 250, .poll false]
    (fun m => (decide (m.desk false).Settled, (m.desk false).board.content, (m.desk false).outcomes))
    (true, .ofText "hi", []) (by decide +kernel)
  obtain ⟨hsettled, hboard, houtcomes⟩ := by simpa using hview
  refine ⟨_, _, m, rfl, hr, hsettled, hboard, houtcomes, ?_⟩
  rintro ⟨seq, hmem⟩
  rw [houtcomes] at hmem
  simp at hmem

end Qdrop
