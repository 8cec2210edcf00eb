import Qdrop.Clipboard.Net
import Qdrop.Lib.Pacing
import Qdrop.Lib.Run

/-!
# The rate limit of the sync loop (`qdropd/src/sync.rs`)

The loop checks the gap when it takes a local change and sends after `history.record_*().await`, so two broadcasts
can follow each other at once.  `broadcasts_rate_limited` says what the limit is worth nevertheless: in every window of
time a device sends at most two clipboards more than the window has gaps.
-/

namespace Qdrop

open Lib

variable {ι : Type} [DecidableEq ι] {sha256 : Bytes → Digest} {cfg : ι → ClipConfig}

/-! ### When clipboards are sent -/

/-- The devices, and when each of them has sent its local changes: by a broadcast or, a large image, by
`send_clip_image`. -/
structure ClipTimes (ι : Type) where
  net : ClipNet ι
  sent : ι → List Int

def ClipTimes.start (cfg : ι → ClipConfig) (controls : ι → Controls) (boards : ι → Board) : ClipTimes ι :=
  ⟨ClipNet.start cfg controls boards, fun _ => []⟩

/-- A step of some task; what it adds to a device's broadcasts is sent now. -/
def clipTimesStep (sha256 : Bytes → Digest) (cfg : ι → ClipConfig) (n : ClipTimes ι) (e : ClipEvent ι) :
    Option (ClipTimes ι) :=
  (n.net.step sha256 cfg e).map fun net => ⟨net, fun d => n.sent d ++
    List.replicate ((net.desk d).broadcasts.length - (n.net.desk d).broadcasts.length) n.net.now⟩

def SyncPhase.isLocal : SyncPhase → Bool
  | .recordingLocal _ => true
  | .selecting | .recordingRemote _ => false

/-- The gap check and the sends of a device as a gate. -/
def ClipTimes.gate (n : ClipTimes ι) (d : ι) : Gate :=
  ⟨n.net.now, (n.net.desk d).sync.lastBroadcast, (n.net.desk d).sync.phase.isLocal, n.sent d⟩

/-! ### A step of a device -/

/-- What the sync loop does in a step, and what comes of it. -/
inductive Desk.SyncMove (sha256 : Bytes → Digest) (cfg : ClipConfig) (now : Int) (k k' : Desk) : Prop
  | none (hsync : k'.sync = k.sync) (hout : k'.outcomes = k.outcomes)
  | takeLocal (h : k.takeLocal now = some k')
  | finishLocal (out : Outcome) (h : k.finishLocal sha256 cfg = some (k', out))
  | receive (msg : Message) (h : k.receive cfg msg = some k')
  | finishRemote (h : k.finishRemote sha256 = some k')

private theorem syncMove_of_map {n m : ClipNet ι} {d d' : ι} {k? : Option Desk} (hs : k?.map (n.setDesk d') = some m)
    (hw : d' = d → ∀ k, k? = some k → (n.desk d).SyncMove sha256 (cfg d) n.now k) :
    m.now = n.now ∧ (n.desk d).SyncMove sha256 (cfg d) n.now (m.desk d) := by
  obtain ⟨k, hk, rfl⟩ := Option.map_eq_some_iff.1 hs
  refine ⟨rfl, ?_⟩
  by_cases hd : d' = d
  · have hmove := hw hd k hk
    subst hd
    rwa [ClipNet.setDesk_desk_self]
  · rw [ClipNet.setDesk_desk_of_ne n k (Ne.symm hd)]
    exact .none rfl rfl

/-- In every step time passes, or the sync loop of a device moves or stands still. -/
private theorem syncMove_step {n m : ClipNet ι} {e : ClipEvent ι} (hs : n.step sha256 cfg e = some m) (d : ι) :
    (∃ ms : Nat, m = { n with now := n.now + ms }) ∨
      m.now = n.now ∧ (n.desk d).SyncMove sha256 (cfg d) n.now (m.desk d) := by
  have hdesk : ∀ {n' : ClipNet ι} {d' : ι} {k : Desk}, n'.desk = n.desk → k.sync = (n.desk d').sync →
      k.outcomes = (n.desk d').outcomes → (n.desk d).SyncMove sha256 (cfg d) n.now ((n'.setDesk d' k).desk d) := by
    intro n' d' k hn hsync hout
    by_cases hd : d' = d
    · subst hd
      rw [ClipNet.setDesk_desk_self]
      exact .none hsync hout
    · rw [ClipNet.setDesk_desk_of_ne n' k (Ne.symm hd), hn]
      exact .none rfl rfl
  cases e with
  | tick ms =>
    cases hs
    exact Or.inl ⟨ms, rfl⟩
  | pause d' on =>
    cases hs
    exact Or.inr ⟨rfl, hdesk rfl rfl rfl⟩
  | copy d' c token =>
    cases hs
    exact Or.inr ⟨rfl, hdesk rfl rfl rfl⟩
  | command d' cmd =>
    cases hs
    exact Or.inr ⟨rfl, hdesk rfl rfl rfl⟩
  | lose src dst =>
    simp only [ClipNet.step] at hs
    cases hw : n.wire src dst with
    | nil =>
      rw [hw] at hs
      cases hs
    | cons msg msgs =>
      rw [hw] at hs
      cases hs
      exact Or.inr ⟨rfl, .none rfl rfl⟩
  | receive d' src =>
    simp only [ClipNet.step] at hs
    cases hw : n.wire src d' with
    | nil =>
      rw [hw] at hs
      cases hs
    | cons msg msgs =>
      rw [hw] at hs
      obtain ⟨k, hk, rfl⟩ := Option.map_eq_some_iff.1 hs
      refine Or.inr ⟨rfl, ?_⟩
      by_cases hd : d' = d
      · subst hd
        rw [ClipNet.setDesk_desk_self]
        exact .receive msg hk
      · rw [ClipNet.setDesk_desk_of_ne _ k (Ne.symm hd)]
        exact .none rfl rfl
  | blob d' src =>
    simp only [ClipNet.step] at hs
    cases hw : n.blobs src d' with
    | nil =>
      rw [hw] at hs
      cases hs
    | cons png images =>
      rw [hw] at hs
      cases hs
      exact Or.inr ⟨rfl, hdesk rfl rfl rfl⟩
  | take d' res =>
    refine Or.inr (syncMove_of_map hs ?_)
    rintro rfl k hk
    obtain ⟨cmd, cmds, -, -, rfl⟩ := Desk.take_some hk
    exact .none rfl rfl
  | settle d' =>
    refine Or.inr (syncMove_of_map hs ?_)
    rintro rfl k hk
    obtain ⟨-, rfl⟩ := Desk.settle_some hk
    exact .none rfl rfl
  | poll d' =>
    refine Or.inr (syncMove_of_map hs ?_)
    rintro rfl k hk
    obtain ⟨-, rfl⟩ := Desk.poll_some hk
    exact .none rfl rfl
  | forward d' =>
    refine Or.inr (syncMove_of_map hs ?_)
    rintro rfl k hk
    obtain ⟨clip, -, rfl⟩ := Desk.forward_some hk
    exact .none rfl rfl
  | takeLocal d' =>
    refine Or.inr (syncMove_of_map hs ?_)
    rintro rfl k hk
    exact .takeLocal hk
  | finishLocal d' reached =>
    obtain ⟨⟨k, out⟩, hk, rfl⟩ := Option.map_eq_some_iff.1 hs
    refine Or.inr ⟨?_, ?_⟩
    · cases out <;> rfl
    · rw [ClipNet.post_desk]
      by_cases hd : d' = d
      · subst hd
        rw [ClipNet.setDesk_desk_self]
        exact .finishLocal out hk
      · rw [ClipNet.setDesk_desk_of_ne n k (Ne.symm hd)]
        exact .none rfl rfl
  | finishRemote d' =>
    refine Or.inr (syncMove_of_map hs ?_)
    rintro rfl k hk
    exact .finishRemote hk

/-! ### The gate of a device -/

/-- A local change is turned away, or it passes the check of the gap. -/
private theorem onLocal_gate (ctl : Controls) (now : Int) (st : SyncTask) (clip : LocalClip) :
    (st.onLocal ctl now clip).1 = st ∨
      st.lastBroadcast + minGap ≤ now ∧ (st.onLocal ctl now clip).1.lastBroadcast = now := by
  cases hp : ctl.clipboardPaused with
  | true => exact Or.inl (by simp [SyncTask.onLocal, hp])
  | false =>
    by_cases hgap : now - st.lastBroadcast < minGap
    · rw [SyncTask.onLocal_early clip hp hgap]
      exact Or.inl rfl
    · have hpassed : minGap ≤ now - st.lastBroadcast := not_lt.1 hgap
      refine Or.inr ⟨by linarith, ?_⟩
      rcases SyncTask.onLocal_gap clip hp hpassed with h | ⟨-, h⟩
      · rw [h]
      · rw [h]

/-- One more outcome is one more broadcast, unless the change was skipped. -/
private theorem broadcasts_snoc {k k' : Desk} {clip : LocalClip} {out : Outcome}
    (h : k'.outcomes = k.outcomes ++ [(clip, out)]) :
    k'.broadcasts = k.broadcasts ∨ (∀ why, out ≠ .skipped why) ∧ k'.broadcasts = k.broadcasts ++ [clip] := by
  unfold Desk.broadcasts
  rw [h, List.filterMap_append]
  cases out with
  | skipped why => exact Or.inl (by simp)
  | broadcast msg => exact Or.inr ⟨by simp, rfl⟩
  | blob png => exact Or.inr ⟨by simp, rfl⟩

/-- The gate of a desk at a time, after the sends so far. -/
private def Desk.gate (k : Desk) (now : Int) (sent : List Int) : Gate :=
  ⟨now, k.sync.lastBroadcast, k.sync.phase.isLocal, sent⟩

private theorem gate_same {k k' : Desk} {now : Int} {sent : List Int}
    (hlast : k'.sync.lastBroadcast = k.sync.lastBroadcast)
    (hphase : k'.sync.phase.isLocal = k.sync.phase.isLocal) :
    Gate.Step minGap (k.gate now sent) (k'.gate now sent) := by
  have hgate : k'.gate now sent = k.gate now sent := by rw [Desk.gate, hlast, hphase, Desk.gate]
  rw [hgate]
  exact .wait now le_rfl

private theorem gate_onLocal {k k' : Desk} {now : Int} {sent : List Int} {clip : LocalClip}
    (h : k'.sync = (k.sync.onLocal k.controls now clip).1) : Gate.Step minGap (k.gate now sent) (k'.gate now sent) := by
  rcases onLocal_gate k.controls now k.sync clip with hsame | ⟨hgap, hlast⟩
  · rw [hsame] at h
    exact gate_same (by rw [h]) (by rw [h])
  · have hgate : k'.gate now sent = ⟨now, now, k'.sync.phase.isLocal, sent⟩ := by rw [Desk.gate, h, hlast]
    rw [hgate]
    exact .pass _ hgap

private theorem broadcastLocal_lastBroadcast (maxText : Nat) (ownId : DeviceId) (st : SyncTask) (clip : LocalClip) :
    (st.broadcastLocal sha256 maxText ownId clip).1.lastBroadcast = st.lastBroadcast := by
  unfold SyncTask.broadcastLocal
  cases clip with
  | text t => dsimp only; split <;> (try split) <;> rfl
  | image png => dsimp only; split <;> (try split) <;> rfl

/-- What the loop does is a step of its gate: what it broadcasts passes the gate now. -/
private theorem gate_syncMove {cfg : ClipConfig} {k k' : Desk} {now : Int} (sent : List Int)
    (h : k.SyncMove sha256 cfg now k') : Gate.Step minGap (k.gate now sent)
      (k'.gate now (sent ++ List.replicate (k'.broadcasts.length - k.broadcasts.length) now)) := by
  have hquiet : k'.broadcasts = k.broadcasts →
      sent ++ List.replicate (k'.broadcasts.length - k.broadcasts.length) now = sent := by
    intro hb
    rw [hb, Nat.sub_self, List.replicate_zero, List.append_nil]
  cases h with
  | none hsync hout =>
    rw [hquiet (by rw [Desk.broadcasts, hout, Desk.broadcasts])]
    exact gate_same (by rw [hsync]) (by rw [hsync])
  | takeLocal h =>
    obtain ⟨clip, changes, -, -, ⟨sync, why, ho, hk⟩ | ⟨sync, ho, hk⟩⟩ := Desk.takeLocal_some h
    · have hb : k'.broadcasts = k.broadcasts := by
        have hout : k'.outcomes = k.outcomes ++ [(clip, .skipped why)] := by rw [hk]
        exact (broadcasts_snoc hout).resolve_right fun hnot => hnot.1 why rfl
      rw [hquiet hb]
      have hsync : k'.sync = (k.sync.onLocal k.controls now clip).1 := by rw [hk, ho]
      exact gate_onLocal hsync
    · rw [hquiet (by rw [hk]; rfl)]
      have hsync : k'.sync = (k.sync.onLocal k.controls now clip).1 := by rw [hk, ho]
      exact gate_onLocal hsync
  | finishLocal out h =>
    obtain ⟨clip, hphase, hout, hk⟩ := Desk.finishLocal_some h
    have hk : k' = _ := hk
    have hlast : k'.sync.lastBroadcast = k.sync.lastBroadcast := by
      rw [hk]
      exact broadcastLocal_lastBroadcast cfg.maxText cfg.ownId k.sync clip
    have hidle : k'.sync.phase.isLocal = false := by
      rw [hk]
      show (k.sync.broadcastLocal sha256 cfg.maxText cfg.ownId clip).1.phase.isLocal = false
      rw [SyncTask.broadcastLocal_phase]
      rfl
    have hgate : ∀ sent', k'.gate now sent' = ⟨now, k.sync.lastBroadcast, false, sent'⟩ := by
      intro sent'
      rw [Desk.gate, hlast, hidle]
    rw [hgate]
    have houts : k'.outcomes = k.outcomes ++ [(clip, out)] := by rw [hk]
    rcases broadcasts_snoc houts with hb | ⟨-, hb⟩
    · rw [hquiet hb]
      exact .drop
    · have hone : k'.broadcasts.length - k.broadcasts.length = 1 := by
        rw [hb, List.length_append, List.length_singleton]
        omega
      rw [hone]
      exact .send (by rw [Desk.gate, hphase]; rfl)
  | receive msg h =>
    obtain ⟨hphase, hk⟩ := Desk.receive_some h
    rw [hquiet (by rw [hk]; rfl)]
    rcases SyncTask.onRemote_cases k.controls cfg.ownId cfg.maxText k.sync msg with hsame | ⟨clip, hsync, -, -⟩
    · exact gate_same (by rw [hk, hsame]) (by rw [hk, hsame])
    · exact gate_same (by rw [hk, hsync]) (by rw [hk, hsync, hphase]; rfl)
  | finishRemote h =>
    obtain ⟨clip, hphase, hk⟩ := Desk.finishRemote_some h
    rw [hquiet (by rw [hk]; rfl)]
    have hlast : (k.sync.applyRemote sha256 clip).1.lastBroadcast = k.sync.lastBroadcast := by
      unfold SyncTask.applyRemote
      split <;> rfl
    refine gate_same (by rw [hk]; exact hlast) ?_
    rw [hk, hphase]
    show (k.sync.applyRemote sha256 clip).1.phase.isLocal = false
    rw [SyncTask.applyRemote_phase]
    rfl

/-- Every step of the devices is a step of each device's gate. -/
theorem gate_step {n m : ClipTimes ι} {e : ClipEvent ι} (hs : clipTimesStep sha256 cfg n e = some m) (d : ι) :
    Gate.Step minGap (n.gate d) (m.gate d) := by
  obtain ⟨net, hnet, rfl⟩ := Option.map_eq_some_iff.1 hs
  rcases syncMove_step hnet d with ⟨ms, rfl⟩ | ⟨hnow, hmove⟩
  · have hgate : ClipTimes.gate ⟨{ n.net with now := n.net.now + ms }, fun d => n.sent d ++
        List.replicate ((n.net.desk d).broadcasts.length - (n.net.desk d).broadcasts.length) n.net.now⟩ d =
        ⟨n.net.now + ms, (n.gate d).last, (n.gate d).busy, (n.gate d).sent⟩ := by
      simp [ClipTimes.gate]
    rw [hgate]
    exact .wait _ (by simp [ClipTimes.gate])
  · have hgate := gate_syncMove (n.sent d) hmove
    rw [← hnow] at hgate
    show Gate.Step minGap ((n.net.desk d).gate n.net.now (n.sent d)) ((net.desk d).gate net.now _)
    rw [← hnow]
    exact hgate

/-- In every run of any number of devices, whatever their users copy, their peers send and however long a record takes:
in every window of time a device sends at most two of its clipboards more than the window has gaps. -/
theorem broadcasts_rate_limited (sha256 : Bytes → Digest) (cfg : ι → ClipConfig) (controls : ι → Controls)
    (boards : ι → Board) (es : List (ClipEvent ι)) (n : ClipTimes ι) (d : ι) (a b : Int)
    (hr : Run (clipTimesStep sha256 cfg) Always (ClipTimes.start cfg controls boards) es n) (hab : a ≤ b) :
    ((n.sent d).countP fun t => decide (a ≤ t ∧ t ≤ b)) * minGap ≤ b - a + 2 * minGap := by
  have hgap : 0 ≤ minGap := by decide
  have hpaces : (n.gate d).Paces minGap := by
    refine hr.invariant (I := fun n => (n.gate d).Paces minGap) ?_ fun s e t h _ ht => h.step hgap (gate_step ht d)
    exact Gate.paces_start (show (0 : Int) - minGap ≤ 0 by decide)
  exact hpaces.paced.window hgap hab

/-- A first letter as a hash. -/
private def initialHash (b : Bytes) : Digest := Vector.replicate 32 (b.headD 0)

private def soleDesk (_ : Unit) : ClipConfig := ⟨"a", .macos, 1024⟩

/-- The record of the first copy takes 300 ms, and the second one is there when it is done. -/
private def slowRecord : List (ClipEvent Unit) :=
  [.copy () (.ofText "x") 1, .poll (), .forward (), .takeLocal (), .tick 300, .copy () (.ofText "y") 2, .poll (),
    .forward (), .finishLocal () (fun _ => true), .takeLocal (), .finishLocal () (fun _ => true)]

/-- Both are sent at once, which is as many as the window has room for. -/
theorem broadcasts_rate_limited_slow : ∃ n : ClipTimes Unit, n.sent () = [300, 300] ∧
    ((n.sent ()).countP fun t => decide (300 ≤ t ∧ t ≤ 300)) * minGap ≤ 300 - 300 + 2 * minGap := by
  obtain ⟨n, hr, hsent⟩ := run_of_exec_view (clipTimesStep initialHash soleDesk) (fun _ => True)
    (ClipTimes.start soleDesk (fun _ => ⟨false, true⟩) fun _ => ⟨.ofText "", 0⟩) slowRecord (fun n => n.sent ())
    [300, 300] (fun _ _ => trivial) (by decide +kernel)
  exact ⟨n, hsent, broadcasts_rate_limited initialHash soleDesk _ _ slowRecord n () 300 300 hr.always le_rfl⟩

end Qdrop
