import Mathlib.Algebra.Order.BigOperators.Group.Finset
import Mathlib.Data.Fintype.BigOperators
import Qdrop.Clipboard.Net
import Qdrop.Lib.Run

/-!
# No echo

A device broadcasts only what its own user copied, and each copy at most once.  The invariant ties the thread's
`lastToken` to who changed the clipboard last: if the thread does not know the current token and is not between a
write and its snapshot, the clipboard holds the user's last copy and that copy has not been forwarded.
-/

namespace Qdrop

open Lib
open scoped List

/-- The clip the thread is about to forward. -/
def ThreadPhase.pending : ThreadPhase → List LocalClip
  | .sending clip => [clip]
  | .waiting | .applied => []

/-- The local change the sync loop is working on. -/
def SyncPhase.pending : SyncPhase → List LocalClip
  | .recordingLocal clip => [clip]
  | .selecting | .recordingRemote _ => []

/-- What holds of a desk with a constant image switch. -/
structure Honest (cfg : ClipConfig) (images : Bool) (k : Desk) : Prop where
  images_eq : k.controls.syncImages = images
  /-- Each clip forwarded stands for a copy of its own. -/
  sub : k.forwarded ++ k.thread.phase.pending <+ k.copied.filterMap (Content.clip images)
  /-- A token the thread does not know was set by the last copy, which is still to be forwarded. -/
  fresh : k.thread.phase = .applied ∨ k.thread.lastToken = some k.board.token ∨
    ∃ us, k.copied = us ++ [k.board.content] ∧
      k.forwarded ++ k.thread.phase.pending <+ us.filterMap (Content.clip images)
  account : k.outcomes.map Prod.fst ++ k.sync.phase.pending ++ k.changes = k.forwarded
  carried : ∀ p ∈ k.outcomes, p.2.Carries cfg.ownId p.1

namespace Honest

variable {sha256 : Bytes → Digest} {cfg : ClipConfig} {images : Bool} {k k' : Desk}

theorem start (now : Int) {controls : Controls} (board : Board) (h : controls.syncImages = images) :
    Honest cfg images (Desk.start cfg now controls board) where
  images_eq := h
  sub := by simp [Desk.start, ClipThread.start, ThreadPhase.pending]
  fresh := by simp [Desk.start, ClipThread.start]
  account := by simp [Desk.start, SyncTask.start, SyncPhase.pending]
  carried := by simp [Desk.start]

/-- After a copy the clipboard holds a copy that was not forwarded yet. -/
theorem copy (h : Honest cfg images k) (c : Content) (token : Int) : Honest cfg images (k.copy c token) where
  images_eq := h.images_eq
  sub := by
    rw [Desk.copy, List.filterMap_append]
    exact h.sub.trans (List.sublist_append_left ..)
  fresh := Or.inr (Or.inr ⟨k.copied, rfl, h.sub⟩)
  account := h.account
  carried := h.carried

theorem take {res : SetResult} (h : Honest cfg images k) (hs : k.take sha256 res = some k') :
    Honest cfg images k' := by
  obtain ⟨cmd, cmds, hp, -, rfl⟩ := Desk.take_some hs
  have hsub : k.forwarded ++ ThreadPhase.waiting.pending <+ k.copied.filterMap (Content.clip images) := by
    rw [← hp]; exact h.sub
  cases cmd with
  | applyText t => exact ⟨h.images_eq, hsub, Or.inl rfl, h.account, h.carried⟩
  | applyImage png => exact ⟨h.images_eq, hsub, Or.inl rfl, h.account, h.carried⟩
  | getText => exact ⟨h.images_eq, h.sub, h.fresh, h.account, h.carried⟩

theorem settle (h : Honest cfg images k) (hs : k.settle cfg = some k') : Honest cfg images k' := by
  obtain ⟨hp, rfl⟩ := Desk.settle_some hs
  refine ⟨h.images_eq, ?_, Or.inr (Or.inl rfl), h.account, h.carried⟩
  have hsub := h.sub
  rw [hp] at hsub
  exact hsub

/-- The poll forwards only a copy it has not forwarded before. -/
theorem poll (h : Honest cfg images k) (hs : k.poll sha256 cfg = some k') : Honest cfg images k' := by
  obtain ⟨hp, rfl⟩ := Desk.poll_some hs
  have hsub := h.sub
  have hfresh := h.fresh
  rw [hp] at hsub hfresh
  rw [h.images_eq]
  rcases k.thread.poll_cases sha256 cfg.os images k.board with
    ⟨-, heq⟩ | ⟨-, -, heq⟩ | ⟨clip, -, -, -, heq⟩ | ⟨clip, htok, hclip, -, heq⟩
  · rw [heq]
    exact h
  · rw [heq]
    exact ⟨h.images_eq, h.sub, Or.inr (Or.inl rfl), h.account, h.carried⟩
  · rw [heq]
    exact ⟨h.images_eq, h.sub, Or.inr (Or.inl rfl), h.account, h.carried⟩
  · rw [heq]
    refine ⟨h.images_eq, ?_, Or.inr (Or.inl rfl), h.account, h.carried⟩
    obtain hbad | hbad | ⟨us, hus, hle⟩ := hfresh
    · cases hbad
    · exact absurd hbad htok
    · dsimp only
      rw [hus, List.filterMap_append]
      simp only [ThreadPhase.pending, List.append_nil] at hle ⊢
      refine hle.append ?_
      simp [hclip]

theorem forward (h : Honest cfg images k) (hs : k.forward = some k') : Honest cfg images k' := by
  obtain ⟨clip, hp, rfl⟩ := Desk.forward_some hs
  have hsub := h.sub
  have hfresh := h.fresh
  rw [hp] at hsub hfresh
  refine ⟨h.images_eq, by simpa [ThreadPhase.pending] using hsub, Or.inr ?_, ?_, h.carried⟩
  · obtain hbad | hfresh := hfresh
    · cases hbad
    · simpa [ThreadPhase.pending] using hfresh
  · dsimp only
    rw [← h.account, ← List.append_assoc]

theorem takeLocal {now : Int} (h : Honest cfg images k) (hs : k.takeLocal now = some k') :
    Honest cfg images k' := by
  obtain ⟨clip, changes, hp, hc, hout⟩ := Desk.takeLocal_some hs
  have hacc : k.outcomes.map Prod.fst ++ clip :: changes = k.forwarded := by
    have hacc := h.account
    rw [hp, hc] at hacc
    simpa [SyncPhase.pending] using hacc
  obtain ⟨sync, why, ho, rfl⟩ | ⟨sync, ho, rfl⟩ := hout
  · refine ⟨h.images_eq, h.sub, h.fresh, ?_, ?_⟩
    · rcases k.sync.onLocal_cases k.controls now clip with ⟨st', why', heq, hphase⟩ | heq
      · obtain ⟨rfl, -⟩ := Prod.mk.inj (ho.symm.trans heq)
        simpa [hphase, hp, SyncPhase.pending] using hacc
      · cases (Prod.mk.inj (ho.symm.trans heq)).2
    · intro p hmem
      rcases List.mem_append.1 hmem with hmem | hmem
      · exact h.carried p hmem
      · rw [List.mem_singleton.1 hmem]
        trivial
  · refine ⟨h.images_eq, h.sub, h.fresh, ?_, h.carried⟩
    rcases k.sync.onLocal_cases k.controls now clip with ⟨st', why', heq, -⟩ | heq
    · cases (Prod.mk.inj (ho.symm.trans heq)).2
    · obtain ⟨rfl, -⟩ := Prod.mk.inj (ho.symm.trans heq)
      simpa [SyncPhase.pending] using hacc

theorem finishLocal {out : Desk × Outcome} (h : Honest cfg images k) (hs : k.finishLocal sha256 cfg = some out) :
    Honest cfg images out.1 := by
  obtain ⟨clip, hp, ho, heq⟩ := Desk.finishLocal_some hs
  have hacc := h.account
  rw [hp] at hacc
  rw [heq]
  refine ⟨h.images_eq, h.sub, h.fresh, ?_, ?_⟩
  · simpa [SyncTask.broadcastLocal_phase, SyncPhase.pending] using hacc
  · intro p hmem
    rcases List.mem_append.1 hmem with hmem | hmem
    · exact h.carried p hmem
    · rw [List.mem_singleton.1 hmem, ho]
      exact SyncTask.broadcastLocal_carries ..

theorem receive {msg : Message} (h : Honest cfg images k) (hs : k.receive cfg msg = some k') :
    Honest cfg images k' := by
  obtain ⟨hp, rfl⟩ := Desk.receive_some hs
  refine ⟨h.images_eq, h.sub, h.fresh, ?_, h.carried⟩
  have hacc := h.account
  rw [hp] at hacc
  rcases SyncTask.onRemote_cases k.controls cfg.ownId cfg.maxText k.sync msg with heq | ⟨clip, heq, -⟩
  · rw [heq, hp]
    exact hacc
  · rw [heq]
    exact hacc

theorem finishRemote (h : Honest cfg images k) (hs : k.finishRemote sha256 = some k') : Honest cfg images k' := by
  obtain ⟨clip, hp, rfl⟩ := Desk.finishRemote_some hs
  refine ⟨h.images_eq, h.sub, h.fresh, ?_, h.carried⟩
  have hacc := h.account
  rw [hp] at hacc
  unfold SyncTask.applyRemote
  split <;> exact hacc

/-- Every broadcast stands for a clip forwarded of its own. -/
theorem broadcasts_sublist (h : Honest cfg images k) : k.broadcasts <+ k.forwarded := by
  have hmap : k.broadcasts <+ k.outcomes.map Prod.fst := by
    unfold Desk.broadcasts
    generalize k.outcomes = outcomes
    induction outcomes with
    | nil => exact List.Sublist.refl _
    | cons p rest ih =>
      obtain ⟨clip, out⟩ := p
      cases out with
      | skipped why => simpa using ih.cons clip
      | broadcast msg => simpa using ih
      | blob png => simpa using ih
  rw [← h.account, List.append_assoc]
  exact hmap.trans (List.sublist_append_left ..)

end Honest

/-! ### The net -/

variable {ι : Type} [DecidableEq ι] {sha256 : Bytes → Digest} {cfg : ι → ClipConfig} {images : ι → Bool}
  {n n' : ClipNet ι}

private theorem honest_setDesk (h : ∀ d, Honest (cfg d) (images d) (n.desk d)) {d : ι} {k : Desk}
    (hk : Honest (cfg d) (images d) k) (i : ι) : Honest (cfg i) (images i) ((n.setDesk d k).desk i) := by
  by_cases hi : i = d
  · subst hi
    simpa using hk
  · simpa [hi] using h i

private theorem honest_step {e : ClipEvent ι} (h : ∀ d, Honest (cfg d) (images d) (n.desk d))
    (hs : n.step sha256 cfg e = some n') : ∀ d, Honest (cfg d) (images d) (n'.desk d) := by
  have hmap {d : ι} {o : Option Desk} (hk : ∀ k, o = some k → Honest (cfg d) (images d) k)
      (ho : o.map (n.setDesk d) = some n') : ∀ i, Honest (cfg i) (images i) (n'.desk i) := by
    obtain ⟨k, hk', rfl⟩ := Option.map_eq_some_iff.1 ho
    exact honest_setDesk h (hk k hk')
  unfold ClipNet.step at hs
  cases e with
  | tick ms => cases hs; exact h
  | pause d on =>
    cases hs
    exact honest_setDesk h ⟨(h d).images_eq, (h d).sub, (h d).fresh, (h d).account, (h d).carried⟩
  | copy d c token => cases hs; exact honest_setDesk h ((h d).copy c token)
  | command d cmd =>
    cases hs
    exact honest_setDesk h ⟨(h d).images_eq, (h d).sub, (h d).fresh, (h d).account, (h d).carried⟩
  | take d res => exact hmap (fun k hk => (h d).take hk) hs
  | settle d => exact hmap (fun k hk => (h d).settle hk) hs
  | poll d => exact hmap (fun k hk => (h d).poll hk) hs
  | forward d => exact hmap (fun k hk => (h d).forward hk) hs
  | takeLocal d => exact hmap (fun k hk => (h d).takeLocal hk) hs
  | finishLocal d reached =>
    obtain ⟨out, ho, rfl⟩ := Option.map_eq_some_iff.1 hs
    rw [ClipNet.post_desk]
    exact honest_setDesk h ((h d).finishLocal ho)
  | receive d src =>
    dsimp only at hs
    split at hs
    · cases hs
    · rename_i msg msgs _
      obtain ⟨k, hk, rfl⟩ := Option.map_eq_some_iff.1 hs
      exact honest_setDesk (n := n.setWire src d msgs) h ((h d).receive hk)
  | finishRemote d => exact hmap (fun k hk => (h d).finishRemote hk) hs
  | blob d src =>
    dsimp only at hs
    split at hs
    · cases hs
    · rename_i png images' _
      cases hs
      exact honest_setDesk (n := n.setBlobs src d images') h
        ⟨(h d).images_eq, (h d).sub, (h d).fresh, (h d).account, (h d).carried⟩
  | lose src dst =>
    dsimp only at hs
    split at hs
    · cases hs
    · cases hs; exact h

/-- In every run of any number of daemons, with the image switches left alone: the clips a device's thread forwards
are, in order, those of different user copies on the same device; each broadcast of a device is of a forwarded clip
of its own and carries just that clip; so all the loops together start at most as many broadcasts as there were
copies. -/
theorem no_echo [Fintype ι] (sha256 : Bytes → Digest) (cfg : ι → ClipConfig) (controls : ι → Controls)
    (boards : ι → Board) (es : List (ClipEvent ι)) (n : ClipNet ι)
    (hr : Run (ClipNet.step sha256 cfg) Always (ClipNet.start cfg controls boards) es n) :
    (∀ d, (n.desk d).forwarded <+ (n.desk d).copied.filterMap (Content.clip (controls d).syncImages)) ∧
    (∀ d, (n.desk d).broadcasts <+ (n.desk d).forwarded) ∧
    (∀ d, ∀ p ∈ (n.desk d).outcomes, p.2.Carries (cfg d).ownId p.1) ∧
    ∑ d, (n.desk d).broadcasts.length ≤ ∑ d, (n.desk d).copied.length := by
  have h : ∀ d, Honest (cfg d) (controls d).syncImages (n.desk d) := by
    refine Run.invariant (I := fun n => ∀ d, Honest (cfg d) (controls d).syncImages (n.desk d)) hr ?_ ?_
    · intro d
      exact Honest.start 0 (boards d) rfl
    · intro s e t hs _ hstep
      exact honest_step hs hstep
  have hfwd : ∀ d, (n.desk d).forwarded <+ (n.desk d).copied.filterMap (Content.clip (controls d).syncImages) :=
    fun d => (List.sublist_append_left ..).trans (h d).sub
  refine ⟨hfwd, fun d => (h d).broadcasts_sublist, fun d => (h d).carried, ?_⟩
  refine Finset.sum_le_sum fun d _ => ?_
  calc (n.desk d).broadcasts.length
      ≤ (n.desk d).forwarded.length := (h d).broadcasts_sublist.length_le
    _ ≤ ((n.desk d).copied.filterMap (Content.clip (controls d).syncImages)).length := (hfwd d).length_le
    _ ≤ (n.desk d).copied.length := List.length_filterMap_le ..

/-- Two devices; the first one's user copies "hi". -/
private def deviceOf (d : Bool) : ClipConfig := ⟨if d then "b" else "a", .macos, 1024⟩

private def copyHi : List (ClipEvent Bool) :=
  [.copy false (.ofText "hi") 2, .poll false, .forward false, .takeLocal false, .finishLocal false (fun _ => true),
    .receive true false, .finishRemote true, .take true (.done 7 []), .settle true, .poll true]

/-- The copy is broadcast once, and the device that applies it broadcasts nothing. -/
theorem no_echo_copy_hi :
    ∃ n, Run (ClipNet.step (fun _ => Vector.replicate 32 0) deviceOf) Always
        (ClipNet.start deviceOf (fun _ => ⟨false, true⟩) fun _ => ⟨.ofText "", 1⟩) copyHi n ∧
      (n.desk true).board.content = .ofText "hi" ∧ (n.desk false).broadcasts = [.text "hi"] ∧
      ∑ d, (n.desk d).broadcasts.length ≤ 1 := by
  obtain ⟨n, hr, hv⟩ := run_of_exec_view (ClipNet.step (fun _ => Vector.replicate 32 0) deviceOf) (fun _ => True)
    (ClipNet.start deviceOf (fun _ => ⟨false, true⟩) fun _ => ⟨.ofText "", 1⟩) copyHi
    (fun n => ((n.desk true).board.content, (n.desk false).broadcasts, (n.desk false).copied.length,
      (n.desk true).copied.length)) (.ofText "hi", [.text "hi"], 1, 0) (fun _ _ => trivial) (by decide +kernel)
  simp only [Prod.mk.injEq] at hv
  obtain ⟨hboard, hsent, hca, hcb⟩ := hv
  have hle := (no_echo _ deviceOf _ _ copyHi n hr).2.2.2
  have hcopies : ∑ d, (n.desk d).copied.length = 1 := by rw [Fintype.sum_bool, hca, hcb]
  exact ⟨n, hr, hboard, hsent, hcopies ▸ hle⟩

end Qdrop
