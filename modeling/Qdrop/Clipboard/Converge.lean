import Qdrop.Clipboard.Follow

/-!
# Do the clipboards agree?

Every copy passes the token, the `suppress` hash, the rate limit and the `lastSynced` hash, and nothing sends a
discarded value later.  With one copying device the last copy wins unless the rate limit drops it
(`last_copy_wins`, `rate_limit_drops_last_copy`).  With several the loops have no order on copies: two that cross on
the wire are swapped (`crossing_copies_swap`), and the clipboards agree if the devices take turns
(`clipboards_agree`).
-/

namespace Qdrop

open Lib

variable {ι : Type}

/-- The texts copied in a run. -/
def copiedTexts (es : List (ClipEvent ι)) : List String :=
  es.filterMap fun
    | .copy _ c _ => c.text
    | _ => none

/-- No two of the texts have the same hash. -/
def CollisionFree (sha256 : Bytes → Digest) (ts : List String) : Prop :=
  ∀ t ∈ ts, ∀ u ∈ ts, sha256 (asBytes t) = sha256 (asBytes u) → t = u

instance (sha256 : Bytes → Digest) (ts : List String) : Decidable (CollisionFree sha256 ts) :=
  inferInstanceAs (Decidable (∀ t ∈ ts, ∀ u ∈ ts, _ → _))

/-- Everything copied is polled and processed, and everything received is applied. -/
structure Desk.Idle (k : Desk) : Prop where
  polled : k.thread.lastToken = some k.board.token
  waiting : k.thread.phase = .waiting
  cmds : k.cmds = []
  changes : k.changes = []
  selecting : k.sync.phase = .selecting

instance (k : Desk) : Decidable k.Idle :=
  decidable_of_iff (k.thread.lastToken = some k.board.token ∧ k.thread.phase = .waiting ∧ k.cmds = [] ∧
      k.changes = [] ∧ k.sync.phase = .selecting)
    ⟨fun h => ⟨h.1, h.2.1, h.2.2.1, h.2.2.2.1, h.2.2.2.2⟩,
      fun h => ⟨h.polled, h.waiting, h.cmds, h.changes, h.selecting⟩⟩

private theorem Desk.Idle.pipeline {k : Desk} (h : k.Idle) : k.pipeline = [] := by
  simp [Desk.pipeline, h.changes, h.waiting, h.selecting, SyncPhase.pending, ThreadPhase.pending]

/-- What arrives at an idle device with nothing on the wire is what its clipboard holds. -/
private theorem arriving_idle {n : ClipNet ι} {w o : ι} (h : (n.desk o).Idle) (hw : n.wire w o = []) :
    n.arriving w o = (n.desk o).board.content := by
  simp [ClipNet.arriving, hw, Desk.recorded, h.selecting, Desk.commanded, h.cmds]

/-! ### One device copies -/

/-- Texts are copied on `D` only, each after the one before was polled; `D` and `E` stay connected and unpaused, and
nobody uses their control sockets. -/
def SoleCopies (cfg : ι → ClipConfig) (D E : ι) (n : ClipNet ι) : ClipEvent ι → Prop
  | .copy d c token => d = D ∧ c = .ofText (c.text.getD "") ∧ c.text.getD "" ≠ "" ∧
      (c.text.getD "").utf8ByteSize ≤ (cfg D).maxText ∧ (c.text.getD "").utf8ByteSize ≤ (cfg E).maxText ∧
      (n.desk D).thread.lastToken = some (n.desk D).board.token ∧ token ≠ (n.desk D).board.token
  | .pause d on => d = D ∨ d = E → on = false
  | .command d _ => d ≠ D ∧ d ≠ E
  | .take d res => d = E → res ≠ .failed
  | .finishLocal d reached => d = D → reached E = true
  | .lose src dst => src = D → dst ≠ E
  | .tick _ | .settle _ | .poll _ | .forward _ | .takeLocal _ | .receive .. | .finishRemote _ | .blob .. => True

instance [DecidableEq ι] (cfg : ι → ClipConfig) (D E : ι) (n : ClipNet ι) : ∀ e, Decidable (SoleCopies cfg D E n e)
  | .copy .. => inferInstanceAs (Decidable (_ ∧ _ ∧ _ ≠ _ ∧ _ ∧ _ ∧ _ ∧ _ ≠ _))
  | .pause .. | .take .. | .finishLocal .. | .lose .. => inferInstanceAs (Decidable (_ → _))
  | .command .. => inferInstanceAs (Decidable (_ ≠ _ ∧ _ ≠ _))
  | .tick _ | .settle _ | .poll _ | .forward _ | .takeLocal _ | .receive .. | .finishRemote _ | .blob .. =>
    inferInstanceAs (Decidable True)

private theorem sole_kept {cfg : ι → ClipConfig} {D E : ι} {n : ClipNet ι} {e : ClipEvent ι}
    (h : SoleCopies cfg D E n e) (hcopy : ∀ d c token, e ≠ .copy d c token) : Kept true {D, E} D n e := by
  cases e with
  | copy d c token => exact absurd rfl (hcopy d c token)
  | pause d on => exact h
  | command d cmd =>
    rintro (rfl | rfl)
    · exact h.1 rfl
    · exact h.2 rfl
  | take d res =>
    intro hS hd
    exact h (hS.resolve_left hd)
  | takeLocal d => exact Or.inl rfl
  | finishLocal d reached =>
    intro hd o hS ho
    obtain rfl : o = E := hS.resolve_left ho
    exact h hd
  | lose src dst =>
    intro hsrc hdst hS
    exact h hsrc (hS.resolve_left hdst)
  | tick ms => trivial
  | settle d => trivial
  | poll d => trivial
  | forward d => trivial
  | receive d src => trivial
  | finishRemote d => trivial
  | blob d src => trivial

/-- The texts of a run that all devices of `S` accept. -/
private def Copyable (cfg : ι → ClipConfig) (S : Set ι) (es : List (ClipEvent ι)) (t : String) : Prop :=
  t ∈ copiedTexts es ∧ t ≠ "" ∧ ∀ d ∈ S, t.utf8ByteSize ≤ (cfg d).maxText

private theorem Copyable.inj {cfg : ι → ClipConfig} {S : Set ι} {es : List (ClipEvent ι)} {sha256 : Bytes → Digest}
    (h : CollisionFree sha256 (copiedTexts es)) (t u : String) (ht : Copyable cfg S es t) (hu : Copyable cfg S es u)
    (he : sha256 (asBytes t) = sha256 (asBytes u)) : t = u :=
  h t ht.1 u hu.1 he

variable [DecidableEq ι]

private theorem sole_step {sha256 : Bytes → Digest} {cfg : ι → ClipConfig} {D E : ι} {es : List (ClipEvent ι)}
    {n n' : ClipNet ι} {e : ClipEvent ι} (hids : (cfg D).ownId ≠ (cfg E).ownId)
    (hinj : CollisionFree sha256 (copiedTexts es)) (h : Led sha256 cfg (Copyable cfg {D, E} es) true {D, E} D n)
    (hok : SoleCopies cfg D E n e) (hmem : e ∈ es) (hs : n.step sha256 cfg e = some n') :
    Led sha256 cfg (Copyable cfg {D, E} es) true {D, E} D n' := by
  by_cases hcopy : ∃ d c token, e = .copy d c token
  · obtain ⟨d, c, token, rfl⟩ := hcopy
    cases hs
    obtain ⟨rfl, hc, hne, hD, hE, hpolled, htok⟩ := hok
    have ht : Copyable cfg {d, E} es (c.text.getD "") := by
      refine ⟨List.mem_filterMap.2 ⟨_, hmem, by rw [hc]; rfl⟩, hne, ?_⟩
      rintro i (rfl | rfl)
      · exact hD
      · exact hE
    have hled := h.copy ht hpolled htok (fun hsup => by rw [h.leading.unsuppressed rfl] at hsup; cases hsup)
    rwa [← hc] at hled
  · refine h.keep (fun t ht => ht.2.1) (fun t ht => ht.2.2) (Copyable.inj hinj) ?_ ?_ hs
    · intro d hS hd
      obtain rfl : d = E := hS.resolve_left hd
      exact hids
    · exact sole_kept hok (fun d c token he => hcopy ⟨d, c, token, he⟩)

/-- If only `D` copies, `E` is connected to it throughout and no change of `D` is on its way any more, then `E` holds
what `D` holds, provided the last change that reached `D`'s sync loop was not dropped for its rate. -/
theorem last_copy_wins (sha256 : Bytes → Digest) (cfg : ι → ClipConfig) (controls : ι → Controls)
    (boards : ι → Board) (D E : ι) (es : List (ClipEvent ι)) (n : ClipNet ι) (hDE : D ≠ E)
    (hids : (cfg D).ownId ≠ (cfg E).ownId) (hinj : CollisionFree sha256 (copiedTexts es))
    (hunpaused : ∀ d, d = D ∨ d = E → (controls d).clipboardPaused = false)
    (hr : Run (ClipNet.step sha256 cfg) (SoleCopies cfg D E) (ClipNet.start cfg controls boards) es n)
    (hcopied : (n.desk D).copied ≠ [])
    (hrate : (n.desk D).outcomes.getLast?.map Prod.snd ≠ some (.skipped .rateLimited))
    (hD : (n.desk D).Idle) (hE : (n.desk E).Idle) (hwire : n.wire D E = []) :
    (n.desk E).board.content = (n.desk D).board.content := by
  have hled : Led sha256 cfg (Copyable cfg {D, E} es) true {D, E} D n := by
    refine hr.mem.invariant ?_ ?_
    · exact Led.start sha256 cfg _ (Or.inl rfl) hunpaused (Or.inl rfl)
    · rintro s e t hs ⟨hok, hmem⟩ hstep
      exact sole_step hids hinj hs hok hmem hstep
  have hdue := hled.leading.due hD.polled
  unfold Desk.Due at hdue
  rw [hD.pipeline] at hdue
  obtain ⟨t, -, hlast⟩ | ⟨-, ⟨-, hnone | ⟨clip, hlast⟩⟩ | hall⟩ := hdue
  · cases hlast
  · exact absurd hnone hcopied
  · exact absurd (by rw [hlast]; rfl) hrate
  · rw [← arriving_idle hE hwire]
    exact hall E (Or.inr rfl) hDE.symm

/-- A hash without collisions on texts of one letter. -/
private def letterHash (b : Bytes) : Digest := Vector.replicate 32 (b.headD 0)

/-- Two devices that accept texts of up to 1 KiB. -/
private def desks (d : Bool) : ClipConfig := ⟨if d then "b" else "a", .macos, 1024⟩

/-- Each step of the clip of a copy up to the broadcast. -/
private def copyAndSend (d : Bool) (t : String) (token : Int) : List (ClipEvent Bool) :=
  [.copy d (.ofText t) token, .poll d, .forward d, .takeLocal d, .finishLocal d fun _ => true]

/-- The other device takes the frame and applies it. -/
private def receiveAndApply (d : Bool) (token : Int) : List (ClipEvent Bool) :=
  [.receive d (!d), .finishRemote d, .take d (.done token []), .settle d]

private def emptyStart : ClipNet Bool :=
  ClipNet.start desks (fun _ => ⟨false, true⟩) fun _ => ⟨.ofText "", 0⟩

/-- Two copies, 400 ms apart. -/
private def spacedCopies : List (ClipEvent Bool) :=
  copyAndSend false "x" 1 ++ [.tick 400] ++ copyAndSend false "y" 2 ++ receiveAndApply true 1 ++ receiveAndApply true 2

theorem last_copy_wins_spaced :
    ∃ n, Run (ClipNet.step letterHash desks) (SoleCopies desks false true) emptyStart spacedCopies n ∧
      (n.desk false).board.content = .ofText "y" ∧ (n.desk true).board.content = (n.desk false).board.content := by
  obtain ⟨n, hr, hv⟩ := run_of_exec_checked (ClipNet.step letterHash desks) (SoleCopies desks false true) emptyStart
    spacedCopies
    (fun n => decide ((n.desk false).board.content = .ofText "y" ∧ (n.desk false).copied ≠ [] ∧
      (n.desk false).outcomes.getLast?.map Prod.snd ≠ some (.skipped .rateLimited) ∧ (n.desk false).Idle ∧
      (n.desk true).Idle ∧ n.wire false true = [])) true (by decide +kernel)
  obtain ⟨hy, hcopied, hrate, hD, hE, hwire⟩ := of_decide_eq_true hv
  exact ⟨n, hr, hy, last_copy_wins letterHash desks _ _ false true spacedCopies n (by decide) (by decide)
    (by decide +kernel) (fun _ _ => rfl) hr hcopied hrate hD hE hwire⟩

/-- A copy seen 250 ms after the one before is dropped, and nothing sends it later. -/
private def hastyCopies : List (ClipEvent Bool) :=
  copyAndSend false "x" 1 ++ [.tick 250, .copy false (.ofText "y") 2, .poll false, .forward false, .takeLocal false] ++
    receiveAndApply true 1

/-- Without the condition on the rate the last copy can be lost. -/
theorem rate_limit_drops_last_copy :
    ¬ ∀ (sha256 : Bytes → Digest) (cfg : Bool → ClipConfig) (controls : Bool → Controls) (boards : Bool → Board)
      (D E : Bool) (es : List (ClipEvent Bool)) (n : ClipNet Bool), D ≠ E → (cfg D).ownId ≠ (cfg E).ownId →
      CollisionFree sha256 (copiedTexts es) → (∀ d, d = D ∨ d = E → (controls d).clipboardPaused = false) →
      Run (ClipNet.step sha256 cfg) (SoleCopies cfg D E) (ClipNet.start cfg controls boards) es n →
      (n.desk D).copied ≠ [] → (n.desk D).Idle → (n.desk E).Idle → n.wire D E = [] →
      (n.desk E).board.content = (n.desk D).board.content := by
  intro h
  obtain ⟨n, hr, hv⟩ := run_of_exec_checked (ClipNet.step letterHash desks) (SoleCopies desks false true) emptyStart
    hastyCopies
    (fun n => decide ((n.desk false).copied ≠ [] ∧ (n.desk false).Idle ∧ (n.desk true).Idle ∧ n.wire false true = [] ∧
      (n.desk true).board.content ≠ (n.desk false).board.content)) true (by decide +kernel)
  obtain ⟨hcopied, hD, hE, hwire, hne⟩ := of_decide_eq_true hv
  exact hne (h letterHash desks _ _ false true hastyCopies n (by decide) (by decide) (by decide +kernel)
    (fun _ _ => rfl) hr hcopied hD hE hwire)

/-! ### Several devices copy -/

/-- Texts are copied on any device, each after the one before on the same device was polled, no change comes too
soon after the one before, and the devices stay connected and unpaused. -/
def TextCopies (cfg : ι → ClipConfig) (n : ClipNet ι) : ClipEvent ι → Prop
  | .copy d c token => c = .ofText (c.text.getD "") ∧ c.text.getD "" ≠ "" ∧
      (∀ i, (c.text.getD "").utf8ByteSize ≤ (cfg i).maxText) ∧
      (n.desk d).thread.lastToken = some (n.desk d).board.token ∧ token ≠ (n.desk d).board.token
  | .pause _ on => on = false
  | .take _ res => res ≠ .failed
  | .takeLocal d => minGap ≤ n.now - (n.desk d).sync.lastBroadcast
  | .finishLocal d reached => ∀ o, o ≠ d → reached o = true
  | .command .. | .lose .. => False
  | .tick _ | .settle _ | .poll _ | .forward _ | .receive .. | .finishRemote _ | .blob .. => True

/-- A copy is made when everything copied on the other devices is applied everywhere it was sent to, and its text is
not the one whose hash the thread still suppresses (unless the clipboard holds that text already). -/
def InTurn (sha256 : Bytes → Digest) (n : ClipNet ι) : ClipEvent ι → Prop
  | .copy d c _ => Turn n d ∧
      ((n.desk d).thread.suppress = some (sha256 (asBytes (c.text.getD ""))) → (n.desk d).board.content = c)
  | .tick _ | .pause .. | .command .. | .take .. | .settle _ | .poll _ | .forward _ | .takeLocal _ | .finishLocal ..
  | .receive .. | .finishRemote _ | .blob .. | .lose .. => True

instance [Fintype ι] (cfg : ι → ClipConfig) (n : ClipNet ι) : ∀ e, Decidable (TextCopies cfg n e)
  | .copy .. => inferInstanceAs (Decidable (_ ∧ _ ≠ _ ∧ (∀ _, _) ∧ _ ∧ _ ≠ _))
  | .pause _ on => inferInstanceAs (Decidable (on = false))
  | .take _ res => inferInstanceAs (Decidable (res ≠ .failed))
  | .takeLocal d => inferInstanceAs (Decidable (minGap ≤ n.now - (n.desk d).sync.lastBroadcast))
  | .finishLocal d reached => inferInstanceAs (Decidable (∀ o, o ≠ d → reached o = true))
  | .command .. | .lose .. => inferInstanceAs (Decidable False)
  | .tick _ | .settle _ | .poll _ | .forward _ | .receive .. | .finishRemote _ | .blob .. =>
    inferInstanceAs (Decidable True)

instance [Fintype ι] (sha256 : Bytes → Digest) (n : ClipNet ι) : ∀ e, Decidable (InTurn sha256 n e)
  | .copy .. => inferInstanceAs (Decidable (_ ∧ (_ → _)))
  | .tick _ | .pause .. | .command .. | .take .. | .settle _ | .poll _ | .forward _ | .takeLocal _ | .finishLocal ..
  | .receive .. | .finishRemote _ | .blob .. | .lose .. => inferInstanceAs (Decidable True)

omit [DecidableEq ι] in
private theorem textCopies_kept {cfg : ι → ClipConfig} {n : ClipNet ι} {e : ClipEvent ι} (w : ι)
    (h : TextCopies cfg n e) (hcopy : ∀ d c token, e ≠ .copy d c token) : Kept false Set.univ w n e := by
  cases e with
  | copy d c token => exact absurd rfl (hcopy d c token)
  | pause d on => exact fun _ => h
  | command d cmd => exact h.elim
  | take d res => exact fun _ _ => h
  | takeLocal d => exact Or.inr h
  | finishLocal d reached =>
    rintro rfl o _ ho
    exact h o ho
  | lose src dst => exact h.elim
  | tick ms => trivial
  | settle d => trivial
  | poll d => trivial
  | forward d => trivial
  | receive d src => trivial
  | finishRemote d => trivial
  | blob d src => trivial

private theorem turns_step {sha256 : Bytes → Digest} {cfg : ι → ClipConfig} {es : List (ClipEvent ι)}
    {n n' : ClipNet ι} {e : ClipEvent ι} (hids : ∀ i j, i ≠ j → (cfg i).ownId ≠ (cfg j).ownId)
    (hinj : CollisionFree sha256 (copiedTexts es))
    (h : ∃ w, Led sha256 cfg (Copyable cfg Set.univ es) false Set.univ w n) (hok : TextCopies cfg n e)
    (hturn : InTurn sha256 n e) (hmem : e ∈ es) (hs : n.step sha256 cfg e = some n') :
    ∃ w, Led sha256 cfg (Copyable cfg Set.univ es) false Set.univ w n' := by
  obtain ⟨w, h⟩ := h
  by_cases hcopy : ∃ d c token, e = .copy d c token
  · obtain ⟨d, c, token, rfl⟩ := hcopy
    cases hs
    obtain ⟨hc, hne, hlen, hpolled, htok⟩ := hok
    obtain ⟨hturn, hsup⟩ := hturn
    have ht : Copyable cfg Set.univ es (c.text.getD "") :=
      ⟨List.mem_filterMap.2 ⟨_, hmem, by rw [hc]; rfl⟩, hne, fun i _ => hlen i⟩
    refine ⟨d, ?_⟩
    rw [hc] at hsup ⊢
    by_cases hd : d = w
    · subst hd
      exact h.copy ht hpolled htok (fun hs => ⟨rfl, hsup hs⟩)
    · exact h.pass hd hturn ht hpolled htok hsup
  · refine ⟨w, h.keep (fun t ht => ht.2.1) (fun t ht => ht.2.2) (Copyable.inj hinj) ?_ ?_ hs⟩
    · intro d _ hd
      exact hids w d hd.symm
    · exact textCopies_kept w hok (fun d c token he => hcopy ⟨d, c, token, he⟩)

/-- Daemons with equal clipboards at the start, whose users take turns, hold the same content in every state where
all copies are polled and all frames are delivered and applied. -/
theorem clipboards_agree (sha256 : Bytes → Digest) (cfg : ι → ClipConfig) (controls : ι → Controls)
    (boards : ι → Board) (es : List (ClipEvent ι)) (n : ClipNet ι)
    (hids : ∀ i j, i ≠ j → (cfg i).ownId ≠ (cfg j).ownId) (hinj : CollisionFree sha256 (copiedTexts es))
    (hunpaused : ∀ d, (controls d).clipboardPaused = false)
    (hsame : ∀ i j, (boards i).content = (boards j).content)
    (hr : Run (ClipNet.step sha256 cfg) (fun n e => TextCopies cfg n e ∧ InTurn sha256 n e)
      (ClipNet.start cfg controls boards) es n)
    (hidle : ∀ d, (n.desk d).Idle) (hwire : ∀ i j, n.wire i j = []) (i j : ι) :
    (n.desk i).board.content = (n.desk j).board.content := by
  obtain ⟨w, hled⟩ : ∃ w, Led sha256 cfg (Copyable cfg Set.univ es) false Set.univ w n := by
    refine hr.mem.invariant (I := fun n => ∃ w, Led sha256 cfg (Copyable cfg Set.univ es) false Set.univ w n) ?_ ?_
    · exact ⟨i, Led.start sha256 cfg _ (Set.mem_univ i) (fun d _ => hunpaused d) (Or.inr fun o _ _ => hsame o i)⟩
    · rintro s e t hs ⟨⟨hok, hturn⟩, hmem⟩ hstep
      exact turns_step hids hinj hs hok hturn hmem hstep
  have hall : ∀ o, (n.desk o).board.content = (n.desk w).board.content := by
    intro o
    by_cases ho : o = w
    · rw [ho]
    · have hdue := hled.leading.due (hidle w).polled
      unfold Desk.Due at hdue
      rw [(hidle w).pipeline] at hdue
      have hall : ∀ o ∈ Set.univ, o ≠ w → n.arriving w o = (n.desk w).board.content := by simpa using hdue
      rw [← arriving_idle (hidle o) (hwire w o)]
      exact hall o (Set.mem_univ o) ho
  rw [hall i, hall j]

/-- One device copies, then the other. -/
private def alternate : List (ClipEvent Bool) :=
  copyAndSend false "x" 1 ++ receiveAndApply true 1 ++ copyAndSend true "y" 2 ++ receiveAndApply false 2

theorem clipboards_agree_alternate :
    ∃ n, Run (ClipNet.step letterHash desks) (fun n e => TextCopies desks n e ∧ InTurn letterHash n e) emptyStart
        alternate n ∧
      (n.desk true).board.content = .ofText "y" ∧ (n.desk false).board.content = (n.desk true).board.content := by
  obtain ⟨n, hr, hv⟩ := run_of_exec_checked (ClipNet.step letterHash desks)
    (fun n e => TextCopies desks n e ∧ InTurn letterHash n e) emptyStart alternate
    (fun n => decide ((n.desk true).board.content = .ofText "y" ∧ (∀ d, (n.desk d).Idle) ∧ ∀ i j, n.wire i j = []))
    true (by decide +kernel)
  obtain ⟨hy, hidle, hwire⟩ := of_decide_eq_true hv
  exact ⟨n, hr, hy, clipboards_agree letterHash desks _ _ alternate n (by decide) (by decide +kernel) (fun _ => rfl)
    (fun _ _ => rfl) hr hidle hwire false true⟩

/-- Both users copy before either device has applied the other's text. -/
private def crossingCopies : List (ClipEvent Bool) :=
  copyAndSend false "x" 1 ++ copyAndSend true "y" 1 ++ receiveAndApply true 2 ++ receiveAndApply false 2

/-- Two copies that cross on the wire are swapped: each device ends with the other one's text. -/
theorem crossing_copies_swap :
    ¬ ∀ (sha256 : Bytes → Digest) (cfg : Bool → ClipConfig) (controls : Bool → Controls) (boards : Bool → Board)
      (es : List (ClipEvent Bool)) (n : ClipNet Bool), (∀ i j, i ≠ j → (cfg i).ownId ≠ (cfg j).ownId) →
      CollisionFree sha256 (copiedTexts es) → (∀ d, (controls d).clipboardPaused = false) →
      (∀ i j, (boards i).content = (boards j).content) →
      Run (ClipNet.step sha256 cfg) (TextCopies cfg) (ClipNet.start cfg controls boards) es n →
      (∀ d, (n.desk d).Idle) → (∀ i j, n.wire i j = []) →
      (n.desk false).board.content = (n.desk true).board.content := by
  intro h
  obtain ⟨n, hr, hv⟩ := run_of_exec_checked (ClipNet.step letterHash desks) (TextCopies desks) emptyStart crossingCopies
    (fun n => decide ((n.desk false).board.content = .ofText "y" ∧ (n.desk true).board.content = .ofText "x" ∧
      (∀ d, (n.desk d).Idle) ∧ ∀ i j, n.wire i j = [])) true (by decide +kernel)
  obtain ⟨hy, hx, hidle, hwire⟩ := of_decide_eq_true hv
  have heq := h letterHash desks _ _ crossingCopies n (by decide) (by decide +kernel) (fun _ => rfl) (fun _ _ => rfl) hr
    hidle hwire
  rw [hx, hy] at heq
  exact absurd heq (by decide)

end Qdrop
