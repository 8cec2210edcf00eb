import Mathlib.Data.Fintype.Basic
import Mathlib.Data.Set.Function
import Qdrop.Clipboard.Echo

/-!
# One device leads, the others follow

While only one device has copies on their way, it leads: its clips move through the thread and the sync loop to the
wires, and every other device only applies what arrives.  What a follower's clipboard will hold when everything on
its way is applied is `arriving`; the leader's pipeline ends in what its own clipboard holds, or it is empty and every
follower's `arriving` is that content.  The lead passes to another device at a copy there, if the old leader's last
copy has arrived everywhere.
-/

namespace Qdrop

open Lib

/-! ### What a device will hold -/

/-- The clipboard after a command. -/
def Content.after (c : Content) : ClipCommand → Content
  | .applyText t => .ofText t
  | .applyImage png => .ofImage png
  | .getText => c

/-- The clipboard after a frame, if its text is applied. -/
def Content.afterFrame (c : Content) : Message → Content
  | .clipboard _ _ entries => match entries.findSome? ClipEntry.asText with
    | some t => .ofText t
    | none => c
  | _ => c

namespace Desk

/-- The clips on their way to a broadcast, oldest first. -/
def pipeline (k : Desk) : List LocalClip := k.sync.phase.pending ++ k.changes ++ k.thread.phase.pending

/-- The clipboard when the commands are applied. -/
def commanded (k : Desk) : Content := k.cmds.foldl Content.after k.board.content

/-- The clipboard when also the content in the sync loop is applied. -/
def recorded (k : Desk) : Content :=
  match k.sync.phase with
  | .recordingRemote clip => k.commanded.after clip.command
  | .selecting | .recordingLocal _ => k.commanded

/-- The thread knows the token of the clipboard, or is about to read it. -/
def Polled (k : Desk) : Prop := k.thread.phase = .applied ∨ k.thread.lastToken = some k.board.token

instance (k : Desk) : Decidable k.Polled :=
  inferInstanceAs (Decidable (k.thread.phase = .applied ∨ k.thread.lastToken = some k.board.token))

/-- Nothing copied on this device is on its way. -/
structure Quiet (k : Desk) : Prop where
  polled : k.Polled
  empty : k.pipeline = []

instance (k : Desk) : Decidable k.Quiet :=
  decidable_of_iff (k.Polled ∧ k.pipeline = []) ⟨fun h => ⟨h.1, h.2⟩, fun h => ⟨h.polled, h.empty⟩⟩

namespace Quiet

variable {sha256 : Bytes → Digest} {cfg : ClipConfig} {k k' : Desk}

theorem phases (h : Quiet k) : k.sync.phase.pending = [] ∧ k.changes = [] ∧ k.thread.phase.pending = [] := by
  simpa [pipeline, and_assoc] using h.empty

theorem take {res : SetResult} (h : Quiet k) (hs : k.take sha256 res = some k') : Quiet k' := by
  obtain ⟨hsync, hch, -⟩ := h.phases
  obtain ⟨cmd, cmds, hp, -, rfl⟩ := take_some hs
  cases cmd with
  | applyText t => exact ⟨Or.inl rfl, by simp [pipeline, hsync, hch, ClipThread.onCommand, ThreadPhase.pending]⟩
  | applyImage png => exact ⟨Or.inl rfl, by simp [pipeline, hsync, hch, ClipThread.onCommand, ThreadPhase.pending]⟩
  | getText => exact ⟨h.polled, h.empty⟩

theorem settle (h : Quiet k) (hs : k.settle cfg = some k') : Quiet k' := by
  obtain ⟨hsync, hch, -⟩ := h.phases
  obtain ⟨-, rfl⟩ := settle_some hs
  exact ⟨Or.inr rfl, by simp [pipeline, hsync, hch, ThreadPhase.pending]⟩

/-- A poll of a quiet desk finds the token it knows. -/
theorem poll (h : Quiet k) (hs : k.poll sha256 cfg = some k') : k' = k := by
  obtain ⟨hp, rfl⟩ := poll_some hs
  have htok : k.thread.lastToken = some k.board.token := by
    rcases h.polled with ha | htok
    · rw [hp] at ha
      cases ha
    · exact htok
  rcases k.thread.poll_cases sha256 cfg.os k.controls.syncImages k.board with
    ⟨-, heq⟩ | ⟨hne, -⟩ | ⟨clip, hne, -⟩ | ⟨clip, hne, -⟩
  · rw [heq]
  · exact absurd htok hne
  · exact absurd htok hne
  · exact absurd htok hne

theorem forward (h : Quiet k) : k.forward ≠ some k' := by
  intro hs
  obtain ⟨clip, hp, -⟩ := forward_some hs
  have hth := h.phases.2.2
  rw [hp] at hth
  cases hth

theorem takeLocal {now : Int} (h : Quiet k) : k.takeLocal now ≠ some k' := by
  intro hs
  obtain ⟨clip, changes, -, hc, -⟩ := takeLocal_some hs
  have hch := h.phases.2.1
  rw [hc] at hch
  cases hch

theorem finishLocal {out : Desk × Outcome} (h : Quiet k) : k.finishLocal sha256 cfg ≠ some out := by
  intro hs
  obtain ⟨clip, hp, -⟩ := finishLocal_some hs
  have hsync := h.phases.1
  rw [hp] at hsync
  cases hsync

theorem receive {msg : Message} (h : Quiet k) (hs : k.receive cfg msg = some k') : Quiet k' := by
  obtain ⟨-, hch, hth⟩ := h.phases
  obtain ⟨hp, rfl⟩ := receive_some hs
  refine ⟨h.polled, ?_⟩
  rcases SyncTask.onRemote_cases k.controls cfg.ownId cfg.maxText k.sync msg with heq | ⟨clip, heq, -⟩
  · simp [pipeline, heq, hp, hch, hth, SyncPhase.pending]
  · simp [pipeline, heq, hch, hth, SyncPhase.pending]

theorem finishRemote (h : Quiet k) (hs : k.finishRemote sha256 = some k') : Quiet k' := by
  obtain ⟨-, hch, hth⟩ := h.phases
  obtain ⟨clip, hp, rfl⟩ := finishRemote_some hs
  refine ⟨h.polled, ?_⟩
  unfold SyncTask.applyRemote
  split <;> simp [pipeline, hch, hth, SyncPhase.pending]

end Quiet

/-! ### Followers -/

/-- A device that applies every text it is sent. -/
structure Tracking (sha256 : Bytes → Digest) (ok : String → Prop) (k : Desk) : Prop where
  unpaused : k.controls.clipboardPaused = false
  texts : ∀ cmd ∈ k.cmds, ∃ t, cmd = .applyText t
  recording : ∀ clip, k.sync.phase = .recordingRemote clip → ∃ t, ok t ∧ clip = .text t
  /-- `lastSynced` is the hash of what the clipboard will hold. -/
  synced : ∀ h, k.sync.lastSynced = some h → ∃ t, ok t ∧ h = sha256 (asBytes t) ∧ k.commanded = .ofText t

namespace Tracking

variable {sha256 : Bytes → Digest} {ok : String → Prop} {cfg : ClipConfig} {k k' : Desk}

theorem take {res : SetResult} (h : Tracking sha256 ok k) (hres : res ≠ .failed)
    (hs : k.take sha256 res = some k') : Tracking sha256 ok k' ∧ k'.recorded = k.recorded := by
  obtain ⟨cmd, cmds, -, hc, rfl⟩ := take_some hs
  obtain ⟨t, rfl⟩ := h.texts cmd (by simp [hc])
  cases res with
  | failed => exact absurd rfl hres
  | done token png =>
    have hcmd : ({ k with cmds := cmds, board := k.board.set (.done token png) (.applyText t),
                          thread := k.thread.onCommand sha256 (.applyText t) } : Desk).commanded = k.commanded := by
      simp [commanded, hc, Board.set, Content.after]
    refine ⟨⟨h.unpaused, ?_, h.recording, ?_⟩, ?_⟩
    · intro cmd hmem
      exact h.texts cmd (by rw [hc]; exact List.mem_cons_of_mem _ hmem)
    · rw [hcmd]
      exact h.synced
    · unfold recorded
      rw [hcmd]

theorem settle (h : Tracking sha256 ok k) (hs : k.settle cfg = some k') :
    Tracking sha256 ok k' ∧ k'.recorded = k.recorded := by
  obtain ⟨-, rfl⟩ := settle_some hs
  exact ⟨⟨h.unpaused, h.texts, h.recording, h.synced⟩, rfl⟩

theorem receive {origin : DeviceId} {seq : Nat} {t : String} (h : Tracking sha256 ok k) (ht : ok t)
    (hid : origin ≠ cfg.ownId) (hlen : t.utf8ByteSize ≤ cfg.maxText)
    (hs : k.receive cfg (.clipboard seq origin [ClipEntry.text t]) = some k') :
    Tracking sha256 ok k' ∧ k'.recorded = .ofText t := by
  obtain ⟨hp, rfl⟩ := receive_some hs
  rw [SyncTask.onRemote_text k.sync h.unpaused hid hlen]
  refine ⟨⟨h.unpaused, h.texts, ?_, h.synced⟩, rfl⟩
  intro clip hclip
  cases hclip
  exact ⟨t, ht, rfl⟩

/-- A text is skipped only if the clipboard will hold it anyway. -/
theorem finishRemote (hinj : ∀ t u, ok t → ok u → sha256 (asBytes t) = sha256 (asBytes u) → t = u)
    (h : Tracking sha256 ok k) (hs : k.finishRemote sha256 = some k') :
    Tracking sha256 ok k' ∧ k'.recorded = k.recorded := by
  obtain ⟨clip, hp, rfl⟩ := finishRemote_some hs
  obtain ⟨t, ht, rfl⟩ := h.recording clip hp
  have hrec : k.recorded = .ofText t := by simp [recorded, hp, LocalClip.command, Content.after]
  unfold SyncTask.applyRemote
  by_cases hdup : some (sha256 (LocalClip.text t).bytes) = k.sync.lastSynced
  · rw [if_pos hdup]
    obtain ⟨u, hu, hhash, hcmd⟩ := h.synced _ hdup.symm
    obtain rfl := hinj t u ht hu hhash
    refine ⟨⟨h.unpaused, by simpa using h.texts, by simp, by simpa [commanded] using h.synced⟩, ?_⟩
    rw [hrec, ← hcmd]
    simp [recorded, commanded]
  · rw [if_neg hdup]
    have hcmd : ({ k with
        sync := { k.sync with lastSynced := some (sha256 (LocalClip.text t).bytes), phase := .selecting },
        cmds := k.cmds ++ (some (LocalClip.text t).command).toList } : Desk).commanded = .ofText t := by
      simp [commanded, LocalClip.command, Content.after]
    refine ⟨⟨h.unpaused, ?_, by simp, ?_⟩, ?_⟩
    · intro cmd hmem
      rcases List.mem_append.1 hmem with hmem | hmem
      · exact h.texts cmd hmem
      · exact ⟨t, by simpa [LocalClip.command] using hmem⟩
    · intro d hd
      cases hd
      exact ⟨t, ht, rfl, hcmd⟩
    · rw [hrec, ← hcmd]
      rfl

end Tracking

/-! ### The leader -/

/-- The last change was dropped for its rate, or nothing was copied yet. -/
def Excused (k : Desk) : Prop :=
  k.copied = [] ∨ ∃ clip, k.outcomes.getLast? = some (clip, .skipped .rateLimited)

/-- The pipeline ends in what the clipboard holds, or it is empty and the content is `everywhere`.  A `lenient` account
also accepts an empty pipeline with an excuse. -/
def Due (lenient : Bool) (k : Desk) (everywhere : Content → Prop) : Prop :=
  (∃ t, k.board.content = .ofText t ∧ k.pipeline.getLast? = some (.text t)) ∨
  (k.pipeline = [] ∧ (lenient = true ∧ k.Excused ∨ everywhere k.board.content))

/-- A device whose copies are on their way; `everywhere c` says that every follower will hold `c`. -/
structure Leading (sha256 : Bytes → Digest) (ok : String → Prop) (lenient : Bool) (k : Desk)
    (everywhere : Content → Prop) : Prop where
  unpaused : k.controls.clipboardPaused = false
  unsuppressed : lenient = true → k.thread.suppress = none
  cmds : k.cmds = []
  notApplied : k.thread.phase ≠ .applied
  notRemote : ∀ clip, k.sync.phase ≠ .recordingRemote clip
  texts : ∀ clip ∈ k.pipeline, ∃ t, ok t ∧ clip = .text t
  synced : ∀ h, k.sync.lastSynced = some h → ∃ t, ok t ∧ h = sha256 (asBytes t) ∧ everywhere (.ofText t)
  due : k.thread.lastToken = some k.board.token → Due lenient k everywhere
  /-- A copy that no poll has seen yet will not be taken for an echo, unless it changes nothing. -/
  copied : k.thread.lastToken ≠ some k.board.token → ∃ t, ok t ∧ k.board.content = .ofText t ∧
    (k.thread.suppress ≠ some (sha256 (asBytes t)) ∨ lenient = false ∧ Due lenient k everywhere)

/-- Taking the oldest clip off the pipeline. -/
theorem Due.pop {lenient : Bool} {k k' : Desk} {everywhere everywhere' : Content → Prop} {t : String}
    (h : Due lenient k everywhere) (hpipe : k.pipeline = .text t :: k'.pipeline) (hboard : k'.board = k.board)
    (hend : k'.pipeline = [] → k.board.content = .ofText t →
      lenient = true ∧ k'.Excused ∨ everywhere' (.ofText t)) : Due lenient k' everywhere' := by
  unfold Due
  rw [hboard]
  obtain ⟨u, hu, hlast⟩ | ⟨hnil, -⟩ := h
  · rw [hpipe] at hlast
    by_cases hrest : k'.pipeline = []
    · rw [hrest] at hlast
      cases hlast
      exact Or.inr ⟨hrest, by rw [hu]; exact hend hrest hu⟩
    · rw [List.getLast?_cons_of_ne_nil hrest] at hlast
      exact Or.inl ⟨u, hu, hlast⟩
  · rw [hpipe] at hnil
    cases hnil

namespace Leading

variable {sha256 : Bytes → Digest} {ok : String → Prop} {lenient : Bool} {cfg : ClipConfig} {k k' : Desk}
  {everywhere : Content → Prop}

theorem poll (hne : ∀ t, ok t → t ≠ "") (h : Leading sha256 ok lenient k everywhere)
    (hs : k.poll sha256 cfg = some k') : Leading sha256 ok lenient k' everywhere := by
  obtain ⟨hp, rfl⟩ := poll_some hs
  rcases k.thread.poll_cases sha256 cfg.os k.controls.syncImages k.board with
    ⟨-, heq⟩ | ⟨htok, hclip, -⟩ | ⟨clip, htok, hclip, hsup, heq⟩ | ⟨clip, htok, hclip, -, heq⟩
  · rw [heq]
    exact h
  · obtain ⟨t, ht, hcon, -⟩ := h.copied htok
    rw [hcon, Content.clip_ofText _ (hne t ht)] at hclip
    cases hclip
  · obtain ⟨t, ht, hcon, hdue⟩ := h.copied htok
    rw [hcon, Content.clip_ofText _ (hne t ht)] at hclip
    cases hclip
    rw [heq]
    refine ⟨h.unpaused, fun _ => rfl, h.cmds, h.notApplied, h.notRemote, h.texts, h.synced, ?_,
      fun hn => absurd rfl hn⟩
    intro _
    exact (hdue.resolve_left (fun hn => hn hsup)).2
  · obtain ⟨t, ht, hcon, -⟩ := h.copied htok
    rw [hcon, Content.clip_ofText _ (hne t ht)] at hclip
    cases hclip
    rw [heq]
    have hpipe : ({ k with thread := { k.thread with lastToken := some k.board.token, phase := .sending (.text t) } } :
        Desk).pipeline = k.pipeline ++ [.text t] := by
      simp [pipeline, hp, ThreadPhase.pending]
    refine ⟨h.unpaused, h.unsuppressed, h.cmds, by simp, h.notRemote, ?_, h.synced, ?_, fun hn => absurd rfl hn⟩
    · rw [hpipe]
      intro clip hmem
      rcases List.mem_append.1 hmem with hmem | hmem
      · exact h.texts clip hmem
      · exact ⟨t, ht, List.mem_singleton.1 hmem⟩
    · intro _
      exact Or.inl ⟨t, hcon, by rw [hpipe]; simp⟩

theorem forward (h : Leading sha256 ok lenient k everywhere) (hs : k.forward = some k') :
    Leading sha256 ok lenient k' everywhere := by
  obtain ⟨clip, hp, rfl⟩ := forward_some hs
  have hpipe : ({ k with thread := { k.thread with phase := .waiting }, changes := k.changes ++ [clip],
                         forwarded := k.forwarded ++ [clip] } : Desk).pipeline = k.pipeline := by
    simp [pipeline, hp, ThreadPhase.pending]
  refine ⟨h.unpaused, h.unsuppressed, h.cmds, by simp, h.notRemote, by rw [hpipe]; exact h.texts, h.synced, ?_, ?_⟩
  · unfold Due
    rw [hpipe]
    exact h.due
  · unfold Due
    rw [hpipe]
    exact h.copied

/-- The sync loop takes a change; only a lenient account lets it be dropped for its rate. -/
theorem takeLocal {now : Int} (h : Leading sha256 ok lenient k everywhere)
    (hrate : lenient = true ∨ minGap ≤ now - k.sync.lastBroadcast) (hs : k.takeLocal now = some k') :
    Leading sha256 ok lenient k' everywhere := by
  obtain ⟨clip, changes, hp, hc, hout⟩ := takeLocal_some hs
  have hsplit : k.pipeline = clip :: (changes ++ k.thread.phase.pending) := by
    simp [pipeline, hp, hc, SyncPhase.pending]
  obtain ⟨t, ht, rfl⟩ := h.texts clip (by simp [hsplit])
  rw [SyncTask.onLocal_text now k.sync t h.unpaused] at hout
  by_cases hgap : now - k.sync.lastBroadcast < minGap
  · rw [if_pos hgap] at hout
    obtain ⟨sync, why, ho, rfl⟩ | ⟨sync, ho, -⟩ := hout
    · cases ho
      have hl : lenient = true := hrate.resolve_right (not_le.2 hgap)
      have hpipe : k.pipeline = .text t :: ({ k with
          changes := changes, outcomes := k.outcomes ++ [(.text t, .skipped .rateLimited)] } : Desk).pipeline := by
        rw [hsplit]
        simp [pipeline, hp, SyncPhase.pending]
      have hpop : ∀ {E}, Due lenient k E → Due lenient ({ k with
          changes := changes, outcomes := k.outcomes ++ [(.text t, .skipped .rateLimited)] } : Desk) E :=
        fun hdue => hdue.pop hpipe rfl (fun _ _ => Or.inl ⟨hl, Or.inr ⟨.text t, by simp⟩⟩)
      refine ⟨h.unpaused, h.unsuppressed, h.cmds, h.notApplied, h.notRemote, ?_, h.synced,
        fun htok => hpop (h.due htok), ?_⟩
      · intro clip hmem
        exact h.texts clip (by rw [hpipe]; exact List.mem_cons_of_mem _ hmem)
      · intro htok
        obtain ⟨u, hu, hcon, hrest⟩ := h.copied htok
        exact ⟨u, hu, hcon, hrest.imp_right (And.imp_right hpop)⟩
    · cases ho
  · rw [if_neg hgap] at hout
    obtain ⟨sync, why, ho, -⟩ | ⟨sync, ho, rfl⟩ := hout
    · cases ho
    · cases ho
      have hpipe : ({ k with
          changes := changes, sync := ⟨k.sync.seq, k.sync.lastSynced, now, .recordingLocal (.text t)⟩ } :
          Desk).pipeline = k.pipeline := by
        rw [hsplit]
        simp [pipeline, SyncPhase.pending]
      refine ⟨h.unpaused, h.unsuppressed, h.cmds, h.notApplied, by simp, by rw [hpipe]; exact h.texts, h.synced, ?_, ?_⟩
      · unfold Due
        rw [hpipe]
        exact h.due
      · unfold Due
        rw [hpipe]
        exact h.copied

/-- The oldest clip is skipped because every follower will hold it anyway, or it is broadcast. -/
theorem finishLocal {out : Desk × Outcome}
    (hinj : ∀ t u, ok t → ok u → sha256 (asBytes t) = sha256 (asBytes u) → t = u)
    (hlen : ∀ t, ok t → t.utf8ByteSize ≤ cfg.maxText) (h : Leading sha256 ok lenient k everywhere)
    (hs : k.finishLocal sha256 cfg = some out) :
    (∃ why, out.2 = .skipped why ∧ Leading sha256 ok lenient out.1 everywhere) ∨
    ∃ seq t, ok t ∧ out.2 = .broadcast (.clipboard seq cfg.ownId [ClipEntry.text t]) ∧
      ∀ everywhere' : Content → Prop, everywhere' (.ofText t) → Leading sha256 ok lenient out.1 everywhere' := by
  obtain ⟨clip, hp, ho, hk⟩ := finishLocal_some hs
  have hsplit : k.pipeline = clip :: (k.changes ++ k.thread.phase.pending) := by
    simp [pipeline, hp, SyncPhase.pending]
  obtain ⟨t, ht, rfl⟩ := h.texts clip (by simp [hsplit])
  have hpipe : k.pipeline = .text t :: out.1.pipeline := by
    rw [hsplit, hk]
    simp [pipeline, SyncTask.broadcastLocal_phase, SyncPhase.pending]
  have hpop : ∀ {E E' : Content → Prop}, E' (.ofText t) → Due lenient k E → Due lenient out.1 E' :=
    fun hE hdue => hdue.pop hpipe (by rw [hk]) (fun _ _ => Or.inr hE)
  have hlead : ∀ E' : Content → Prop, E' (.ofText t) →
      (∀ d, out.1.sync.lastSynced = some d → ∃ u, ok u ∧ d = sha256 (asBytes u) ∧ E' (.ofText u)) →
      Leading sha256 ok lenient out.1 E' := by
    intro E' hE hsync
    have hphase : out.1.sync.phase = .selecting := by rw [hk]; exact SyncTask.broadcastLocal_phase ..
    refine ⟨by rw [hk]; exact h.unpaused, by rw [hk]; exact h.unsuppressed, by rw [hk]; exact h.cmds,
      by rw [hk]; exact h.notApplied, by simp [hphase], ?_, hsync, ?_, ?_⟩
    · intro clip hmem
      exact h.texts clip (by rw [hpipe]; exact List.mem_cons_of_mem _ hmem)
    · intro htok
      refine hpop hE (h.due ?_)
      rw [hk] at htok
      exact htok
    · intro htok
      rw [hk] at htok
      obtain ⟨u, hu, hcon, hrest⟩ := h.copied htok
      refine ⟨u, hu, by rw [hk]; exact hcon, ?_⟩
      refine hrest.imp (fun hsup => by rw [hk]; exact hsup) (And.imp_right (hpop hE))
  rw [SyncTask.broadcastLocal_text sha256 cfg.ownId k.sync (hlen t ht)] at ho hk
  by_cases hdup : some (sha256 (asBytes t)) = k.sync.lastSynced
  · obtain ⟨u, hu, hhash, hE⟩ := h.synced _ hdup.symm
    obtain rfl := hinj t u ht hu hhash
    rw [if_pos hdup] at ho hk
    refine Or.inl ⟨.duplicate, ho, hlead everywhere hE ?_⟩
    rw [hk]
    exact h.synced
  · rw [if_neg hdup] at ho hk
    refine Or.inr ⟨_, t, ht, ho, fun E' hE => hlead E' hE ?_⟩
    rw [hk]
    intro d hd
    cases hd
    exact ⟨t, ht, rfl, hE⟩

/-- The next copy on the leading device. -/
theorem copy {t : String} {token : Int} (h : Leading sha256 ok lenient k everywhere) (ht : ok t)
    (hpolled : k.thread.lastToken = some k.board.token) (htok : token ≠ k.board.token)
    (hsup : k.thread.suppress = some (sha256 (asBytes t)) → lenient = false ∧ k.board.content = .ofText t) :
    Leading sha256 ok lenient (k.copy (.ofText t) token) everywhere := by
  refine ⟨h.unpaused, h.unsuppressed, h.cmds, h.notApplied, h.notRemote, h.texts, h.synced, ?_, ?_⟩
  · intro hk
    exact absurd (Option.some.inj (hk.symm.trans hpolled)) htok
  · intro _
    refine ⟨t, ht, rfl, ?_⟩
    by_cases hs : k.thread.suppress = some (sha256 (asBytes t))
    · obtain ⟨hl, hcon⟩ := hsup hs
      refine Or.inr ⟨hl, ?_⟩
      obtain ⟨u, hu, hlast⟩ | ⟨hnil, hrest⟩ := h.due hpolled
      · exact Or.inl ⟨u, by rw [← hu, hcon]; rfl, hlast⟩
      · refine Or.inr ⟨hnil, Or.inr ?_⟩
        rw [hcon] at hrest
        exact hrest.resolve_left (by simp [hl])
    · exact Or.inl hs

end Leading

end Desk

/-! ### The net -/

section Net

variable {ι : Type} [DecidableEq ι]

/-- What `o` will hold when everything on its way from `w` is applied. -/
def ClipNet.arriving (n : ClipNet ι) (w o : ι) : Content :=
  (n.wire w o).foldl Content.afterFrame (n.desk o).recorded

/-- The device `w` leads and the other members of `S` follow it; a device outside `S` is at least quiet. -/
structure Led (sha256 : Bytes → Digest) (cfg : ι → ClipConfig) (ok : String → Prop) (lenient : Bool) (S : Set ι)
    (w : ι) (n : ClipNet ι) : Prop where
  mem : w ∈ S
  noBlobs : ∀ i j, n.blobs i j = []
  silent : ∀ i j, i ≠ w ∨ j = w → n.wire i j = []
  frames : ∀ o, ∀ msg ∈ n.wire w o, ∃ seq t, ok t ∧ msg = .clipboard seq (cfg w).ownId [ClipEntry.text t]
  quiet : ∀ o, o ≠ w → (n.desk o).Quiet
  tracking : ∀ o ∈ S, o ≠ w → (n.desk o).Tracking sha256 ok
  leading : (n.desk w).Leading sha256 ok lenient fun c => ∀ o ∈ S, o ≠ w → n.arriving w o = c

/-- The conditions on a step other than a copy. -/
def Kept (lenient : Bool) (S : Set ι) (w : ι) (n : ClipNet ι) : ClipEvent ι → Prop
  | .copy .. => False
  | .pause d on => d ∈ S → on = false
  | .command d _ => d ∉ S
  | .take d res => d ∈ S → d ≠ w → res ≠ .failed
  | .takeLocal d => lenient = true ∨ minGap ≤ n.now - (n.desk d).sync.lastBroadcast
  | .finishLocal d reached => d = w → ∀ o ∈ S, o ≠ w → reached o = true
  | .lose src dst => src = w → dst ≠ w → dst ∉ S
  | .tick _ | .settle _ | .poll _ | .forward _ | .receive .. | .finishRemote _ | .blob .. => True

namespace Led

variable {sha256 : Bytes → Digest} {cfg : ι → ClipConfig} {ok : String → Prop} {lenient : Bool} {S : Set ι} {w : ι}
  {n n' : ClipNet ι}

/-- A step of the leader that sends nothing. -/
theorem lead {k : Desk} (h : Led sha256 cfg ok lenient S w n)
    (hk : k.Leading sha256 ok lenient fun c => ∀ o ∈ S, o ≠ w → n.arriving w o = c) :
    Led sha256 cfg ok lenient S w (n.setDesk w k) where
  mem := h.mem
  noBlobs := h.noBlobs
  silent := h.silent
  frames := h.frames
  quiet := by
    intro o ho
    simpa [ho] using h.quiet o ho
  tracking := by
    intro o hS ho
    simpa [ho] using h.tracking o hS ho
  leading := by
    have harr : ∀ o, o ≠ w → (n.setDesk w k).arriving w o = n.arriving w o := by
      intro o ho
      unfold ClipNet.arriving
      rw [ClipNet.setDesk_desk_of_ne n k ho]
      rfl
    have hiff : (fun c => ∀ o ∈ S, o ≠ w → (n.setDesk w k).arriving w o = c) =
        fun c => ∀ o ∈ S, o ≠ w → n.arriving w o = c := by
      funext c
      exact propext (forall₃_congr fun o _ ho => by rw [harr o ho])
    rw [ClipNet.setDesk_desk_self, hiff]
    exact hk

/-- A step of another device, which may take frames off its wire. -/
theorem follow {d : ι} {k : Desk} (msgs : List Message) (h : Led sha256 cfg ok lenient S w n) (hd : d ≠ w)
    (hmsgs : ∀ msg ∈ msgs, msg ∈ n.wire w d) (hq : k.Quiet)
    (ht : d ∈ S → k.Tracking sha256 ok ∧ msgs.foldl Content.afterFrame k.recorded = n.arriving w d) :
    Led sha256 cfg ok lenient S w ((n.setWire w d msgs).setDesk d k) where
  mem := h.mem
  noBlobs := h.noBlobs
  silent := by
    intro i j hij
    have hne : ¬ (i = w ∧ j = d) := by
      rintro ⟨rfl, rfl⟩
      exact hij.elim (fun hi => hi rfl) hd
    simpa [ClipNet.setDesk, ClipNet.setWire, hne] using h.silent i j hij
  frames := by
    intro o msg hmem
    by_cases ho : o = d
    · subst ho
      exact h.frames o msg (hmsgs msg (by simpa [ClipNet.setDesk, ClipNet.setWire] using hmem))
    · exact h.frames o msg (by simpa [ClipNet.setDesk, ClipNet.setWire, ho] using hmem)
  quiet := by
    intro o ho
    by_cases hod : o = d
    · subst hod
      simpa using hq
    · simpa [hod] using h.quiet o ho
  tracking := by
    intro o hS ho
    by_cases hod : o = d
    · subst hod
      simpa using (ht hS).1
    · simpa [hod] using h.tracking o hS ho
  leading := by
    have harr : ∀ o ∈ S, ((n.setWire w d msgs).setDesk d k).arriving w o = n.arriving w o := by
      intro o hS
      by_cases hod : o = d
      · subst hod
        rw [← (ht hS).2]
        simp [ClipNet.arriving, ClipNet.setDesk, ClipNet.setWire]
      · simp [ClipNet.arriving, ClipNet.setDesk, ClipNet.setWire, hod]
    have hiff : (fun c => ∀ o ∈ S, o ≠ w → ((n.setWire w d msgs).setDesk d k).arriving w o = c) =
        fun c => ∀ o ∈ S, o ≠ w → n.arriving w o = c := by
      funext c
      exact propext (forall₃_congr fun o hS _ => by rw [harr o hS])
    rw [ClipNet.setDesk_desk_of_ne _ k hd.symm, hiff]
    exact h.leading

/-- A step of another device that takes nothing off its wire. -/
theorem follow_desk {d : ι} {k : Desk} (h : Led sha256 cfg ok lenient S w n) (hd : d ≠ w) (hq : k.Quiet)
    (ht : d ∈ S → k.Tracking sha256 ok ∧ k.recorded = (n.desk d).recorded) :
    Led sha256 cfg ok lenient S w (n.setDesk d k) := by
  have hled := h.follow (n.wire w d) hd (fun _ hm => hm) hq
    (fun hS => ⟨(ht hS).1, by rw [(ht hS).2]; rfl⟩)
  rwa [ClipNet.setWire_eq_self] at hled

/-- The leader's broadcast reaches every follower. -/
theorem broadcast {k : Desk} {reached : ι → Bool} {seq : Nat} {t : String} (h : Led sha256 cfg ok lenient S w n)
    (hreached : ∀ o ∈ S, o ≠ w → reached o = true) (ht : ok t)
    (hk : ∀ everywhere : Content → Prop, everywhere (.ofText t) → k.Leading sha256 ok lenient everywhere) :
    Led sha256 cfg ok lenient S w
      ((n.setDesk w k).post w reached (.broadcast (.clipboard seq (cfg w).ownId [ClipEntry.text t]))) where
  mem := h.mem
  noBlobs := h.noBlobs
  silent := by
    intro i j hij
    have hne : ¬ (i = w ∧ j ≠ w ∧ reached j = true) := by
      rintro ⟨rfl, hj, -⟩
      exact hij.elim (fun hi => hi rfl) hj
    simp only [ClipNet.post, if_neg hne]
    exact h.silent i j hij
  frames := by
    intro o msg hmem
    simp only [ClipNet.post] at hmem
    split at hmem
    · rcases List.mem_append.1 hmem with hmem | hmem
      · exact h.frames o msg hmem
      · exact ⟨seq, t, ht, List.mem_singleton.1 hmem⟩
    · exact h.frames o msg hmem
  quiet := by
    intro o ho
    simpa [ho] using h.quiet o ho
  tracking := by
    intro o hS ho
    simpa [ho] using h.tracking o hS ho
  leading := by
    rw [ClipNet.post_desk, ClipNet.setDesk_desk_self]
    refine hk _ ?_
    intro o hS ho
    simp [ClipNet.arriving, ClipNet.post, ho, hreached o hS ho, Content.afterFrame]

/-- Only the leader's frames are on their way, and to other devices. -/
theorem sender {src dst : ι} {msg : Message} {msgs : List Message} (h : Led sha256 cfg ok lenient S w n)
    (hw : n.wire src dst = msg :: msgs) : src = w ∧ dst ≠ w := by
  by_contra hcon
  have hnil := h.silent src dst (by tauto)
  rw [hw] at hnil
  cases hnil

/-- A step other than a copy keeps the lead. -/
theorem keep {e : ClipEvent ι} (hne : ∀ t, ok t → t ≠ "") (hlen : ∀ t, ok t → ∀ d ∈ S, t.utf8ByteSize ≤ (cfg d).maxText)
    (hinj : ∀ t u, ok t → ok u → sha256 (asBytes t) = sha256 (asBytes u) → t = u)
    (hids : ∀ d ∈ S, d ≠ w → (cfg w).ownId ≠ (cfg d).ownId) (h : Led sha256 cfg ok lenient S w n)
    (hkept : Kept lenient S w n e) (hs : n.step sha256 cfg e = some n') : Led sha256 cfg ok lenient S w n' := by
  unfold ClipNet.step at hs
  cases e with
  | tick ms =>
    cases hs
    exact ⟨h.mem, h.noBlobs, h.silent, h.frames, h.quiet, h.tracking, h.leading⟩
  | pause d on =>
    cases hs
    by_cases hd : d = w
    · subst hd
      have hon : on = false := hkept h.mem
      have hl := h.leading
      exact h.lead ⟨hon, hl.unsuppressed, hl.cmds, hl.notApplied, hl.notRemote, hl.texts, hl.synced, hl.due, hl.copied⟩
    · refine h.follow_desk hd ⟨(h.quiet d hd).polled, (h.quiet d hd).empty⟩ ?_
      intro hS
      have ht := h.tracking d hS hd
      exact ⟨⟨hkept hS, ht.texts, ht.recording, ht.synced⟩, rfl⟩
  | copy d c token => exact hkept.elim
  | command d cmd =>
    cases hs
    have hd : d ≠ w := fun he => hkept (he ▸ h.mem)
    exact h.follow_desk hd ⟨(h.quiet d hd).polled, (h.quiet d hd).empty⟩ (fun hS => absurd hS hkept)
  | take d res =>
    obtain ⟨k, hk, rfl⟩ := Option.map_eq_some_iff.1 hs
    by_cases hd : d = w
    · subst hd
      obtain ⟨cmd, cmds, -, hc, -⟩ := Desk.take_some hk
      rw [h.leading.cmds] at hc
      cases hc
    · exact h.follow_desk hd ((h.quiet d hd).take hk) (fun hS => (h.tracking d hS hd).take (hkept hS hd) hk)
  | settle d =>
    obtain ⟨k, hk, rfl⟩ := Option.map_eq_some_iff.1 hs
    by_cases hd : d = w
    · subst hd
      exact absurd (Desk.settle_some hk).1 h.leading.notApplied
    · exact h.follow_desk hd ((h.quiet d hd).settle hk) (fun hS => (h.tracking d hS hd).settle hk)
  | poll d =>
    obtain ⟨k, hk, rfl⟩ := Option.map_eq_some_iff.1 hs
    by_cases hd : d = w
    · subst hd
      exact h.lead (h.leading.poll hne hk)
    · rw [(h.quiet d hd).poll hk, ClipNet.setDesk_eq_self]
      exact h
  | forward d =>
    obtain ⟨k, hk, rfl⟩ := Option.map_eq_some_iff.1 hs
    by_cases hd : d = w
    · subst hd
      exact h.lead (h.leading.forward hk)
    · exact absurd hk (h.quiet d hd).forward
  | takeLocal d =>
    obtain ⟨k, hk, rfl⟩ := Option.map_eq_some_iff.1 hs
    by_cases hd : d = w
    · subst hd
      exact h.lead (h.leading.takeLocal hkept hk)
    · exact absurd hk (h.quiet d hd).takeLocal
  | finishLocal d reached =>
    obtain ⟨out, ho, rfl⟩ := Option.map_eq_some_iff.1 hs
    by_cases hd : d = w
    · subst hd
      rcases h.leading.finishLocal hinj (fun t ht => hlen t ht d h.mem) ho with ⟨why, hout, hk⟩ | ⟨seq, t, ht, hout, hk⟩
      · rw [hout]
        exact h.lead hk
      · rw [hout]
        exact h.broadcast (hkept rfl) ht hk
    · exact absurd ho (h.quiet d hd).finishLocal
  | receive d src =>
    dsimp only at hs
    split at hs
    · cases hs
    · rename_i msg msgs hw
      obtain ⟨k, hk, rfl⟩ := Option.map_eq_some_iff.1 hs
      obtain ⟨rfl, hd⟩ := h.sender hw
      refine h.follow msgs hd (fun m hm => by rw [hw]; exact List.mem_cons_of_mem _ hm) ((h.quiet d hd).receive hk) ?_
      intro hS
      obtain ⟨seq, t, ht, rfl⟩ := h.frames d msg (by simp [hw])
      obtain ⟨htr, hrec⟩ := (h.tracking d hS hd).receive ht (hids d hS hd) (hlen t ht d hS) hk
      refine ⟨htr, ?_⟩
      rw [hrec, ClipNet.arriving, hw]
      simp [Content.afterFrame]
  | finishRemote d =>
    obtain ⟨k, hk, rfl⟩ := Option.map_eq_some_iff.1 hs
    by_cases hd : d = w
    · subst hd
      obtain ⟨clip, hp, -⟩ := Desk.finishRemote_some hk
      exact absurd hp (h.leading.notRemote clip)
    · exact h.follow_desk hd ((h.quiet d hd).finishRemote hk) (fun hS => (h.tracking d hS hd).finishRemote hinj hk)
  | blob d src =>
    dsimp only at hs
    rw [h.noBlobs] at hs
    cases hs
  | lose src dst =>
    dsimp only at hs
    split at hs
    · cases hs
    · rename_i msg msgs hw
      cases hs
      obtain ⟨rfl, hd⟩ := h.sender hw
      have hled := h.follow msgs hd (fun m hm => by rw [hw]; exact List.mem_cons_of_mem _ hm) (h.quiet dst hd)
        (fun hS => absurd hS (hkept rfl hd))
      rw [← ClipNet.setWire_desk n src dst msgs, ClipNet.setDesk_eq_self] at hled
      exact hled

/-- The next copy on the leading device. -/
theorem copy {t : String} {token : Int} (h : Led sha256 cfg ok lenient S w n) (ht : ok t)
    (hpolled : (n.desk w).thread.lastToken = some (n.desk w).board.token) (htok : token ≠ (n.desk w).board.token)
    (hsup : (n.desk w).thread.suppress = some (sha256 (asBytes t)) →
      lenient = false ∧ (n.desk w).board.content = .ofText t) :
    Led sha256 cfg ok lenient S w (n.setDesk w ((n.desk w).copy (.ofText t) token)) :=
  h.lead (h.leading.copy ht hpolled htok hsup)

end Led

omit [DecidableEq ι] in
/-- The start, with equal clipboards or a lenient account. -/
theorem Led.start (sha256 : Bytes → Digest) (cfg : ι → ClipConfig) (ok : String → Prop) {lenient : Bool} {S : Set ι}
    {w : ι} {controls : ι → Controls} {boards : ι → Board} (hw : w ∈ S)
    (hunpaused : ∀ d ∈ S, (controls d).clipboardPaused = false)
    (hsame : lenient = true ∨ ∀ o ∈ S, o ≠ w → (boards o).content = (boards w).content) :
    Led sha256 cfg ok lenient S w (ClipNet.start cfg controls boards) where
  mem := hw
  noBlobs := fun _ _ => rfl
  silent := fun _ _ _ => rfl
  frames := by simp [ClipNet.start]
  quiet := fun o _ => ⟨Or.inr (by simp [ClipNet.start, Desk.start, ClipThread.start]), rfl⟩
  tracking := fun o hS _ => ⟨hunpaused o hS, by simp [ClipNet.start, Desk.start],
    by simp [ClipNet.start, Desk.start, SyncTask.start], by simp [ClipNet.start, Desk.start, SyncTask.start]⟩
  leading := by
    refine ⟨hunpaused w hw, fun _ => rfl, rfl, by simp [ClipNet.start, Desk.start, ClipThread.start],
      by simp [ClipNet.start, Desk.start, SyncTask.start], ?_, ?_, ?_, ?_⟩
    · intro clip hmem
      cases hmem
    · simp [ClipNet.start, Desk.start, SyncTask.start]
    · intro _
      refine Or.inr ⟨rfl, ?_⟩
      exact hsame.imp (fun hl => ⟨hl, Or.inl rfl⟩) (fun hall => hall)
    · intro htok
      exact absurd (by simp [ClipNet.start, Desk.start, ClipThread.start]) htok

/-- The device `d` has applied all it was sent, and nothing copied on another device is on its way. -/
structure Turn (n : ClipNet ι) (d : ι) : Prop where
  notApplied : (n.desk d).thread.phase ≠ .applied
  cmds : (n.desk d).cmds = []
  notRemote : (n.desk d).sync.phase.isRemote = false
  quiet : ∀ o, o ≠ d → (n.desk o).Quiet
  silent : ∀ o, o ≠ d → ∀ j, n.wire o j = []

instance [Fintype ι] (n : ClipNet ι) (d : ι) : Decidable (Turn n d) :=
  decidable_of_iff ((n.desk d).thread.phase ≠ .applied ∧ (n.desk d).cmds = [] ∧
      (n.desk d).sync.phase.isRemote = false ∧ (∀ o, o ≠ d → (n.desk o).Quiet) ∧ ∀ o, o ≠ d → ∀ j, n.wire o j = [])
    ⟨fun h => ⟨h.1, h.2.1, h.2.2.1, h.2.2.2.1, h.2.2.2.2⟩,
      fun h => ⟨h.notApplied, h.cmds, h.notRemote, h.quiet, h.silent⟩⟩

/-- Without commands and a remote text in the sync loop, nothing more will be applied. -/
private theorem recorded_eq {k : Desk} (hcmds : k.cmds = []) (hrem : ∀ clip, k.sync.phase ≠ .recordingRemote clip) :
    k.commanded = k.board.content ∧ k.recorded = k.board.content := by
  have hcmd : k.commanded = k.board.content := by simp [Desk.commanded, hcmds]
  refine ⟨hcmd, ?_⟩
  unfold Desk.recorded
  split
  · rename_i clip hp
    exact absurd hp (hrem clip)
  · exact hcmd
  · exact hcmd

/-- The lead passes to the device of the next copy. -/
theorem Led.pass {sha256 : Bytes → Digest} {cfg : ι → ClipConfig} {ok : String → Prop} {w d : ι} {n : ClipNet ι}
    {t : String} {token : Int} (h : Led sha256 cfg ok false Set.univ w n) (hd : d ≠ w) (hturn : Turn n d) (ht : ok t)
    (hpolled : (n.desk d).thread.lastToken = some (n.desk d).board.token) (htok : token ≠ (n.desk d).board.token)
    (hsup : (n.desk d).thread.suppress = some (sha256 (asBytes t)) → (n.desk d).board.content = .ofText t) :
    Led sha256 cfg ok false Set.univ d (n.setDesk d ((n.desk d).copy (.ofText t) token)) := by
  have hl := h.leading
  have hqw := hturn.quiet w hd.symm
  obtain ⟨hcw, hrw⟩ := recorded_eq hl.cmds hl.notRemote
  have hrem : ∀ clip, (n.desk d).sync.phase ≠ .recordingRemote clip := by
    intro clip hp
    have hnot := hturn.notRemote
    rw [hp] at hnot
    cases hnot
  obtain ⟨hcd, hrd⟩ := recorded_eq hturn.cmds hrem
  have harr : ∀ o, n.arriving w o = (n.desk o).recorded := by
    intro o
    rw [ClipNet.arriving, hturn.silent w hd.symm o]
    rfl
  -- the old leader's content has arrived everywhere
  have hall : ∀ o, o ≠ w → (n.desk o).recorded = (n.desk w).board.content := by
    have hdue := hl.due (hqw.polled.resolve_left hl.notApplied)
    unfold Desk.Due at hdue
    rw [hqw.empty] at hdue
    intro o ho
    have hdue' : ∀ o ∈ Set.univ, o ≠ w → n.arriving w o = (n.desk w).board.content := by simpa using hdue
    rw [← harr o]
    exact hdue' o (Set.mem_univ o) ho
  have hsame : (n.desk w).board.content = (n.desk d).board.content := by rw [← hall d hd, hrd]
  have hrec : ∀ o, (n.desk o).recorded = (n.desk d).board.content := by
    intro o
    by_cases ho : o = w
    · rw [ho, hrw, hsame]
    · rw [hall o ho, hsame]
  have hwire : ∀ i j, n.wire i j = [] := by
    intro i j
    by_cases hi : i = d
    · exact h.silent i j (Or.inl (hi ▸ hd))
    · exact hturn.silent i hi j
  have hev : ∀ k' : Desk, ∀ o ∈ Set.univ, o ≠ d → (n.setDesk d k').arriving d o = (n.desk d).board.content := by
    intro k' o _ ho
    rw [ClipNet.arriving, ClipNet.setDesk_desk_of_ne n k' ho, ← hrec o]
    simp [ClipNet.setDesk, hwire]
  have htd := h.tracking d (Set.mem_univ d) hd
  refine ⟨Set.mem_univ d, h.noBlobs, fun i j _ => hwire i j, ?_, ?_, ?_, ?_⟩
  · intro o msg hmem
    have hnil : msg ∈ n.wire d o := hmem
    rw [hwire] at hnil
    cases hnil
  · intro o ho
    simpa [ho] using hturn.quiet o ho
  · intro o _ ho
    rw [ClipNet.setDesk_desk_of_ne n _ ho]
    by_cases how : o = w
    · subst how
      refine ⟨hl.unpaused, by simp [hl.cmds], fun clip hp => absurd hp (hl.notRemote clip), ?_⟩
      intro hash hh
      obtain ⟨u, hu, he, hev'⟩ := hl.synced hash hh
      refine ⟨u, hu, he, ?_⟩
      rw [hcw, ← hall d hd, ← harr d]
      exact hev' d (Set.mem_univ d) hd
    · exact h.tracking o (Set.mem_univ o) how
  · rw [ClipNet.setDesk_desk_self]
    have hnil : ((n.desk d).copy (.ofText t) token).pipeline = [] := (h.quiet d hd).empty
    refine ⟨htd.unpaused, by simp, hturn.cmds, hturn.notApplied, hrem, by simp [hnil], ?_, ?_, ?_⟩
    · intro hash hh
      obtain ⟨u, hu, he, hcon⟩ := htd.synced hash hh
      refine ⟨u, hu, he, ?_⟩
      intro o hS ho
      rw [hev _ o hS ho, ← hcd, hcon]
    · intro hk
      exact absurd (Option.some.inj (hk.symm.trans hpolled)) htok
    · intro _
      refine ⟨t, ht, rfl, ?_⟩
      by_cases hs : (n.desk d).thread.suppress = some (sha256 (asBytes t))
      · refine Or.inr ⟨rfl, Or.inr ⟨hnil, Or.inr ?_⟩⟩
        intro o hS ho
        rw [hev _ o hS ho, hsup hs]
        rfl
      · exact Or.inl hs

end Net

end Qdrop
