import Qdrop.Clipboard.Thread
import Qdrop.Lib.Run

/-!
# Copies the echo filter takes for an echo (`qdropd/src/clipboard.rs`)

The clipboard thread alone, with at least one poll between two changes of the clipboard.  It knows an echo of what it
wrote by the token of the snapshot after the write, so the hash it also remembers is still there when the user copies
the same content later, over any number of other copies.  `copies_forwarded_iff` says which runs forward every copy.
-/

namespace Qdrop

open Lib

/-- What a snapshot reads of a content that is not concealed. -/
def Content.read (images : Bool) (c : Content) : Option String × Option Bytes :=
  (c.text.filter fun t => !t.isEmpty, if images then c.image else none)

/-- What the thread has handled last. -/
inductive Handled where
  | poll
  | apply
  | copy
deriving DecidableEq, Repr

structure CopyRun where
  board : Board
  thread : ClipThread
  last : Handled
  /-- The copies of the user so far. -/
  copies : Nat
  /-- The clips to forward, each with the number of its copy: of the copies that changed what is read. -/
  owed : List (Nat × LocalClip)
  /-- The clips forwarded, each with the number of the last copy at that time. -/
  forwarded : List (Nat × LocalClip)

inductive CopyEvent where
  | apply (cmd : ClipCommand) (res : SetResult)
  | copy (c : Content) (token : Int)
  | poll

/-- The thread on a clipboard that holds `board`. -/
def CopyRun.start (os : Platform) (images : Bool) (board : Board) : CopyRun :=
  ⟨board, .start (board.snapshot os images), .poll, 0, [], []⟩

/-- One event; the next change waits for a poll.  A copy that changes what is read changes the token: it is the
system's count of changes, or a hash of what is read. -/
def copyStep (sha256 : Bytes → Digest) (os : Platform) (images : Bool) (s : CopyRun) : CopyEvent → Option CopyRun
  | .apply cmd res =>
    if s.last = .poll ∧ cmd ≠ .getText then
      let board := s.board.set res cmd
      some { s with
        board := board
        thread := (s.thread.onCommand sha256 cmd).settle (board.snapshot os images)
        last := .apply }
    else none
  | .copy c token =>
    let changed := c.read images ≠ s.board.content.read images
    if s.last = .poll ∧ c.concealed = false ∧ (changed → token ≠ s.board.token) then
      let clip := if changed then c.clip images else none
      some { s with
        board := ⟨c, token⟩
        last := .copy
        copies := s.copies + 1
        owed := s.owed ++ clip.toList.map (s.copies + 1, ·) }
    else none
  | .poll =>
    let thread := s.thread.poll sha256 (s.board.snapshot os images)
    match thread.phase with
    | .sending clip =>
      some { s with
        thread := { thread with phase := .waiting }
        last := .poll
        forwarded := s.forwarded ++ [(s.copies, clip)] }
    | .waiting | .applied => some { s with thread := thread, last := .poll }

/-- Every copy that is to be forwarded was forwarded, unless it waits for its poll. -/
def CopyRun.AllForwarded (s : CopyRun) : Prop :=
  ∀ x ∈ s.owed, x ∈ s.forwarded ∨ s.last = .copy ∧ x.1 = s.copies

/-- The poll after a copy that is to be forwarded does not find the hash of its clip armed by a command. -/
def Unarmed (sha256 : Bytes → Digest) (s : CopyRun) (e : CopyEvent) : Prop :=
  e = .poll → s.last = .copy → ∀ x ∈ s.owed, x.1 = s.copies → s.thread.suppress ≠ some (sha256 x.2.bytes)

/-- What holds between two events. -/
structure CaughtUp (images : Bool) (s : CopyRun) : Prop where
  phase : s.thread.phase = .waiting
  owed_le : ∀ x ∈ s.owed, x.1 ≤ s.copies
  forwarded_le : ∀ x ∈ s.forwarded, x.1 ≤ s.copies
  /-- The thread knows the token of what it has polled or written itself. -/
  known : s.last ≠ .copy → s.thread.lastToken = some s.board.token
  /-- A copy that is to be forwarded is new to the thread. -/
  new : s.last = .copy → (∀ x ∈ s.forwarded, x.1 < s.copies) ∧
    ∀ x ∈ s.owed, x.1 = s.copies → s.thread.lastToken ≠ some s.board.token ∧ s.board.content.clip images = some x.2

section Steps

variable {sha256 : Bytes → Digest} {os : Platform} {images : Bool} {s t : CopyRun}

theorem caughtUp_start (os : Platform) (images : Bool) (board : Board) : CaughtUp images (.start os images board) where
  phase := rfl
  owed_le x hx := by cases hx
  forwarded_le x hx := by cases hx
  known _ := Board.snapshot_token os images board
  new h := by cases h

/-- A command: the thread knows the token of its own write. -/
private theorem apply_step {cmd : ClipCommand} {res : SetResult} (h : CaughtUp images s)
    (hs : copyStep sha256 os images s (.apply cmd res) = some t) :
    CaughtUp images t ∧ (t.AllForwarded ↔ s.AllForwarded) := by
  simp only [copyStep] at hs
  split at hs
  · rename_i hpoll
    cases hs
    have hcopy : s.last ≠ .copy := by
      rw [hpoll.1]
      exact fun he => by cases he
    refine ⟨⟨rfl, h.owed_le, h.forwarded_le, fun _ => ?_, fun he => by cases he⟩, ?_⟩
    · exact Board.snapshot_token os images _
    · refine forall₂_congr fun x _ => or_congr_right ?_
      exact iff_of_false (fun he => by cases he.1) fun he => hcopy he.1
  · cases hs

private theorem copy_step {c : Content} {token : Int} (h : CaughtUp images s)
    (hs : copyStep sha256 os images s (.copy c token) = some t) :
    CaughtUp images t ∧ (t.AllForwarded ↔ s.AllForwarded) := by
  simp only [copyStep] at hs
  split at hs
  · rename_i hguard
    obtain ⟨hpoll, -, htoken⟩ := hguard
    cases hs
    have hknown : s.thread.lastToken = some s.board.token := h.known (by rw [hpoll]; exact fun he => by cases he)
    -- a copy that is owed changed what is read
    have howed : ∀ x ∈ (if c.read images ≠ s.board.content.read images then c.clip images else none).toList.map
        (s.copies + 1, ·), x.1 = s.copies + 1 ∧ s.thread.lastToken ≠ some token ∧ c.clip images = some x.2 := by
      intro x hx
      obtain ⟨clip, hclip, rfl⟩ := List.mem_map.1 hx
      rw [Option.mem_toList] at hclip
      split at hclip
      · rename_i hchanged
        refine ⟨rfl, ?_, hclip⟩
        rw [hknown]
        exact fun he => htoken hchanged (Option.some.inj he).symm
      · cases hclip
    constructor
    · refine ⟨h.phase, ?_, fun x hx => Nat.le_succ_of_le (h.forwarded_le x hx), fun he => absurd rfl he, fun _ => ?_⟩
      · intro x hx
        rcases List.mem_append.1 hx with hx | hx
        · exact Nat.le_succ_of_le (h.owed_le x hx)
        · exact Nat.le_of_eq (howed x hx).1
      · refine ⟨fun x hx => Nat.lt_succ_of_le (h.forwarded_le x hx), fun x hx hlast => ?_⟩
        rcases List.mem_append.1 hx with hx | hx
        · have hle := h.owed_le x hx
          dsimp only at hlast
          omega
        · exact (howed x hx).2
    · constructor
      · intro hall x hx
        rcases hall x (List.mem_append_left _ hx) with hf | ⟨-, hlast⟩
        · exact Or.inl hf
        · have hle := h.owed_le x hx
          dsimp only at hlast
          omega
      · intro hall x hx
        rcases List.mem_append.1 hx with hx | hx
        · rcases hall x hx with hf | ⟨hcopy, -⟩
          · exact Or.inl hf
          · rw [hpoll] at hcopy
            cases hcopy
        · exact Or.inr ⟨rfl, (howed x hx).1⟩
  · cases hs

/-- What a poll leaves: the thread knows the token, and it has forwarded the clip of a token it did not know unless the
hash of the clip was armed. -/
private theorem poll_outcome (h : CaughtUp images s) (hs : copyStep sha256 os images s .poll = some t) :
    ∃ thread new, t = { s with thread := thread, last := .poll, forwarded := s.forwarded ++ new } ∧
      thread.phase = .waiting ∧ thread.lastToken = some s.board.token ∧
      (∀ x ∈ new, x.1 = s.copies ∧ s.thread.lastToken ≠ some s.board.token) ∧
      ∀ clip, s.thread.lastToken ≠ some s.board.token → s.board.content.clip images = some clip →
        ((s.copies, clip) ∈ new ↔ s.thread.suppress ≠ some (sha256 clip.bytes)) := by
  simp only [copyStep] at hs
  have hphase := h.phase
  rcases s.thread.poll_cases sha256 os images s.board with
    ⟨htok, heq⟩ | ⟨-, hclip, heq⟩ | ⟨clip, -, hclip, hsup, heq⟩ | ⟨clip, htok, hclip, hsup, heq⟩
  · simp only [heq, hphase] at hs
    cases hs
    refine ⟨s.thread, [], by simp, hphase, htok, (fun x hx => by cases hx), fun clip hne => absurd htok hne⟩
  · simp only [heq, hphase] at hs
    cases hs
    refine ⟨⟨some s.board.token, s.thread.suppress, .waiting⟩, [], by simp, rfl, rfl, (fun x hx => by cases hx),
      fun clip _ hclip' => ?_⟩
    rw [hclip] at hclip'
    cases hclip'
  · simp only [heq, hphase] at hs
    cases hs
    refine ⟨⟨some s.board.token, none, .waiting⟩, [], by simp, rfl, rfl, (fun x hx => by cases hx),
      fun clip' _ hclip' => ?_⟩
    obtain rfl : clip = clip' := Option.some.inj (hclip.symm.trans hclip')
    exact iff_of_false List.not_mem_nil fun hne => hne hsup
  · simp only [heq] at hs
    cases hs
    refine ⟨_, [(s.copies, clip)], rfl, rfl, rfl, fun x hx => ?_, fun clip' _ hclip' => ?_⟩
    · obtain rfl := List.mem_singleton.1 hx
      exact ⟨rfl, htok⟩
    obtain rfl : clip = clip' := Option.some.inj (hclip.symm.trans hclip')
    exact iff_of_true (List.mem_singleton_self _) hsup

private theorem poll_step (h : CaughtUp images s) (hs : copyStep sha256 os images s .poll = some t) :
    CaughtUp images t ∧ (t.AllForwarded ↔ s.AllForwarded ∧ Unarmed sha256 s .poll) := by
  obtain ⟨thread, new, rfl, hphase, htoken, hnew, hclip⟩ := poll_outcome h hs
  constructor
  · refine ⟨hphase, h.owed_le, fun x hx => ?_, fun _ => htoken, fun he => by cases he⟩
    rcases List.mem_append.1 hx with hx | hx
    · exact h.forwarded_le x hx
    · exact Nat.le_of_eq (hnew x hx).1
  -- the copy that was still to be polled is forwarded exactly when its hash is not armed
  have hlast : ∀ x ∈ s.owed, s.last = .copy → x.1 = s.copies →
      (x ∈ s.forwarded ++ new ↔ s.thread.suppress ≠ some (sha256 x.2.bytes)) := by
    rintro ⟨i, clip⟩ hx hcopy rfl
    obtain ⟨hlt, hown⟩ := h.new hcopy
    obtain ⟨hne, hc⟩ := hown _ hx rfl
    rw [← hclip clip hne hc, List.mem_append]
    refine or_iff_right fun hf => ?_
    exact absurd (hlt _ hf) (Nat.lt_irrefl _)
  constructor
  · intro hall
    constructor
    · intro x hx
      rcases hall x hx with hf | ⟨he, -⟩
      · rcases List.mem_append.1 hf with hf | hf
        · exact Or.inl hf
        · have hcopy : s.last = .copy := by
            by_contra hne
            exact (hnew x hf).2 (h.known hne)
          exact Or.inr ⟨hcopy, (hnew x hf).1⟩
      · cases he
    · rintro - hcopy x hx heq
      rcases hall x hx with hf | ⟨he, -⟩
      · exact (hlast x hx hcopy heq).1 hf
      · cases he
  · rintro ⟨hall, harmed⟩ x hx
    rcases hall x hx with hf | ⟨hcopy, heq⟩
    · exact Or.inl (List.mem_append_left _ hf)
    · exact Or.inl ((hlast x hx hcopy heq).2 (harmed rfl hcopy x hx heq))

end Steps

/-- Every user copy that changes what the thread reads is forwarded by its poll if and only if no such copy has the
content whose hash is armed when it is polled. -/
theorem copies_forwarded_iff (sha256 : Bytes → Digest) (os : Platform) (images : Bool) (board : Board)
    {es : List CopyEvent} {s : CopyRun}
    (hr : Run (copyStep sha256 os images) Always (.start os images board) es s) :
    s.AllForwarded ↔ Run (copyStep sha256 os images) (Unarmed sha256) (.start os images board) es s := by
  refine hr.iff_of_step (I := CaughtUp images) (P := CopyRun.AllForwarded) (caughtUp_start os images board) ?_ ?_ ?_
  · exact fun x hx => by cases hx
  · intro s e t h hs
    cases e with
    | apply cmd res => exact (apply_step h hs).1
    | copy c token => exact (copy_step h hs).1
    | poll => exact (poll_step h hs).1
  · intro s e t h hs
    cases e with
    | apply cmd res => exact (apply_step h hs).2.trans (and_iff_left fun he => by cases he).symm
    | copy c token => exact (copy_step h hs).2.trans (and_iff_left fun he => by cases he).symm
    | poll => exact (poll_step h hs).2

/-- The SHA-256 digests of "x" and of "y". -/
private def letterDigest (content : Bytes) : Digest :=
  if content = [120] then #v[
    45, 113, 22, 66, 183, 38, 176, 68, 1, 98, 124, 169, 251, 172, 50, 245, 200, 83, 15, 177, 144, 60,
    196, 219, 2, 37, 135, 23, 146, 26, 72, 129]
  else #v[
    161, 252, 228, 54, 56, 84, 255, 136, 140, 255, 75, 142, 120, 117, 214, 0, 194, 104, 35, 144, 65, 42,
    140, 247, 155, 55, 208, 177, 17, 72, 176, 250]

/-- A text from a peer, then another one copied by the user. -/
private def appliedThenCopied : List CopyEvent :=
  [.apply (.applyText "x") (.done 2 []), .poll, .copy (.ofText "y") 3, .poll]

/-- The poll does not find the hash of `y` armed. -/
private def notY (s : CopyRun) (_ : CopyEvent) : Bool :=
  s.owed.all fun x => x.2 == .text "y" && s.thread.suppress != some (letterDigest [121])

theorem copies_forwarded_iff_other_text :
    ∃ s, Run (copyStep letterDigest .macos true) Always (.start .macos true ⟨.ofText "a", 1⟩) appliedThenCopied s ∧
      s.owed = [(1, .text "y")] ∧ s.AllForwarded := by
  obtain ⟨s, hr, hview⟩ := run_of_exec_checked (copyStep letterDigest .macos true) (fun s e => notY s e = true)
    (.start .macos true ⟨.ofText "a", 1⟩) appliedThenCopied (fun s => s.owed) [(1, .text "y")] (by decide +kernel)
  have hrun := hr.always
  refine ⟨s, hrun, hview, ?_⟩
  refine (copies_forwarded_iff letterDigest .macos true ⟨.ofText "a", 1⟩ hrun).2 (hr.mono ?_)
  intro s e hy _ _ x hx _
  have hboth := List.all_eq_true.1 hy x hx
  simp only [Bool.and_eq_true, beq_iff_eq, bne_iff_ne] at hboth
  rw [hboth.1]
  exact hboth.2

/-- The user copies `y` and then, again, the `x` that a peer had sent before: the hash of `x` is still armed. -/
theorem applied_text_copied_again :
    ¬ ∀ (sha256 : Bytes → Digest) (os : Platform) (images : Bool) (board : Board) (es : List CopyEvent) (s : CopyRun),
      Run (copyStep sha256 os images) Always (.start os images board) es s → s.AllForwarded := by
  intro hall
  obtain ⟨s, hr, hview⟩ := run_of_exec_view (copyStep letterDigest .macos true) (fun _ => True)
    (.start .macos true ⟨.ofText "a", 1⟩) (appliedThenCopied ++ [.copy (.ofText "x") 4, .poll])
    (fun s => (s.owed, s.forwarded, s.last)) ([(1, .text "y"), (2, .text "x")], [(1, .text "y")], .poll)
    (fun _ _ => trivial) (by decide +kernel)
  simp only [Prod.mk.injEq] at hview
  obtain ⟨howed, hforwarded, hlast⟩ := hview
  have hx := hall letterDigest .macos true ⟨.ofText "a", 1⟩ _ s hr.always (2, .text "x")
    (by rw [howed]; decide)
  rw [hforwarded, hlast] at hx
  rcases hx with hf | ⟨hcopy, -⟩
  · exact absurd hf (by decide)
  · cases hcopy

end Qdrop
