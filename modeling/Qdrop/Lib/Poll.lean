import Qdrop.Lib.Run

/-!
# Following a file by its modification time

A program reads a file once, later notes its modification time, and from then on compares the modification time at
every tick and reads the file again when it changed.  Others replace the file at any time, each with a modification
time of its own.  All of these are separate steps.  After two ticks without a write the program's copy is what the file
holds, and was announced, exactly if the last write did not fall between the first read and the first modification time
noted (`Poll.upToDate_iff`): a write that falls there is never seen.
-/

namespace Lib

variable {α β τ : Type}

inductive PollPhase (β τ : Type) where
  /-- The program has not started. -/
  | off
  /-- The file was read; its modification time has not been noted. -/
  | loaded
  /-- Waiting for the next tick. -/
  | waiting (last : τ)
  /-- The modification time differed from the last one. -/
  | changed (last : τ)
  | fetched (last : τ) (copy : β)
  | stored (last : τ)
deriving DecidableEq, Repr

structure Poll (α β τ : Type) where
  file : α
  mtime : τ
  /-- The modification times so far. -/
  mtimes : List τ
  phase : PollPhase β τ
  copy : Option β
  announced : List β
  /-- The ticks completed since the last write. -/
  quiet : Nat
  /-- The file was written after the program had read it first. -/
  written : Bool
  /-- The last write fell between the first read and the first modification time noted. -/
  missed : Bool

inductive PollEvent (α τ : Type) where
  | write (a : α) (mtime : τ)
  /-- The program reads the file first. -/
  | load
  /-- It notes the modification time first. -/
  | note
  /-- A tick: the modification time is compared with the last one. -/
  | check
  | fetch
  | store
  | announce
deriving DecidableEq, Repr

def Poll.start (a : α) (mtime : τ) : Poll α β τ := ⟨a, mtime, [mtime], .off, none, [], 0, false, false⟩

/-- One step; `read` makes a copy of what the file holds, or fails. -/
def pollStep [DecidableEq τ] (read : α → Option β) (s : Poll α β τ) : PollEvent α τ → Option (Poll α β τ)
  | .write a m =>
    if m ∈ s.mtimes then none
    else some { s with
      file := a
      mtime := m
      mtimes := m :: s.mtimes
      quiet := 0
      written := match s.phase with
        | .off => false
        | _ => true
      missed := match s.phase with
        | .loaded => true
        | _ => false }
  | .load =>
    match s.phase, read s.file with
    | .off, some copy => some { s with phase := .loaded, copy := some copy }
    | _, _ => none
  | .note =>
    match s.phase with
    | .loaded => some { s with phase := .waiting s.mtime }
    | _ => none
  | .check =>
    match s.phase with
    | .waiting last =>
      if s.mtime = last then some { s with quiet := s.quiet + 1 } else some { s with phase := .changed s.mtime }
    | _ => none
  | .fetch =>
    match s.phase with
    | .changed last =>
      match read s.file with
      | some copy => some { s with phase := .fetched last copy }
      -- the time is noted all the same
      | none => some { s with phase := .waiting last, quiet := s.quiet + 1 }
    | _ => none
  | .store =>
    match s.phase with
    | .fetched last copy => some { s with phase := .stored last, copy := some copy }
    | _ => none
  | .announce =>
    match s.phase with
    | .stored last =>
      some { s with phase := .waiting last, announced := s.announced ++ s.copy.toList, quiet := s.quiet + 1 }
    | _ => none

/-- Every read of the file succeeds. -/
def ReadsSucceed (read : α → Option β) (s : Poll α β τ) (e : PollEvent α τ) : Prop :=
  e = .load ∨ e = .fetch → (read s.file).isSome = true

/-- The copy is what the file holds, and it was announced if the file was written since it was first read. -/
def Poll.UpToDate (read : α → Option β) (s : Poll α β τ) : Prop :=
  s.copy = read s.file ∧ (s.written = true → s.announced.getLast? = s.copy)

/-! ### The invariant -/

/-- The program is in the middle of a tick: at most one was completed since the last write, and if one was, the time
noted is that of the file. -/
private structure MidTick (s : Poll α β τ) (last : τ) : Prop where
  noted : last ∈ s.mtimes
  seen : s.missed = false
  quiet : s.quiet ≤ 1
  current : s.quiet = 1 → last = s.mtime

/-- What is known in each phase. -/
private def Polled (read : α → Option β) (s : Poll α β τ) : Prop :=
  match s.phase with
  | .off => s.quiet = 0 ∧ s.written = false ∧ s.missed = false ∧ s.announced = []
  | .loaded =>
    s.quiet = 0 ∧ s.announced = [] ∧ s.missed = s.written ∧ s.copy.isSome = true ∧
      (s.written = false → s.copy = read s.file)
  | .waiting last =>
    last ∈ s.mtimes ∧ s.copy.isSome = true ∧
      (s.missed = true → last = s.mtime ∧ s.announced = [] ∧ s.written = true) ∧
      (s.missed = false → (last = s.mtime → s.UpToDate read) ∧ (2 ≤ s.quiet → last = s.mtime))
  | .changed last => MidTick s last ∧ s.copy.isSome = true
  | .fetched last copy => MidTick s last ∧ (last = s.mtime → some copy = read s.file)
  | .stored last => MidTick s last ∧ s.copy.isSome = true ∧ (last = s.mtime → s.copy = read s.file)

section Steps

variable [DecidableEq τ] {read : α → Option β} {s s' : Poll α β τ}

/-- A write in the middle of a tick leaves the tick with a time that is not that of the file. -/
private theorem MidTick.write {last m : τ} (h : MidTick s last) (hm : m ∉ s.mtimes) (s' : Poll α β τ)
    (hs : s'.mtimes = m :: s.mtimes ∧ s'.mtime = m ∧ s'.missed = false ∧ s'.quiet = 0) :
    MidTick s' last ∧ last ≠ s'.mtime := by
  obtain ⟨hmtimes, hmtime, hmissed, hquiet⟩ := hs
  have hne : last ≠ m := by
    rintro rfl
    exact hm h.noted
  refine ⟨⟨?_, hmissed, by omega, by omega⟩, by rw [hmtime]; exact hne⟩
  rw [hmtimes]
  exact List.mem_cons_of_mem _ h.noted

private theorem polled_write {a : α} {m : τ} (h : Polled read s) (hs : pollStep read s (.write a m) = some s') :
    Polled read s' := by
  simp only [pollStep] at hs
  split at hs
  · cases hs
  rename_i hm
  cases hs
  obtain ⟨file, mtime, mtimes, phase, copy, announced, quiet, written, missed⟩ := s
  cases phase with
  | off => exact ⟨rfl, rfl, rfl, h.2.2.2⟩
  | loaded =>
    obtain ⟨-, hann, -, hcopy, -⟩ := h
    exact ⟨rfl, hann, rfl, hcopy, fun hw => by cases hw⟩
  | waiting last =>
    obtain ⟨hnoted, hcopy, -, -⟩ := h
    -- the time noted is an old one
    have hne : last ≠ m := by
      rintro rfl
      exact hm hnoted
    exact ⟨List.mem_cons_of_mem _ hnoted, hcopy, (fun hmissed => by cases hmissed),
      fun _ => ⟨fun heq => absurd heq hne, fun hq => by cases hq⟩⟩
  | changed last =>
    obtain ⟨hmid, hcopy⟩ := h
    exact ⟨(hmid.write hm _ ⟨rfl, rfl, rfl, rfl⟩).1, hcopy⟩
  | fetched last b =>
    obtain ⟨hmid, -⟩ := h
    obtain ⟨hmid', hne⟩ := hmid.write hm ⟨a, m, m :: mtimes, .fetched last b, copy, announced, 0, true, false⟩
      ⟨rfl, rfl, rfl, rfl⟩
    exact ⟨hmid', fun heq => absurd heq hne⟩
  | stored last =>
    obtain ⟨hmid, hcopy, -⟩ := h
    obtain ⟨hmid', hne⟩ := hmid.write hm ⟨a, m, m :: mtimes, .stored last, copy, announced, 0, true, false⟩
      ⟨rfl, rfl, rfl, rfl⟩
    exact ⟨hmid', hcopy, fun heq => absurd heq hne⟩

/-- A tick compares the modification times. -/
private theorem polled_check (hcur : s.mtime ∈ s.mtimes) (h : Polled read s)
    (hs : pollStep read s .check = some s') : Polled read s' := by
  obtain ⟨file, mtime, mtimes, phase, copy, announced, quiet, written, missed⟩ := s
  simp only [pollStep] at hs
  split at hs
  · rename_i last
    obtain ⟨hnoted, hcopy, hmissed, hseen⟩ := h
    split at hs
    · rename_i heq
      cases hs
      exact ⟨hnoted, hcopy, hmissed, fun hm => ⟨(hseen hm).1, fun _ => heq.symm⟩⟩
    · rename_i hne
      cases hs
      have hm : missed = false := by
        cases missed with
        | false => rfl
        | true => exact absurd (hmissed rfl).1.symm hne
      have hq : quiet ≤ 1 := by
        rcases Nat.lt_or_ge 1 quiet with hgt | hle
        · exact absurd ((hseen hm).2 hgt).symm hne
        · exact hle
      exact ⟨⟨hcur, hm, hq, fun _ => rfl⟩, hcopy⟩
  · cases hs

/-- The rest of a tick. -/
private theorem polled_tick {e : PollEvent α τ} (he : e = .fetch ∨ e = .store ∨ e = .announce)
    (hok : ReadsSucceed read s e) (h : Polled read s) (hs : pollStep read s e = some s') : Polled read s' := by
  obtain ⟨file, mtime, mtimes, phase, copy, announced, quiet, written, missed⟩ := s
  rcases he with rfl | rfl | rfl
  · simp only [pollStep] at hs
    split at hs
    · obtain ⟨hmid, -⟩ := h
      split at hs
      · rename_i b hb
        cases hs
        exact ⟨⟨hmid.noted, hmid.seen, hmid.quiet, hmid.current⟩, fun _ => hb.symm⟩
      · rename_i hnone
        have hsome := hok (Or.inr rfl)
        rw [show read file = none from hnone] at hsome
        cases hsome
    · cases hs
  · simp only [pollStep] at hs
    split at hs
    · obtain ⟨hmid, hcopy⟩ := h
      cases hs
      exact ⟨⟨hmid.noted, hmid.seen, hmid.quiet, hmid.current⟩, rfl, hcopy⟩
    · cases hs
  · simp only [pollStep] at hs
    split at hs
    · obtain ⟨hmid, hsome, hcopy⟩ := h
      cases hs
      refine ⟨hmid.noted, hsome, fun hm => ?_, fun _ => ⟨fun heq => ⟨hcopy heq, fun _ => ?_⟩, fun hq => ?_⟩⟩
      · have hseen := hmid.seen
        rw [show missed = true from hm] at hseen
        cases hseen
      · obtain ⟨b, hb⟩ := Option.isSome_iff_exists.1 hsome
        obtain rfl : copy = some b := hb
        exact List.getLast?_concat
      · dsimp only at hq
        have hone : 1 ≤ quiet := by omega
        exact hmid.current (Nat.le_antisymm hmid.quiet hone)
    · cases hs

private theorem polled_step {e : PollEvent α τ} (hok : ReadsSucceed read s e)
    (h : s.mtime ∈ s.mtimes ∧ Polled read s) (hs : pollStep read s e = some s') :
    s'.mtime ∈ s'.mtimes ∧ Polled read s' := by
  obtain ⟨hcur, hpoll⟩ := h
  cases e with
  | write a m =>
    refine ⟨?_, polled_write hpoll hs⟩
    simp only [pollStep] at hs
    split at hs
    · cases hs
    · cases hs
      exact List.mem_cons_self
  | load =>
    obtain ⟨file, mtime, mtimes, phase, copy, announced, quiet, written, missed⟩ := s
    simp only [pollStep] at hs
    split at hs
    · rename_i b hb
      cases hs
      obtain ⟨hquiet, hwritten, hmissed, hann⟩ := hpoll
      exact ⟨hcur, hquiet, hann, hmissed.trans hwritten.symm, rfl, fun _ => hb.symm⟩
    · cases hs
  | note =>
    obtain ⟨file, mtime, mtimes, phase, copy, announced, quiet, written, missed⟩ := s
    simp only [pollStep] at hs
    split at hs
    · cases hs
      obtain ⟨hquiet, hann, hmissed, hcopy, hfile⟩ := hpoll
      refine ⟨hcur, hcur, hcopy, fun hm => ⟨rfl, hann, hmissed.symm.trans hm⟩, fun hm => ⟨fun _ => ?_, fun _ => rfl⟩⟩
      have hw : written = false := hmissed.symm.trans hm
      exact ⟨hfile hw, fun hw' => by rw [show written = true from hw'] at hw; cases hw⟩
    · cases hs
  | check =>
    refine ⟨?_, polled_check hcur hpoll hs⟩
    simp only [pollStep] at hs
    split at hs
    · split at hs <;> cases hs <;> exact hcur
    · cases hs
  | fetch =>
    refine ⟨?_, polled_tick (Or.inl rfl) hok hpoll hs⟩
    simp only [pollStep] at hs
    split at hs
    · split at hs <;> cases hs <;> exact hcur
    · cases hs
  | store =>
    refine ⟨?_, polled_tick (Or.inr (Or.inl rfl)) hok hpoll hs⟩
    simp only [pollStep] at hs
    split at hs
    · cases hs
      exact hcur
    · cases hs
  | announce =>
    refine ⟨?_, polled_tick (Or.inr (Or.inr rfl)) hok hpoll hs⟩
    simp only [pollStep] at hs
    split at hs
    · cases hs
      exact hcur
    · cases hs

end Steps

/-- After two ticks without a write the copy is up to date, in every run whose reads succeed, exactly if the last write
did not fall between the first read and the first modification time noted. -/
theorem Poll.upToDate_iff [DecidableEq τ] {read : α → Option β} {a : α} {m : τ} {es : List (PollEvent α τ)}
    {s : Poll α β τ} (hr : Run (pollStep read) (ReadsSucceed read) (Poll.start a m) es s) (hquiet : 2 ≤ s.quiet) :
    s.UpToDate read ↔ s.missed = false := by
  have h : s.mtime ∈ s.mtimes ∧ Polled read s := by
    refine hr.invariant (I := fun s => s.mtime ∈ s.mtimes ∧ Polled read s)
      ⟨List.mem_singleton_self m, rfl, rfl, rfl, rfl⟩ ?_
    exact fun _ _ _ h hok hs => polled_step hok h hs
  obtain ⟨file, mtime, mtimes, phase, copy, announced, quiet, written, missed⟩ := s
  obtain ⟨-, hpoll⟩ := h
  dsimp only at hquiet ⊢
  cases phase with
  | off =>
    obtain ⟨hq, -⟩ := hpoll
    dsimp only at hq
    omega
  | loaded =>
    obtain ⟨hq, -⟩ := hpoll
    dsimp only at hq
    omega
  | waiting last =>
    obtain ⟨-, hcopy, hmissed, hseen⟩ := hpoll
    constructor
    · rintro ⟨-, hann⟩
      cases missed with
      | false => rfl
      | true =>
        -- the last write was never announced
        obtain ⟨-, hnone, hw⟩ := hmissed rfl
        have heq := hann hw
        rw [hnone] at heq
        rw [← heq] at hcopy
        cases hcopy
    · intro hm
      exact (hseen hm).1 ((hseen hm).2 hquiet)
  | changed last =>
    have hq := hpoll.1.quiet
    dsimp only at hq
    omega
  | fetched last b =>
    have hq := hpoll.1.quiet
    dsimp only at hq
    omega
  | stored last =>
    have hq := hpoll.1.quiet
    dsimp only at hq
    omega

end Lib
