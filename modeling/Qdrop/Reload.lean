import Qdrop.Lib.Poll
import Qdrop.Roster

/-!
# Reloading the trust roster (`spawn_roster_reload`, `real_main` in `qdropd/src/main.rs`)

The daemon loads `peers.toml` and builds the roster from it; a task notes the modification time of the file when it
starts, compares it every three seconds, and loads the file again when it changed.  A write that falls between the
load and the first time the task notes is never seen (`unpair_during_startup`); `roster_converges` says that it is
the only one.
-/

namespace Qdrop

open Lib

variable (decode : String → Option (List UInt8)) (resolver : Resolver)

/-- `Peers::load` and `Roster::from_peers`, or `Roster::load`. -/
def rosterOf (file : PeersFile) : Option RosterInner :=
  match file.load with
  | .ok doc => some (RosterInner.load decode resolver doc)
  | .error _ => none

/-- The daemon at start-up and its reload task, among writes of `peers.toml` by other processes.  The modification time
is `none` when there is no file. -/
abbrev reloadStep : Poll PeersFile RosterInner (Option Nat) → PollEvent PeersFile (Option Nat) →
    Option (Poll PeersFile RosterInner (Option Nat)) := pollStep (rosterOf decode resolver)

/-- For every interleaving of start-up, the ticks of the reload task and writes of `peers.toml`, each with a
modification time of its own, in which every load succeeds: when two ticks were completed since the last write, the
roster is that of the file's content and a change was signalled for it if the file was written since it was loaded,
exactly if the last write did not fall between the load at start-up and the first modification time noted. -/
theorem roster_converges (file : PeersFile) (mtime : Option Nat) {es : List (PollEvent PeersFile (Option Nat))}
    {s : Poll PeersFile RosterInner (Option Nat)}
    (hr : Run (reloadStep decode resolver) (ReadsSucceed (rosterOf decode resolver)) (.start file mtime) es s)
    (hquiet : 2 ≤ s.quiet) :
    (s.copy = rosterOf decode resolver s.file ∧ (s.written = true → s.announced.getLast? = s.copy)) ↔
      s.missed = false :=
  Poll.upToDate_iff hr hquiet

/-! ### Unpairing during start-up -/

/-- A decoder that takes every text for the same key. -/
private def decodeZero (_ : String) : Option (List UInt8) := some (List.replicate 32 0)

private def noResolver : Resolver := ⟨fun _ => none, fun _ => none, fun _ => none⟩

/-- `peers.toml` with the single entry `a`. -/
private def onlyA : PeersFile := .document ⟨[Peer.new (fun _ => "") "a" "a" (Vector.replicate 32 0)]⟩

/-- `a` is unpaired after the daemon has loaded the file and before the task starts. -/
private def unpairedEarly : List (PollEvent PeersFile (Option Nat)) :=
  [.load, .write (.document ⟨[]⟩) (some 1), .note, .check, .check]

theorem unpair_during_startup :
    ¬ ∀ (decode : String → Option (List UInt8)) (resolver : Resolver) (file : PeersFile) (mtime : Option Nat)
      (es : List (PollEvent PeersFile (Option Nat))) (s : Poll PeersFile RosterInner (Option Nat)),
      Run (reloadStep decode resolver) (ReadsSucceed (rosterOf decode resolver)) (.start file mtime) es s →
      2 ≤ s.quiet →
      s.copy = rosterOf decode resolver s.file ∧ (s.written = true → s.announced.getLast? = s.copy) := by
  intro h
  obtain ⟨s, hrun, hview⟩ := run_of_exec_checked (reloadStep decodeZero noResolver)
    (fun s _ => (rosterOf decodeZero noResolver s.file).isSome = true) (.start onlyA (some 0)) unpairedEarly
    (fun s => (s.quiet, s.copy.map (·.ids), (rosterOf decodeZero noResolver s.file).map (·.ids)))
    (2, some ["a"], some []) (by decide +kernel)
  simp only [Prod.mk.injEq] at hview
  obtain ⟨hquiet, hcopy, hfile⟩ := hview
  obtain ⟨heq, -⟩ := h _ _ _ _ _ s (hrun.mono fun _ _ hok _ => hok) (by omega)
  rw [heq, hfile] at hcopy
  cases hcopy

/-- `a` is unpaired while the task waits for a tick. -/
private def unpairedLater : List (PollEvent PeersFile (Option Nat)) :=
  [.load, .note, .check, .write (.document ⟨[]⟩) (some 1), .check, .fetch, .store, .announce, .check]

theorem roster_converges_unpaired :
    ∃ s, Run (reloadStep decodeZero noResolver) (ReadsSucceed (rosterOf decodeZero noResolver))
        (.start onlyA (some 0)) unpairedLater s ∧
      s.file = .document ⟨[]⟩ ∧ s.copy = rosterOf decodeZero noResolver s.file ∧ s.announced.getLast? = s.copy := by
  obtain ⟨s, hrun, hview⟩ := run_of_exec_checked (reloadStep decodeZero noResolver)
    (fun s _ => (rosterOf decodeZero noResolver s.file).isSome = true) (.start onlyA (some 0)) unpairedLater
    (fun s => (s.quiet, s.file, s.written, s.missed)) (2, .document ⟨[]⟩, true, false) (by decide +kernel)
  simp only [Prod.mk.injEq] at hview
  obtain ⟨hquiet, hfile, hwritten, hmissed⟩ := hview
  have hrun : Run (reloadStep decodeZero noResolver) (ReadsSucceed (rosterOf decodeZero noResolver))
      (.start onlyA (some 0)) unpairedLater s := hrun.mono fun _ _ hok _ => hok
  obtain ⟨hcopy, hann⟩ := (roster_converges decodeZero noResolver onlyA (some 0) hrun (by omega)).2 hmissed
  exact ⟨s, hrun, hfile, hcopy, hann hwritten⟩

end Qdrop
