import Qdrop.Clipboard.History
import Qdrop.Lib.SortDedup

/-!
# Repeated contents in the clipboard history (`push` of `qdropd/src/history.rs`)

`push` compares a content with the newest entry only.  So the ring holds the last `max` recorded contents with immediate
repeats counted once (`hashes_are_last_distinct_neighbours`), and a content that is copied again after another one has
two entries (`alternating_copies_kept`).
-/

namespace Qdrop

open Lib DiskHistory

/-- The hash of what a call records. -/
def HistoryCall.contentHash? (sha256 : Bytes → Digest) (e : HistoryCall) : Option String :=
  e.recorded?.map fun r => hex (sha256 r.body.bytes)

/-- The hashes of the recorded contents, the oldest first. -/
def recordedHashes (sha256 : Bytes → Digest) (es : List HistoryCall) : List String :=
  es.filterMap (HistoryCall.contentHash? sha256)

namespace ClipHistory

variable {sha256 : Bytes → Digest} {max : Nat}

/-- The hashes of the entries, the newest first. -/
def hashes (c : ClipHistory) : List String := c.entries.map fun e => hex e.hash

theorem push_hashes (c : ClipHistory) (e : HistoryEntry) :
    (c.push e).hashes =
      if c.hashes.head? = some (hex e.hash) then c.hashes else (hex e.hash :: c.hashes).take c.max := by
  have hhead : c.entries.head?.any (·.hash == e.hash) = true ↔ c.hashes.head? = some (hex e.hash) := by
    cases hc : c.entries with
    | nil => simp [hashes, hc]
    | cons x l =>
      simp only [hashes, hc, List.map_cons, List.head?_cons, Option.any_some, beq_iff_eq, Option.some.injEq]
      exact ⟨congrArg hex, hex_inj⟩
  unfold push
  by_cases h : c.hashes.head? = some (hex e.hash)
  · rw [if_pos (hhead.2 h), if_pos h]
  · rw [if_neg fun hany => h (hhead.1 hany), if_neg h, hashes, List.map_take, List.map_cons]
    rfl

theorem call_max (c : ClipHistory) (e : HistoryCall) : (c.call sha256 e).max = c.max := by
  have hpush : ∀ he, (c.push he).max = c.max := by
    intro he
    unfold push
    split <;> rfl
  cases e with
  | recordText t origin now =>
    rw [call, recordText]
    split
    · rfl
    · exact hpush _
  | recordImage png origin now =>
    rw [call, recordImage]
    split
    · rfl
    · exact hpush _
  | restart pid => rfl

/-- Step lemma: a content goes to the front unless its hash is there, and a ring without slots stays empty. -/
theorem call_hashes {c : ClipHistory} (hlen : c.entries.length ≤ c.max) (e : HistoryCall) :
    (c.call sha256 e).hashes = match e.contentHash? sha256 with
      | some h => if c.hashes.head? = some h then c.hashes else (h :: c.hashes).take c.max
      | none => c.hashes := by
  have hoff : c.enabled = false → ∀ h,
      c.hashes = if c.hashes.head? = some h then c.hashes else (h :: c.hashes).take c.max := by
    intro henabled h
    have hmax : c.max = 0 := by simpa [enabled] using henabled
    have hnil : c.entries = [] := List.length_eq_zero_iff.1 (by omega)
    simp [hashes, hnil, hmax]
  cases e with
  | recordText t origin now =>
    by_cases ht : t = ""
    · simp [call, recordText, HistoryCall.contentHash?, HistoryCall.recorded?, ht]
    · have hcontent : (HistoryCall.recordText t origin now).contentHash? sha256 = some (hex (sha256 (asBytes t))) := by
        simp [HistoryCall.contentHash?, HistoryCall.recorded?, ht, Restored.bytes]
      rw [hcontent, call, recordText]
      split
      · rename_i hskip
        exact hoff (hskip.resolve_right ht) _
      · exact push_hashes c _
  | recordImage png origin now =>
    rw [call, recordImage]
    split
    · rename_i henabled
      exact hoff henabled _
    · exact push_hashes c _
  | restart pid =>
    simp [call, load, hashes, HistoryCall.contentHash?, HistoryCall.recorded?, List.take_of_length_le hlen]

/-- Run lemma. -/
theorem hashes_after (es : List HistoryCall) :
    (es.foldl (call sha256) ⟨max, []⟩).max = max ∧
      (es.foldl (call sha256) ⟨max, []⟩).hashes = (dedupAdjacent (recordedHashes sha256 es).reverse).take max := by
  induction es using List.reverseRecOn with
  | nil => simp [hashes, recordedHashes, dedupAdjacent]
  | append_singleton es e ih =>
    obtain ⟨hmax, hhashes⟩ := ih
    rw [List.foldl_append, List.foldl_cons, List.foldl_nil, recordedHashes, List.filterMap_append, List.reverse_append]
    generalize es.foldl (call sha256) ⟨max, []⟩ = c at hmax hhashes
    refine ⟨(call_max c e).trans hmax, ?_⟩
    have hlen : c.entries.length ≤ c.max := by
      have h := congrArg List.length hhashes
      rw [hashes, List.length_map, List.length_take] at h
      omega
    rw [call_hashes hlen, hhashes, hmax]
    cases hcontent : e.contentHash? sha256 with
    | none => simp [hcontent, recordedHashes]
    | some h =>
      have hlast : ([e].filterMap (HistoryCall.contentHash? sha256)).reverse = [h] := by simp [hcontent]
      rw [hlast, List.singleton_append, take_dedupAdjacent_cons]
      rfl

end ClipHistory

/-- An entry on disk has the hash of its list entry. -/
theorem Backed.hashes_eq {codec : HistoryCodec} {s : HistoryRun} {c : ClipHistory} (h : Backed codec s c) :
    s.history.entries.map (·.hash) = c.hashes := by
  have hshows := h.shows
  rw [ClipHistory.hashes]
  generalize s.history.entries = q, c.entries = l at hshows
  induction hshows with
  | nil => rfl
  | cons hhead _ ih => rw [List.map_cons, List.map_cons, hhead.hash, ih]

/-- From an empty directory, after any calls and restarts: the entries are the last `max` recorded contents, where a
content equal to the one recorded just before it is not counted, and entries next to each other have different
hashes. -/
theorem hashes_are_last_distinct_neighbours (codec : HistoryCodec) (fs : FileSys PathBuf) (dir : PathBuf)
    (max pid : Nat) (es : List HistoryCall) (hempty : EmptyDir fs dir)
    (hjson : ∀ pre, pre <+: es →
      codec.RoundTrips ((HistoryRun.start codec pid fs dir max).after codec pre).history.entries) :
    ((HistoryRun.start codec pid fs dir max).after codec es).history.entries.map (·.hash) =
        (dedupAdjacent (recordedHashes codec.sha256 es).reverse).take max ∧
      (((HistoryRun.start codec pid fs dir max).after codec es).history.entries.map (·.hash)).IsChain (· ≠ ·) := by
  have hbacked := (start_backed codec hempty pid max).after_backed es hjson
  have hhashes := hbacked.hashes_eq.trans (ClipHistory.hashes_after es).2
  refine ⟨hhashes, ?_⟩
  rw [hhashes]
  exact (dedupAdjacent_isChain _).take max

/-- A codec that decodes what the runs below write. -/
private def textCodec : HistoryCodec where
  sha256 := digestOf
  imageSize _ := none
  toVecPretty q := some (asBytes (prettyJson q))
  fromSlice bytes :=
    [[], [textA], [textB, textA], [textA, textB, textA], [textA, textB]].find? fun q => asBytes (prettyJson q) == bytes

/-- a, b and then a again. -/
private def alternating : List HistoryCall :=
  [.recordText "a" "peer" 2, .recordText "b" "peer" 3, .recordText "a" "peer" 2]

/-- The third copy is recorded and its repeat is not, and after a restart too. -/
theorem hashes_are_last_distinct_neighbours_alternating :
    ((HistoryRun.start textCodec 7 FileSys.empty "/h" 2).after textCodec
        (alternating ++ [.restart 8, .recordText "a" "local" 5])).history.entries.map (·.hash) =
      [textA.hash, textB.hash] := by
  have hempty : EmptyDir FileSys.empty "/h" := ⟨(fun _ h => by cases h), fun _ _ => rfl⟩
  have hjson : ∀ pre ∈ (alternating ++ [HistoryCall.restart 8, .recordText "a" "local" 5]).inits, textCodec.RoundTrips
      ((HistoryRun.start textCodec 7 FileSys.empty "/h" 2).after textCodec pre).history.entries := by
    decide +kernel
  obtain ⟨hhashes, -⟩ := hashes_are_last_distinct_neighbours textCodec FileSys.empty "/h" 2 7
    (alternating ++ [.restart 8, .recordText "a" "local" 5]) hempty
    fun pre hpre => hjson pre ((List.mem_inits _ _).2 hpre)
  rw [hhashes]
  decide +kernel

/-- Of three entries the first and the last have one hash. -/
theorem alternating_copies_kept :
    ¬ (((HistoryRun.start textCodec 7 FileSys.empty "/h" 25).after textCodec alternating).history.entries.map
      (·.hash)).Nodup := by
  decide +kernel

end Qdrop
