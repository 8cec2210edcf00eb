import Mathlib.Data.List.AList
import Mathlib.Data.List.Induction
import Mathlib.Data.List.Nodup

/-!
# Lists of records with a key

A list in which no two records have the same key stands for a map from keys to records.  `put` is insertion with
replacement and filtering is removal; a lookup finds after them what a map would give (`find?_put`, `find?_filter`).
`indexBy` is the table that is filled from a list in one pass, a later record replacing an earlier one with its key.
-/

namespace Lib

variable {α κ : Type} {key : α → κ} {l l' : List α} {x y : α} {k : κ}

/-- No two records have the same key. -/
def Keyed (key : α → κ) (l : List α) : Prop := (l.map key).Nodup

namespace Keyed

theorem nil : Keyed key [] := List.nodup_nil

theorem filter (h : Keyed key l) (p : α → Bool) : Keyed key (l.filter p) :=
  List.Nodup.sublist (List.filter_sublist.map key) h

theorem perm (h : Keyed key l) (hp : l.Perm l') : Keyed key l' := (hp.map key).nodup_iff.1 h

/-- What is made of the records one by one is keyed if equal keys come from equal keys. -/
theorem filterMap {β κ' : Type} {key' : β → κ'} {f : α → Option β} (h : Keyed key l)
    (hf : ∀ x ∈ l, ∀ x' ∈ l, ∀ y y', f x = some y → f x' = some y' → key' y = key' y' → key x = key x') :
    Keyed key' (l.filterMap f) := by
  have hp : l.Pairwise fun x x' => key x ≠ key x' := List.pairwise_map.1 h
  refine List.pairwise_map.2 (List.pairwise_filterMap.2 (hp.imp_of_mem fun {x x'} hx hx' hne => ?_))
  exact fun y hy y' hy' heq => hne (hf x hx x' hx' y y' hy hy' heq)

/-- A record whose key no other has may be added. -/
theorem append_iff : Keyed key (l ++ [x]) ↔ Keyed key l ∧ ∀ y ∈ l, key y ≠ key x := by
  rw [Keyed, List.map_append, List.nodup_append, ← Keyed]
  simp

/-- Two records with one key are the same. -/
theorem eq_of_mem (h : Keyed key l) (hx : x ∈ l) (hy : y ∈ l) (hk : key x = key y) : x = y :=
  List.inj_on_of_nodup_map h hx hy hk

end Keyed

/-! ### Insertion and removal -/

variable [DecidableEq κ]

/-- `x` at the end, instead of the records with its key. -/
def put (key : α → κ) (l : List α) (x : α) : List α := l.filter (fun y => key y != key x) ++ [x]

theorem mem_put : y ∈ put key l x ↔ y ∈ l ∧ key y ≠ key x ∨ y = x := by
  simp [put]

theorem Keyed.put (h : Keyed key l) (x : α) : Keyed key (put key l x) := by
  refine Keyed.append_iff.2 ⟨h.filter _, fun y hy => ?_⟩
  simpa using (List.mem_filter.1 hy).2

/-- A lookup finds the one record with the key. -/
theorem find?_eq_some_iff (h : Keyed key l) : l.find? (fun y => key y == k) = some x ↔ x ∈ l ∧ key x = k := by
  constructor
  · intro hf
    exact ⟨List.mem_of_find?_eq_some hf, by simpa using List.find?_some hf⟩
  · rintro ⟨hx, rfl⟩
    cases hf : l.find? (fun y => key y == key x) with
    | none =>
      have hne := List.find?_eq_none.1 hf x hx
      simp at hne
    | some z =>
      have hz : key z = key x := by simpa using List.find?_some hf
      rw [h.eq_of_mem (List.mem_of_find?_eq_some hf) hx hz]

theorem find?_put (key : α → κ) (l : List α) (x : α) (k : κ) :
    (put key l x).find? (fun y => key y == k) = if k = key x then some x else l.find? (fun y => key y == k) := by
  rw [put, List.find?_append]
  by_cases hk : k = key x
  · have hnone : (l.filter fun y => key y != key x).find? (fun y => key y == k) = none := by
      refine List.find?_eq_none.2 fun y hy => ?_
      rw [hk]
      simpa using (List.mem_filter.1 hy).2
    rw [hnone]
    simp [hk]
  · have hx : (key x == k) = false := by simpa using fun he => hk he.symm
    have heq : (l.filter fun y => key y != key x).find? (fun y => key y == k) = l.find? (fun y => key y == k) := by
      rw [List.find?_filter]
      congr 1
      funext y
      by_cases hy : key y = k
      · simp [hy, hk]
      · simp [hy]
    rw [heq]
    simp [hk, hx]

/-- Removal of what does not satisfy `p`. -/
theorem find?_filter (h : Keyed key l) (p : α → Bool) (k : κ) :
    (l.filter p).find? (fun y => key y == k) = (l.find? (fun y => key y == k)).filter p := by
  refine Option.ext fun x => ?_
  rw [find?_eq_some_iff (h.filter p), List.mem_filter, Option.filter_eq_some_iff, find?_eq_some_iff h]
  tauto

/-! ### Tables filled from a list -/

/-- The table of the values of the records under their keys. -/
def indexBy {β : Type} (key : α → κ) (val : α → β) (l : List α) : AList fun _ : κ => β :=
  l.foldl (fun m x => m.insert (key x) (val x)) ∅

variable {β : Type} {val : α → β} {v : β}

theorem indexBy_append (key : α → κ) (val : α → β) (l : List α) (x : α) :
    indexBy key val (l ++ [x]) = (indexBy key val l).insert (key x) (val x) := by
  simp [indexBy]

/-- A table holds only values of its records. -/
theorem exists_of_lookup_indexBy (h : (indexBy key val l).lookup k = some v) : ∃ x ∈ l, key x = k ∧ val x = v := by
  induction l using List.reverseRecOn with
  | nil => cases h
  | append_singleton l x ih =>
    rw [indexBy_append] at h
    by_cases hk : k = key x
    · subst hk
      rw [AList.lookup_insert] at h
      exact ⟨x, by simp, rfl, Option.some.inj h⟩
    · rw [AList.lookup_insert_ne hk] at h
      obtain ⟨y, hy, hrest⟩ := ih h
      exact ⟨y, List.mem_append_left _ hy, hrest⟩

/-- A table has every key of its records. -/
theorem lookup_indexBy_isSome : ((indexBy key val l).lookup k).isSome ↔ ∃ x ∈ l, key x = k := by
  induction l using List.reverseRecOn with
  | nil => simp [indexBy]
  | append_singleton l x ih =>
    rw [indexBy_append]
    by_cases hk : k = key x
    · subst hk
      simp [AList.lookup_insert]
    · rw [AList.lookup_insert_ne hk, ih]
      simp [Ne.symm hk]

/-- The last record with a key is the one that is found. -/
theorem lookup_indexBy_last (hx : key x = k) (hl : ∀ y ∈ l', key y ≠ k) :
    (indexBy key val (l ++ x :: l')).lookup k = some (val x) := by
  induction l' using List.reverseRecOn with
  | nil => rw [indexBy_append, ← hx, AList.lookup_insert]
  | append_singleton l' y ih =>
    have hy : key y ≠ k := hl y (by simp)
    rw [← List.cons_append, ← List.append_assoc, indexBy_append, AList.lookup_insert_ne (Ne.symm hy)]
    exact ih fun z hz => hl z (List.mem_append_left _ hz)

/-- Where no two records have the same key, the table is the map. -/
theorem lookup_indexBy_iff (h : Keyed key l) :
    (indexBy key val l).lookup k = some v ↔ ∃ x ∈ l, key x = k ∧ val x = v := by
  refine ⟨exists_of_lookup_indexBy, ?_⟩
  rintro ⟨x, hx, rfl, rfl⟩
  have hsome : ((indexBy key val l).lookup (key x)).isSome := lookup_indexBy_isSome.2 ⟨x, hx, rfl⟩
  obtain ⟨w, hw⟩ := Option.isSome_iff_exists.1 hsome
  obtain ⟨y, hy, hk, rfl⟩ := exists_of_lookup_indexBy hw
  rw [hw, h.eq_of_mem hy hx hk]

end Lib
