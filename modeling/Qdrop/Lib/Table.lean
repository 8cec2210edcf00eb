import Mathlib.Data.Finset.Basic
import Mathlib.Data.List.AList

/-!
# Tables

What a lookup finds in a table in which one entry was put in or taken out, and how many keys the table then has.
-/

namespace Lib

variable {α β : Type} [DecidableEq α] {m : AList fun _ : α => β} {k k' : α} {v w : β}

/-- A lookup finds the new value, or under another key what was there. -/
theorem lookup_insert_eq_some : (m.insert k v).lookup k' = some w ↔ k' = k ∧ w = v ∨ k' ≠ k ∧ m.lookup k' = some w := by
  by_cases h : k' = k
  · subst h
    rw [AList.lookup_insert]
    simp [eq_comm]
  · rw [AList.lookup_insert_ne h]
    simp [h]

/-- A lookup finds what was there under another key. -/
theorem lookup_erase_eq_some : (m.erase k).lookup k' = some w ↔ k' ≠ k ∧ m.lookup k' = some w := by
  by_cases h : k' = k
  · subst h
    rw [AList.lookup_erase]
    simp
  · rw [AList.lookup_erase_ne h]
    simp [h]

theorem length_keys_insert_le (m : AList fun _ : α => β) (k : α) (v : β) :
    (m.insert k v).keys.length ≤ m.keys.length + 1 := by
  have hle : (m.keys.erase k).length ≤ m.keys.length := List.length_erase_le
  rw [AList.keys_insert, List.length_cons]
  omega

/-- Replacing a value keeps the number of keys. -/
theorem length_keys_replace (hk : m.lookup k = some w) (v : β) : (m.insert k v).keys.length = m.keys.length := by
  have hmem : k ∈ m.keys := AList.mem_keys.1 (AList.lookup_isSome.1 (by rw [hk]; rfl))
  have hpos := List.length_pos_of_mem hmem
  rw [AList.keys_insert, List.length_cons, List.length_erase_of_mem hmem]
  omega

theorem length_keys_erase_le (m : AList fun _ : α => β) (k : α) : (m.erase k).keys.length ≤ m.keys.length := by
  rw [AList.keys_erase]
  exact List.length_erase_le

theorem toFinset_keys_insert (m : AList fun _ : α => β) (k : α) (v : β) :
    (m.insert k v).keys.toFinset = insert k m.keys.toFinset := by
  ext k'
  simp only [List.mem_toFinset, Finset.mem_insert, AList.mem_keys.symm, AList.mem_insert]

theorem toFinset_keys_erase (m : AList fun _ : α => β) (k : α) :
    (m.erase k).keys.toFinset = m.keys.toFinset.erase k := by
  ext k'
  simp only [List.mem_toFinset, Finset.mem_erase, AList.mem_keys.symm, AList.mem_erase]

end Lib
