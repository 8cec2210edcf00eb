import Mathlib.Data.List.Destutter
import Mathlib.Data.List.Sort
import Mathlib.Data.Prod.Lex

/-!
# Sorting, dropping repetitions, and sorting again by a key

A stable sort by a key of a list that is sorted already, with repetitions dropped from it, is in strictly increasing
order of key and element (`sortedByKey_strict`).  So it depends only on the set of the elements of the list
(`canonical_congr`).

The repetitions alone are what a ring drops that refuses the element of its front (`take_dedupAdjacent_cons`).
-/

namespace Lib

variable {α κ : Type}

/-- Stable sort. -/
def sorted [LinearOrder α] (l : List α) : List α := l.mergeSort fun a b => decide (a ≤ b)

/-- Stable sort by a key. -/
def sortedByKey [LinearOrder κ] (key : α → κ) (l : List α) : List α := l.mergeSort fun a b => decide (key a ≤ key b)

/-- Of equal elements next to each other the first is kept. -/
def dedupAdjacent [DecidableEq α] (l : List α) : List α := l.destutter (· ≠ ·)

def canonical [LinearOrder α] [LinearOrder κ] (key : α → κ) (l : List α) : List α :=
  sortedByKey key (dedupAdjacent (sorted l))

/-! ### A sort by a key -/

section Key

variable [LinearOrder κ]

theorem mem_sortedByKey {key : α → κ} {a : α} {l : List α} : a ∈ sortedByKey key l ↔ a ∈ l := List.mem_mergeSort

private theorem le_trans_decide (key : α → κ) (a b c : α) (hab : decide (key a ≤ key b) = true)
    (hbc : decide (key b ≤ key c) = true) : decide (key a ≤ key c) = true :=
  decide_eq_true ((of_decide_eq_true hab).trans (of_decide_eq_true hbc))

private theorem le_total_decide (key : α → κ) (a b : α) :
    (decide (key a ≤ key b) || decide (key b ≤ key a)) = true := by
  simpa using le_total (key a) (key b)

theorem sortedByKey_pairwise (key : α → κ) (l : List α) : (sortedByKey key l).Pairwise (key · ≤ key ·) :=
  (List.pairwise_mergeSort (le_trans_decide key) (le_total_decide key) l).imp of_decide_eq_true

/-- A stable sort keeps the order among the elements of one key. -/
theorem filter_sortedByKey (key : α → κ) (l : List α) (k : κ) :
    (sortedByKey key l).filter (fun a => decide (key a = k)) = l.filter fun a => decide (key a = k) := by
  have hsame : (l.filter fun a => decide (key a = k)).Pairwise fun a b => decide (key a ≤ key b) = true := by
    rw [List.pairwise_filter]
    refine List.pairwise_of_forall fun a b ha hb => ?_
    rw [of_decide_eq_true ha, of_decide_eq_true hb]
    exact decide_eq_true le_rfl
  have hsub := List.sublist_mergeSort (le_trans_decide key) (le_total_decide key) hsame List.filter_sublist
  have hfilter := hsub.filter fun a => decide (key a = k)
  rw [List.filter_filter] at hfilter
  simp only [Bool.and_self] at hfilter
  have hperm := (List.mergeSort_perm l fun a b => decide (key a ≤ key b)).filter fun a => decide (key a = k)
  exact (hfilter.eq_of_length hperm.length_eq.symm).symm

end Key

/-! ### Repetitions -/

section Repetitions

variable [DecidableEq α]

theorem dedupAdjacent_isChain (l : List α) : (dedupAdjacent l).IsChain (· ≠ ·) := List.isChain_destutter _ l

private theorem destutter'_head? {a : α} {l : List α} : (l.destutter' (· ≠ ·) a).head? = some a := by
  induction l with
  | nil => rfl
  | cons b l ih =>
    by_cases h : a = b
    · rw [List.destutter'_cons_neg _ (by simp [h])]
      exact ih
    · rw [List.destutter'_cons_pos _ h, List.head?_cons]

/-- An element is dropped when it is that of the front. -/
theorem dedupAdjacent_cons (a : α) (l : List α) :
    dedupAdjacent (a :: l) = if (dedupAdjacent l).head? = some a then dedupAdjacent l else a :: dedupAdjacent l := by
  cases l with
  | nil => rfl
  | cons b l =>
    have hhead : (dedupAdjacent (b :: l)).head? = some b := destutter'_head?
    rw [hhead]
    by_cases h : a = b
    · subst h
      rw [if_pos rfl]
      exact List.destutter'_cons_neg _ (by simp)
    · rw [if_neg fun he => h (Option.some.inj he).symm]
      exact List.destutter'_cons_pos _ h

/-- The first `n` elements are kept by a ring that refuses the element of its front. -/
theorem take_dedupAdjacent_cons (n : Nat) (a : α) (l : List α) :
    (dedupAdjacent (a :: l)).take n =
      if ((dedupAdjacent l).take n).head? = some a then (dedupAdjacent l).take n
      else (a :: (dedupAdjacent l).take n).take n := by
  cases n with
  | zero => simp
  | succ n =>
    have hhead : ((dedupAdjacent l).take (n + 1)).head? = (dedupAdjacent l).head? := by
      rw [List.head?_take, if_neg (Nat.succ_ne_zero n)]
    have htake : (a :: (dedupAdjacent l).take (n + 1)).take (n + 1) = (a :: dedupAdjacent l).take (n + 1) := by
      rw [List.take_succ_cons, List.take_succ_cons, List.take_take, Nat.min_eq_left (Nat.le_succ n)]
    rw [dedupAdjacent_cons, hhead, htake]
    split <;> rfl

end Repetitions

variable [LinearOrder α]

/-! ### Elements -/

theorem mem_sorted {a : α} {l : List α} : a ∈ sorted l ↔ a ∈ l := List.mem_mergeSort

private theorem mem_destutter' {a b : α} {l : List α} : a ∈ l.destutter' (· ≠ ·) b ↔ a ∈ b :: l := by
  induction l generalizing b with
  | nil => simp
  | cons c l ih =>
    by_cases h : b = c
    · subst h
      rw [List.destutter'_cons_neg _ (by simp), ih]
      simp
    · rw [List.destutter'_cons_pos _ h, List.mem_cons, ih, List.mem_cons (a := a) (b := b)]

theorem mem_dedupAdjacent {a : α} {l : List α} : a ∈ dedupAdjacent l ↔ a ∈ l := by
  cases l with
  | nil => rfl
  | cons b l => exact mem_destutter'

/-! ### Order -/

theorem sorted_pairwise (l : List α) : (sorted l).Pairwise (· ≤ ·) :=
  sortedByKey_pairwise id l

/-- In a sorted list all repetitions are next to each other. -/
theorem dedupAdjacent_strict {l : List α} (h : l.Pairwise (· ≤ ·)) : (dedupAdjacent l).Pairwise (· < ·) := by
  have hle : (dedupAdjacent l).IsChain (· ≤ ·) := (h.sublist (List.destutter_sublist _ l)).isChain
  have hne := dedupAdjacent_isChain l
  have hlt : (dedupAdjacent l).IsChain (· < ·) := by
    generalize dedupAdjacent l = q at hle hne
    induction hle with
    | nil => exact .nil
    | singleton a => exact .singleton a
    | cons_cons hab _ ih =>
      rw [List.isChain_cons_cons] at hne
      exact .cons_cons (lt_of_le_of_ne hab hne.1) (ih hne.2)
  exact hlt.pairwise

variable [LinearOrder κ]

/-- Strictly increasing in key and element. -/
def KeyLt (key : α → κ) (a b : α) : Prop := toLex (key a, a) < toLex (key b, b)

theorem sortedByKey_strict (key : α → κ) {l : List α} (h : l.Pairwise (· < ·)) :
    (sortedByKey key l).Pairwise (KeyLt key) := by
  rw [List.pairwise_iff_forall_sublist]
  intro a b hab
  have hkey : key a ≤ key b := List.pairwise_iff_forall_sublist.1 (sortedByKey_pairwise key l) hab
  rw [KeyLt, Prod.Lex.toLex_lt_toLex]
  rcases hkey.lt_or_eq with hlt | heq
  · exact Or.inl hlt
  · have hfilter := hab.filter fun c => decide (key c = key a)
    rw [filter_sortedByKey, List.filter_cons_of_pos (by simp), List.filter_cons_of_pos (by simp [heq]),
      List.filter_nil] at hfilter
    exact Or.inr ⟨heq, List.pairwise_iff_forall_sublist.1 (h.sublist List.filter_sublist) hfilter⟩

theorem mem_canonical {key : α → κ} {a : α} {l : List α} : a ∈ canonical key l ↔ a ∈ l := by
  rw [canonical, mem_sortedByKey, mem_dedupAdjacent, mem_sorted]

theorem canonical_strict (key : α → κ) (l : List α) : (canonical key l).Pairwise (KeyLt key) :=
  sortedByKey_strict key (dedupAdjacent_strict (sorted_pairwise l))

/-- Lists in strictly increasing order are determined by their elements. -/
theorem eq_of_strict {key : α → κ} {l l' : List α} (h : l.Pairwise (KeyLt key)) (h' : l'.Pairwise (KeyLt key))
    (hmem : ∀ a, a ∈ l ↔ a ∈ l') : l = l' := by
  have hirrefl : Std.Irrefl (KeyLt key) := ⟨fun _ => lt_irrefl _⟩
  have hanti : Std.Antisymm (KeyLt key) := ⟨fun _ _ hab hba => absurd hab (lt_asymm hba)⟩
  exact h.eq_of_mem_iff h' hmem

theorem nodup_of_strict {key : α → κ} {l : List α} (h : l.Pairwise (KeyLt key)) : l.Nodup :=
  h.imp fun hab => by
    rintro rfl
    exact lt_irrefl _ hab

/-- Only the set of the elements counts. -/
theorem canonical_congr (key : α → κ) {l l' : List α} (h : ∀ a, a ∈ l ↔ a ∈ l') : canonical key l = canonical key l' :=
  eq_of_strict (canonical_strict key l) (canonical_strict key l') fun a => by
    rw [mem_canonical, mem_canonical, h]

end Lib
