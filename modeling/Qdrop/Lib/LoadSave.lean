import Qdrop.Lib.Run
import Qdrop.Lib.Table

/-!
# Load, modify, save on a shared cell

Several processes update one cell without a lock: each operation reads the cell, computes the new value from what
it read, and replaces the cell later.  An operation may also find nothing to write.  Whatever the interleaving, the
cell holds the result of some of the completed operations, in the order of their completion (`exists_kept`): a save
throws away what was saved since its load.  When every save finds the cell as its operation read it, nothing is lost
(`serial_of_exclusive`).
-/

namespace Lib

variable {α β : Type}

/-- An operation between its load and its save. -/
structure InFlight (α β : Type) where
  op : β
  base : α
  result : α

/-- The cell, the operations between load and save, and the completed operations in the order of completion. -/
structure Shared (α β : Type) where
  cell : α
  inFlight : AList (fun _ : Nat => InFlight α β)
  done : List β

inductive Access (β : Type) where
  | load (w : Nat) (op : β)
  | save (w : Nat)
deriving DecidableEq, Repr

def Shared.start (a : α) : Shared α β := ⟨a, ∅, []⟩

/-- One step; `update a op` is what `op` writes after reading `a`. -/
def access (update : α → β → Option α) (s : Shared α β) : Access β → Option (Shared α β)
  | .load w op =>
    if (s.inFlight.lookup w).isSome then none
    else match update s.cell op with
      | none => some { s with done := s.done ++ [op] }
      | some r => some { s with inFlight := s.inFlight.insert w ⟨op, s.cell, r⟩ }
  | .save w =>
    match s.inFlight.lookup w with
    | none => none
    | some f => some ⟨f.result, s.inFlight.erase w, s.done ++ [f.op]⟩

/-- The operations applied one after another. -/
def serially (update : α → β → Option α) (a : α) (ops : List β) : α :=
  ops.foldl (fun a op => (update a op).getD a) a

/-- A save finds the cell as its operation read it. -/
def Exclusive (s : Shared α β) : Access β → Prop
  | .load _ _ => True
  | .save w => ∀ f ∈ s.inFlight.lookup w, s.cell = f.base

instance [DecidableEq α] (s : Shared α β) : (e : Access β) → Decidable (Exclusive s e)
  | .load _ _ => inferInstanceAs (Decidable True)
  | .save w => inferInstanceAs (Decidable (∀ f ∈ s.inFlight.lookup w, s.cell = f.base))

variable {update : α → β → Option α} {a : α}

theorem serially_cons (op : β) (ops : List β) :
    serially update a (op :: ops) = serially update ((update a op).getD a) ops := rfl

theorem serially_append (ops ops' : List β) :
    serially update a (ops ++ ops') = serially update (serially update a ops) ops' :=
  List.foldl_append ..

theorem serially_snoc (ops : List β) (op : β) :
    serially update a (ops ++ [op]) = (update (serially update a ops) op).getD (serially update a ops) := by
  rw [serially_append]
  rfl

/-- Operations in flight were computed from what they read. -/
private def Computed (update : α → β → Option α) (s : Shared α β) : Prop :=
  ∀ w f, s.inFlight.lookup w = some f → update f.base f.op = some f.result

private theorem computed_access {s t : Shared α β} {e : Access β} (h : Computed update s)
    (hs : access update s e = some t) : Computed update t := by
  cases e with
  | load w op =>
    simp only [access] at hs
    split at hs
    · cases hs
    · split at hs
      · cases hs
        exact h
      · rename_i r hr
        cases hs
        intro v f hv
        rcases lookup_insert_eq_some.1 hv with ⟨rfl, rfl⟩ | ⟨-, hv⟩
        · exact hr
        · exact h v f hv
  | save w =>
    simp only [access] at hs
    split at hs
    · cases hs
    · cases hs
      intro v f hv
      obtain ⟨-, hv⟩ := lookup_erase_eq_some.1 hv
      exact h v f hv

/-- `b` is the result of some of the operations `done`, in this order. -/
private def Kept (update : α → β → Option α) (a : α) (done : List β) (b : α) : Prop :=
  ∃ kept, kept.Sublist done ∧ b = serially update a kept

private theorem Kept.grow {done : List β} {b : α} (h : Kept update a done b) (op : β) :
    Kept update a (done ++ [op]) b := by
  obtain ⟨kept, hsub, heq⟩ := h
  exact ⟨kept, hsub.trans (List.sublist_append_left _ _), heq⟩

private theorem Kept.snoc {done : List β} {b c : α} {op : β} (h : Kept update a done b)
    (hc : update b op = some c) : Kept update a (done ++ [op]) c := by
  obtain ⟨kept, hsub, rfl⟩ := h
  exact ⟨kept ++ [op], hsub.append (List.Sublist.refl _), by rw [serially_snoc, hc]; rfl⟩

/-- Whatever the interleaving, the cell holds the result of some of the completed operations. -/
theorem exists_kept {es : List (Access β)} {s : Shared α β}
    (hr : Run (access update) Always (Shared.start a) es s) :
    ∃ kept, kept.Sublist s.done ∧ s.cell = serially update a kept := by
  -- the operations in flight have read such a result too
  have h : Computed update s ∧ Kept update a s.done s.cell ∧
      ∀ w f, s.inFlight.lookup w = some f → Kept update a s.done f.base := by
    refine hr.invariant (I := fun s => Computed update s ∧ Kept update a s.done s.cell ∧
      ∀ w f, s.inFlight.lookup w = some f → Kept update a s.done f.base)
      ⟨fun w f h => (by cases h), ⟨[], List.Sublist.refl _, rfl⟩, fun w f h => (by cases h)⟩ ?_
    rintro s e t ⟨hcomp, hcell, hbase⟩ - hs
    refine ⟨computed_access hcomp hs, ?_⟩
    cases e with
    | load w op =>
      simp only [access] at hs
      split at hs
      · cases hs
      · split at hs
        · cases hs
          exact ⟨hcell.grow op, fun v f hv => (hbase v f hv).grow op⟩
        · cases hs
          refine ⟨hcell, fun v f hv => ?_⟩
          rcases lookup_insert_eq_some.1 hv with ⟨rfl, rfl⟩ | ⟨-, hv⟩
          · exact hcell
          · exact hbase v f hv
    | save w =>
      simp only [access] at hs
      split at hs
      · cases hs
      · rename_i f hf
        cases hs
        refine ⟨(hbase w f hf).snoc (hcomp w f hf), fun v g hv => ?_⟩
        obtain ⟨-, hv⟩ := lookup_erase_eq_some.1 hv
        exact (hbase v g hv).grow f.op
  exact h.2.1

/-- When every save finds the cell as its operation read it, the cell holds the result of all operations. -/
theorem serial_of_exclusive {es : List (Access β)} {s : Shared α β}
    (hr : Run (access update) Exclusive (Shared.start a) es s) : s.cell = serially update a s.done := by
  have h : Computed update s ∧ s.cell = serially update a s.done := by
    refine hr.invariant (I := fun s => Computed update s ∧ s.cell = serially update a s.done)
      ⟨fun w f h => (by cases h), rfl⟩ ?_
    rintro s e t ⟨hcomp, hcell⟩ hex hs
    refine ⟨computed_access hcomp hs, ?_⟩
    cases e with
    | load w op =>
      simp only [access] at hs
      split at hs
      · cases hs
      · split at hs
        · rename_i hnone
          cases hs
          rw [serially_snoc, ← hcell, hnone]
          rfl
        · cases hs
          exact hcell
    | save w =>
      simp only [access] at hs
      split at hs
      · cases hs
      · rename_i f hf
        cases hs
        rw [serially_snoc, ← hcell, hex f hf, hcomp w f hf]
        rfl
  exact h.2

end Lib
