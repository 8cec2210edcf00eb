import Mathlib.Algebra.BigOperators.Group.Finset.Basic
import Mathlib.Data.Fintype.BigOperators

/-!
# Rejection sampling

Draws are taken until `f` accepts one, and what `f` makes of that draw is the sample.  When every value has the same
number of accepted draws, the sample is uniform: on the streams of any length, each value is sampled equally often
(`card_streams_mul`).
-/

namespace Lib.Rejection

open Finset

variable {α β : Type} {f : α → Option β} {k m : Nat} {b c : β}

theorem findSome_cons (a : α) (w : Fin k → α) :
    (List.ofFn (Fin.cons a w : Fin (k + 1) → α)).findSome? f = (f a).or ((List.ofFn w).findSome? f) := by
  rw [List.ofFn_succ, List.findSome?_cons]
  simp only [Fin.cons_zero, Fin.cons_succ]
  cases f a <;> rfl

variable [Fintype α]

/-- The streams of `k` draws on which one is accepted. -/
def finished (f : α → Option β) (k : Nat) : Finset (Fin k → α) :=
  univ.filter fun w => ((List.ofFn w).findSome? f).isSome = true

theorem mem_finished {w : Fin k → α} : w ∈ finished f k ↔ ((List.ofFn w).findSome? f).isSome = true := by
  simp [finished]

variable [DecidableEq β]

/-- The draws that `f` sends to `r`. -/
def fiber (f : α → Option β) (r : Option β) : Finset α := univ.filter fun a => f a = r

theorem mem_fiber {r : Option β} {a : α} : a ∈ fiber f r ↔ f a = r := by
  simp [fiber]

/-- The streams of `k` draws whose first accepted one gives `r`. -/
def streams (f : α → Option β) (k : Nat) (r : Option β) : Finset (Fin k → α) :=
  univ.filter fun w => (List.ofFn w).findSome? f = r

theorem mem_streams {r : Option β} {w : Fin k → α} : w ∈ streams f k r ↔ (List.ofFn w).findSome? f = r := by
  simp [streams]

/-- No sample is taken when every draw is one to reject. -/
theorem card_streams_none (f : α → Option β) (k : Nat) : (streams f k none).card = (fiber f none).card ^ k := by
  induction k with
  | zero => simp [streams]
  | succ k ih =>
    have hsucc : streams f (k + 1) none =
        (fiber f none ×ˢ streams f k none).map (Fin.consEquiv fun _ => α).toEmbedding := by
      ext w
      obtain ⟨⟨a, w⟩, rfl⟩ := (Fin.consEquiv fun _ => α).surjective w
      simp only [mem_map_equiv, Equiv.symm_apply_apply, mem_product]
      rw [mem_streams, mem_streams]
      show (List.ofFn (Fin.cons a w : Fin (k + 1) → α)).findSome? f = none ↔ _
      rw [findSome_cons, mem_fiber, Option.or_eq_none_iff]
    rw [hsucc, card_map, card_product, ih, pow_succ, mul_comm]

variable [DecidableEq α]

/-- Either the first draw is accepted, or it is one to reject and the others are looked at. -/
theorem streams_succ (f : α → Option β) (k : Nat) (b : β) :
    streams f (k + 1) (some b) = ((fiber f (some b) ×ˢ (univ : Finset (Fin k → α))) ∪
      (fiber f none ×ˢ streams f k (some b))).map (Fin.consEquiv fun _ => α).toEmbedding := by
  ext w
  obtain ⟨⟨a, w⟩, rfl⟩ := (Fin.consEquiv fun _ => α).surjective w
  simp only [mem_map_equiv, Equiv.symm_apply_apply, mem_union, mem_product, mem_univ, and_true]
  rw [mem_streams, mem_streams]
  show (List.ofFn (Fin.cons a w : Fin (k + 1) → α)).findSome? f = some b ↔ _
  rw [findSome_cons, mem_fiber, mem_fiber, Option.or_eq_some_iff]

theorem card_streams_succ (f : α → Option β) (k : Nat) (b : β) :
    (streams f (k + 1) (some b)).card =
      (fiber f (some b)).card * Fintype.card α ^ k + (fiber f none).card * (streams f k (some b)).card := by
  have hdisj : Disjoint (fiber f (some b) ×ˢ (univ : Finset (Fin k → α))) (fiber f none ×ˢ streams f k (some b)) := by
    rw [disjoint_left]
    rintro ⟨a, w⟩ h h'
    have hsome := mem_fiber.1 (mem_product.1 h).1
    rw [mem_fiber.1 (mem_product.1 h').1] at hsome
    cases hsome
  rw [streams_succ, card_map, card_union_of_disjoint hdisj, card_product, card_product, card_univ, Fintype.card_fun,
    Fintype.card_fin]

/-- Values with equally many draws are sampled on equally many streams. -/
theorem card_streams_eq (h : (fiber f (some b)).card = (fiber f (some c)).card) (k : Nat) :
    (streams f k (some b)).card = (streams f k (some c)).card := by
  induction k with
  | zero => simp [streams]
  | succ k ih => rw [card_streams_succ, card_streams_succ, h, ih]

/-- Where every value of `V` has equally many draws and there are no other values, one of `V.card` streams on which a
sample is taken gives `b`. -/
theorem card_streams_mul {V : Finset β} (hV : ∀ a b, f a = some b → b ∈ V)
    (hfiber : ∀ b ∈ V, (fiber f (some b)).card = m) (hb : b ∈ V) (k : Nat) :
    (streams f k (some b)).card * V.card = (finished f k).card := by
  have hmem : ∀ c, ∀ w ∈ streams f k (some c), c ∈ V := by
    intro c w hw
    obtain ⟨l, a, l', -, ha, -⟩ := List.findSome?_eq_some_iff.1 (mem_streams.1 hw)
    exact hV a c ha
  have hunion : finished f k = V.biUnion fun c => streams f k (some c) := by
    ext w
    rw [mem_finished, Option.isSome_iff_exists, mem_biUnion]
    constructor
    · rintro ⟨c, hc⟩
      exact ⟨c, hmem c w (mem_streams.2 hc), mem_streams.2 hc⟩
    · rintro ⟨c, -, hc⟩
      exact ⟨c, mem_streams.1 hc⟩
  have hdisj : Set.PairwiseDisjoint (V : Set β) fun c => streams f k (some c) := by
    intro c _ d _ hne
    rw [Function.onFun, disjoint_left]
    intro w hc hd
    exact hne (Option.some.inj ((mem_streams.1 hc).symm.trans (mem_streams.1 hd)))
  have hsame : ∀ c ∈ V, (streams f k (some c)).card = (streams f k (some b)).card :=
    fun c hc => card_streams_eq ((hfiber c hc).trans (hfiber b hb).symm) k
  rw [hunion, card_biUnion hdisj, sum_const_nat hsame, mul_comm]

end Lib.Rejection
