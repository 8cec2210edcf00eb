import Mathlib.Algebra.Order.Ring.Int
import Mathlib.Data.List.Induction
import Mathlib.Tactic.Linarith

/-!
# A rate limit in front of slow work

A gate admits work when `gap` has passed since it admitted work the last time, and what it admits is sent at some later
time or dropped, before anything else is admitted.  Two times of sending may be as close as one likes (the first
may have been slow), but `n` of them in a row span the time of `n - 2` gaps (`Paced`), so in every window of time
there are at most two more than its gaps (`Paced.window`).
-/

namespace Lib

/-- How many of the times are `a` or later. -/
def since (a : Int) (sent : List Int) : Nat := sent.countP fun x => decide (a ≤ x)

/-- Up to every time of sending, the times from `a` on are at most two more than the gaps since `a`. -/
def Paced (gap : Int) (sent : List Int) : Prop :=
  ∀ before x, before ++ [x] <+: sent → ∀ a ≤ x, since a (before ++ [x]) * gap ≤ x - a + 2 * gap

theorem since_snoc (a x : Int) (sent : List Int) : since a (sent ++ [x]) = since a sent + if a ≤ x then 1 else 0 := by
  simp [since, List.countP_append, List.countP_singleton]

/-- Where something was sent, something was sent. -/
private theorem exists_of_since {a : Int} {sent : List Int} (h : 1 ≤ since a sent) : ∃ x ∈ sent, a ≤ x := by
  obtain ⟨x, hx, ha⟩ := List.countP_pos_iff.1 (show 0 < since a sent from h)
  exact ⟨x, hx, by simpa using ha⟩

theorem paced_nil (gap : Int) : Paced gap [] := by
  intro before x h
  have hlen := h.length_le
  simp at hlen

theorem Paced.snoc {gap x : Int} {sent : List Int} (h : Paced gap sent)
    (hx : ∀ a ≤ x, since a (sent ++ [x]) * gap ≤ x - a + 2 * gap) : Paced gap (sent ++ [x]) := by
  intro before y hprefix
  rcases List.prefix_concat_iff.1 hprefix with heq | hold
  · obtain ⟨-, hxy⟩ := List.append_inj' heq rfl
    cases hxy
    rw [heq]
    exact hx
  · exact h before y hold

/-- A window of time holds at most two more times than it has gaps. -/
theorem Paced.window {gap a b : Int} (hgap : 0 ≤ gap) (hab : a ≤ b) {sent : List Int} (h : Paced gap sent) :
    (sent.countP fun x => decide (a ≤ x ∧ x ≤ b)) * gap ≤ b - a + 2 * gap := by
  induction sent using List.reverseRecOn with
  | nil =>
    rw [List.countP_nil]
    push_cast
    linarith
  | append_singleton sent x ih =>
    have hold : Paced gap sent := fun before y hy => h before y (hy.trans (List.prefix_append sent [x]))
    by_cases hx : a ≤ x ∧ x ≤ b
    · -- `x` is in the window, so all of the window is among the times from `a` on up to `x`
      have hcount : ((sent ++ [x]).countP fun y => decide (a ≤ y ∧ y ≤ b)) ≤ since a (sent ++ [x]) := by
        refine List.countP_mono_left fun y _ hy => ?_
        have hy : a ≤ y ∧ y ≤ b := by simpa using hy
        simpa using hy.1
      have hmul : (((sent ++ [x]).countP fun y => decide (a ≤ y ∧ y ≤ b) : Nat) : Int) * gap ≤
          since a (sent ++ [x]) * gap :=
        mul_le_mul_of_nonneg_right (by exact_mod_cast hcount) hgap
      have hlast := h sent x (List.prefix_refl _) a hx.1
      linarith [hx.2]
    · have hsame : ((sent ++ [x]).countP fun y => decide (a ≤ y ∧ y ≤ b)) =
          sent.countP fun y => decide (a ≤ y ∧ y ≤ b) := by
        rw [List.countP_append, List.countP_singleton, if_neg (by simpa using hx), Nat.add_zero]
      rw [hsame]
      exact ih hold

/-- A gate: when it admitted work the last time, whether that work is still to be sent, and when it has sent. -/
structure Gate where
  now : Int
  last : Int
  busy : Bool
  sent : List Int

namespace Gate

/-- What happens at a gate. -/
inductive Step (gap : Int) (g : Gate) : Gate → Prop
  | wait (now : Int) (h : g.now ≤ now) : Step gap g ⟨now, g.last, g.busy, g.sent⟩
  | pass (busy : Bool) (h : g.last + gap ≤ g.now) : Step gap g ⟨g.now, g.now, busy, g.sent⟩
  | send (h : g.busy = true) : Step gap g ⟨g.now, g.last, false, g.sent ++ [g.now]⟩
  | drop : Step gap g ⟨g.now, g.last, false, g.sent⟩

/-- The invariant: what has been sent since `a` has used up the gaps up to the last admission, but two; but one while
that work is still to be sent. -/
structure Paces (gap : Int) (g : Gate) : Prop where
  past : g.last ≤ g.now
  sentPast : ∀ x ∈ g.sent, x ≤ g.now
  paced : Paced gap g.sent
  idle : ∀ a, 2 ≤ since a g.sent → a + since a g.sent * gap ≤ g.last + 2 * gap
  busy : g.busy = true → ∀ a, 1 ≤ since a g.sent → a + since a g.sent * gap ≤ g.last + gap

theorem paces_start {gap now last : Int} (h : last ≤ now) : Paces gap ⟨now, last, false, []⟩ where
  past := h
  sentPast x hx := by cases hx
  paced := paced_nil gap
  idle a ha := by cases ha
  busy hb := by cases hb

variable {gap : Int} {g g' : Gate}

private theorem Paces.pass (h : Paces gap g) (busy : Bool) (hgap : g.last + gap ≤ g.now) :
    Paces gap ⟨g.now, g.now, busy, g.sent⟩ where
  past := le_rfl
  sentPast := h.sentPast
  paced := h.paced
  idle a ha := by
    have hidle := h.idle a ha
    have hpast := h.past
    show a + since a g.sent * gap ≤ g.now + 2 * gap
    linarith
  busy _ a ha := by
    show a + since a g.sent * gap ≤ g.now + gap
    by_cases htwo : 2 ≤ since a g.sent
    · have hidle := h.idle a htwo
      linarith
    · have hone : since a g.sent = 1 := by
        have ha : 1 ≤ since a g.sent := ha
        omega
      obtain ⟨x, hx, hax⟩ := exists_of_since ha
      have hxnow := h.sentPast x hx
      rw [hone]
      push_cast
      linarith

private theorem Paces.send (h : Paces gap g) (hnonneg : 0 ≤ gap) (hbusy : g.busy = true) :
    Paces gap ⟨g.now, g.last, false, g.sent ++ [g.now]⟩ := by
  have hpast := h.past
  -- what had been sent before this, and the gap of this
  have hbefore : ∀ a, 1 ≤ since a g.sent → a + (since a g.sent + 1) * gap ≤ g.last + 2 * gap := by
    intro a ha
    have hb := h.busy hbusy a ha
    linarith
  have hnew : ∀ a ≤ g.now, since a (g.sent ++ [g.now]) = since a g.sent + 1 := by
    intro a ha
    rw [since_snoc, if_pos ha]
  refine ⟨hpast, ?_, h.paced.snoc ?_, ?_, fun hb => by cases hb⟩
  · intro x hx
    rcases List.mem_append.1 hx with hx | hx
    · exact h.sentPast x hx
    · exact le_of_eq (List.mem_singleton.1 hx)
  · intro a ha
    rw [hnew a ha]
    push_cast
    by_cases hone : 1 ≤ since a g.sent
    · have hb := hbefore a hone
      linarith
    · have hzero : since a g.sent = 0 := by omega
      rw [hzero]
      push_cast
      linarith
  · intro a ha
    have hanow : a ≤ g.now := by
      obtain ⟨x, hx, hax⟩ := exists_of_since (show 1 ≤ since a (g.sent ++ [g.now]) from le_trans (by omega) ha)
      rcases List.mem_append.1 hx with hx | hx
      · exact hax.trans (h.sentPast x hx)
      · exact List.mem_singleton.1 hx ▸ hax
    show a + (since a (g.sent ++ [g.now]) : Nat) * gap ≤ g.last + 2 * gap
    have ha : 2 ≤ since a (g.sent ++ [g.now]) := ha
    rw [hnew a hanow] at ha ⊢
    push_cast
    exact hbefore a (by omega)

/-- The step lemma: whatever happens, the gate keeps pace. -/
theorem Paces.step (h : Paces gap g) (hnonneg : 0 ≤ gap) (hs : Step gap g g') : Paces gap g' := by
  cases hs with
  | wait now hnow =>
    exact ⟨h.past.trans hnow, fun x hx => (h.sentPast x hx).trans hnow, h.paced, h.idle, h.busy⟩
  | pass busy hgap => exact h.pass busy hgap
  | send hbusy => exact h.send hnonneg hbusy
  | drop => exact ⟨h.past, h.sentPast, h.paced, h.idle, fun hb => by cases hb⟩

end Gate

end Lib
