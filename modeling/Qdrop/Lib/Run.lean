import Mathlib.Logic.Basic
import Mathlib.Tactic.ByContra

/-!
# Runs of a partial step function

A system is a type of states `σ`, a type of events `ε` and a partial step function `step : σ → ε → Option σ`
(`none`: the event is not enabled).  `Run step ok s es t` says that the events `es` lead from `s` to `t` and that
every step meets the condition `ok` in the state it is taken from; with `Always` as condition these are all runs.
The invariant rule `Run.invariant` reduces a statement about every state of every run to one about a single step,
and `exec` runs a concrete list of events.
-/

namespace Lib

variable {σ ε : Type}

/-- The condition every step meets. -/
def Always (_ : σ) (_ : ε) : Prop := True

/-- `Run step ok s es t`: the events `es` lead from `s` to `t`, each taken in a state where `ok` holds of it. -/
inductive Run (step : σ → ε → Option σ) (ok : σ → ε → Prop) : σ → List ε → σ → Prop
  | nil (s : σ) : Run step ok s [] s
  | snoc {s t u : σ} {es : List ε} {e : ε} :
      Run step ok s es t → ok t e → step t e = some u → Run step ok s (es ++ [e]) u

variable {step : σ → ε → Option σ} {ok ok' : σ → ε → Prop}

/-- The invariant rule: what holds at the start and is kept by every step that meets the condition holds in every
state reached. -/
theorem Run.invariant {I : σ → Prop} {s t : σ} {es : List ε} (hr : Run step ok s es t) (h₀ : I s)
    (hstep : ∀ s e t, I s → ok s e → step s e = some t → I t) : I t := by
  induction hr with
  | nil => exact h₀
  | snoc _ hok hs ih => exact hstep _ _ _ ih hok hs

theorem Run.mono {s t : σ} {es : List ε} (hr : Run step ok s es t) (h : ∀ s e, ok s e → ok' s e) :
    Run step ok' s es t := by
  induction hr with
  | nil => exact Run.nil _
  | snoc _ hok hs ih => exact Run.snoc ih (h _ _ hok) hs

theorem Run.always {s t : σ} {es : List ε} (hr : Run step ok s es t) : Run step Always s es t :=
  hr.mono fun _ _ _ => trivial

/-- Every event of a run is one of its list. -/
theorem Run.mem {s t : σ} {es : List ε} (hr : Run step ok s es t) :
    Run step (fun s e => ok s e ∧ e ∈ es) s es t := by
  induction hr with
  | nil => exact Run.nil _
  | @snoc t u es e _ hok hs ih =>
    refine Run.snoc (ih.mono ?_) ⟨hok, by simp⟩ hs
    rintro s' e' ⟨hok', hmem⟩
    exact ⟨hok', List.mem_append_left _ hmem⟩

theorem Run.trans {s t u : σ} {es fs : List ε} (h₁ : Run step ok s es t) (h₂ : Run step ok t fs u) :
    Run step ok s (es ++ fs) u := by
  induction h₂ with
  | nil => simpa using h₁
  | snoc _ hok hs ih =>
    rw [← List.append_assoc]
    exact Run.snoc ih hok hs

theorem Run.snoc_inv {s u : σ} {es : List ε} {e : ε} (hr : Run step ok s (es ++ [e]) u) :
    ∃ t, Run step ok s es t ∧ ok t e ∧ step t e = some u := by
  generalize hfs : es ++ [e] = fs at hr
  cases hr with
  | nil => simp at hfs
  | @snoc t _ es' e' hr hok hs =>
    obtain ⟨rfl, h⟩ := List.append_inj' hfs rfl
    obtain rfl : e = e' := by simpa using h
    exact ⟨t, hr, hok, hs⟩

theorem Run.unique {s t t' : σ} {es : List ε} (h : Run step ok s es t) (h' : Run step ok' s es t') : t = t' := by
  induction h generalizing t' with
  | nil =>
    generalize hes : ([] : List ε) = es at h'
    cases h' with
    | nil => rfl
    | snoc => simp at hes
  | snoc _ _ hs ih =>
    obtain ⟨v, hv, -, hs'⟩ := h'.snoc_inv
    rw [← ih hv, hs] at hs'
    exact Option.some.inj hs'

/-- A property that a step keeps exactly when it meets `ok'` holds at the end of a run exactly when all its steps
meet `ok'`; `I` is an invariant of the system. -/
theorem Run.iff_of_step {I P : σ → Prop} {s t : σ} {es : List ε} (hr : Run step ok s es t) (hI : I s) (hP : P s)
    (hinv : ∀ s e t, I s → step s e = some t → I t)
    (hstep : ∀ s e t, I s → step s e = some t → (P t ↔ P s ∧ ok' s e)) : P t ↔ Run step ok' s es t := by
  induction hr with
  | nil => exact iff_of_true hP (Run.nil _)
  | @snoc t u es e hr _ hs ih =>
    rw [hstep t e u (hr.invariant hI fun s e t hs _ => hinv s e t hs) hs, ih]
    constructor
    · rintro ⟨h, hok⟩
      exact h.snoc hok hs
    · intro h
      obtain ⟨t', ht', hok, -⟩ := h.snoc_inv
      obtain rfl := hr.unique ht'
      exact ⟨ht', hok⟩

/-- A run passes through a state after each of its events. -/
theorem Run.split {s t : σ} {es fs : List ε} (hr : Run step ok s (es ++ fs) t) :
    ∃ u, Run step ok s es u ∧ Run step ok u fs t := by
  induction fs generalizing es with
  | nil =>
    rw [List.append_nil] at hr
    exact ⟨t, hr, Run.nil t⟩
  | cons f fs ih =>
    rw [List.append_cons] at hr
    obtain ⟨v, hv, hrest⟩ := ih hr
    obtain ⟨u, hu, hok, hs⟩ := hv.snoc_inv
    exact ⟨u, hu, ((Run.nil u).snoc hok hs).trans hrest⟩

/-- `P` holds in every state a run with the events `es` passes through. -/
def Throughout (step : σ → ε → Option σ) (P : σ → Prop) (s : σ) (es : List ε) : Prop :=
  ∀ pre post u, es = pre ++ post → Run step Always s pre u → P u

/-- Where a step keeps `P` exactly when it meets `ok'`, `P` holds throughout a run exactly when all its steps meet
`ok'`; `I` is an invariant of the system. -/
theorem Run.throughout_iff {I P : σ → Prop} {s t : σ} {es : List ε} (hr : Run step Always s es t) (hI : I s)
    (hP : P s) (hinv : ∀ s e t, I s → step s e = some t → I t)
    (hstep : ∀ s e t, I s → P s → step s e = some t → (P t ↔ ok' s e)) :
    Throughout step P s es ↔ Run step ok' s es t := by
  constructor
  · intro h
    induction hr with
    | nil => exact Run.nil _
    | @snoc t u es e hr _ hs ih =>
      have hbefore : Throughout step P s es := by
        rintro pre post v rfl hv
        exact h pre (post ++ [e]) v (List.append_assoc ..) hv
      have hIt : I t := hr.invariant hI fun s e t hs _ => hinv s e t hs
      have hPt : P t := h es [e] t rfl hr
      have hPu : P u := h (es ++ [e]) [] u (List.append_nil _).symm (hr.snoc trivial hs)
      exact (ih hbefore).snoc ((hstep t e u hIt hPt hs).1 hPu) hs
  · rintro h pre post u rfl hu
    obtain ⟨v, hv, -⟩ := h.split
    obtain rfl := hu.unique hv
    have hboth := hv.invariant (I := fun s => I s ∧ P s) ⟨hI, hP⟩ fun s e t hs hok hst =>
      ⟨hinv s e t hs.1 hst, (hstep s e t hs.1 hs.2 hst).2 hok⟩
    exact hboth.2

/-- `Q` holds of every step of a run with the events `es`. -/
def EveryStep (step : σ → ε → Option σ) (Q : σ → ε → σ → Prop) (s : σ) (es : List ε) : Prop :=
  ∀ pre e post u v, es = pre ++ e :: post → Run step Always s pre u → step u e = some v → Q u e v

/-- Where `Q` holds of a step exactly when it meets `ok'`, it holds of every step of a run exactly when all its steps
meet `ok'`; `I` is an invariant of the steps that meet it. -/
theorem Run.everyStep_iff_of_kept {I : σ → Prop} {Q : σ → ε → σ → Prop} {s t : σ} {es : List ε}
    (hr : Run step Always s es t) (hI : I s) (hinv : ∀ s e t, I s → ok' s e → step s e = some t → I t)
    (hstep : ∀ s e t, I s → step s e = some t → (Q s e t ↔ ok' s e)) :
    EveryStep step Q s es ↔ Run step ok' s es t := by
  constructor
  · intro h
    induction hr with
    | nil => exact Run.nil _
    | @snoc t u es e hr _ hs ih =>
      have hbefore : EveryStep step Q s es := by
        rintro pre e' post v w rfl hv hw
        exact h pre e' (post ++ [e]) v w (by rw [List.append_assoc, List.cons_append]) hv hw
      have hrun := ih hbefore
      have hIt : I t := hrun.invariant hI hinv
      exact hrun.snoc ((hstep t e u hIt hs).1 (h es e [] t u rfl hr hs)) hs
  · rintro h pre e post u v rfl hu hs
    rw [List.append_cons] at h
    obtain ⟨w, hw, -⟩ := h.split
    obtain ⟨u', hu', hok, -⟩ := hw.snoc_inv
    obtain rfl := hu.unique hu'
    exact (hstep u e v (hu'.invariant hI hinv) hs).2 hok

/-- The same for an invariant of all steps. -/
theorem Run.everyStep_iff {I : σ → Prop} {Q : σ → ε → σ → Prop} {s t : σ} {es : List ε}
    (hr : Run step Always s es t) (hI : I s) (hinv : ∀ s e t, I s → step s e = some t → I t)
    (hstep : ∀ s e t, I s → step s e = some t → (Q s e t ↔ ok' s e)) :
    EveryStep step Q s es ↔ Run step ok' s es t :=
  hr.everyStep_iff_of_kept hI (fun s e t hs _ => hinv s e t hs) hstep

/-- A weight that every step raises bounds the number of steps. -/
theorem Run.length_add_weight_le (w : σ → Nat) (hstep : ∀ s e t, step s e = some t → w s < w t) {s t : σ}
    {es : List ε} (hr : Run step ok s es t) : es.length + w s ≤ w t := by
  induction hr with
  | nil => simp
  | @snoc t u es e _ _ hs ih =>
    have hlt := hstep t e u hs
    rw [List.length_append, List.length_singleton]
    omega

/-- No event is enabled. -/
def Stuck (step : σ → ε → Option σ) (s : σ) : Prop := ∀ e, step s e = none

/-- Where the runs are bounded, one of them ends in a stuck state. -/
theorem exists_stuck {s : σ} {n : Nat} (h : ∀ es t, Run step Always s es t → es.length ≤ n) :
    ∃ es t, Run step Always s es t ∧ Stuck step t := by
  by_contra hnone
  have hlong : ∀ k, ∃ es t, Run step Always s es t ∧ es.length = k := by
    intro k
    induction k with
    | zero => exact ⟨[], s, Run.nil s, rfl⟩
    | succ k ih =>
      obtain ⟨es, t, hr, hlen⟩ := ih
      obtain ⟨e, u, hs⟩ : ∃ e u, step t e = some u := by
        by_contra hno
        refine hnone ⟨es, t, hr, fun e => Option.eq_none_iff_forall_ne_some.2 fun u hs => ?_⟩
        exact hno ⟨e, u, hs⟩
      exact ⟨es ++ [e], u, hr.snoc trivial hs, by rw [List.length_append, hlen, List.length_singleton]⟩
  obtain ⟨es, t, hr, hlen⟩ := hlong (n + 1)
  have hle := h es t hr
  omega

/-- Where every state of `I` that is not `Done` has a step at hand that stays in `I` and lowers a measure, each state
of `I` can be carried on until it is `Done`. -/
theorem exists_run_done {I Done : σ → Prop} (measure : σ → Nat)
    (hstep : ∀ s, I s → ¬ Done s → ∃ e t, ok s e ∧ step s e = some t ∧ I t ∧ measure t < measure s) {s : σ}
    (hs : I s) : ∃ es t, Run step ok s es t ∧ I t ∧ Done t := by
  induction hn : measure s using Nat.strongRecOn generalizing s with
  | ind n ih =>
    by_cases hdone : Done s
    · exact ⟨[], s, Run.nil s, hs, hdone⟩
    · obtain ⟨e, t, hok, hst, ht, hlt⟩ := hstep s hs hdone
      obtain ⟨es, u, hr, hu, hdone⟩ := ih (measure t) (hn ▸ hlt) ht rfl
      exact ⟨e :: es, u, ((Run.nil s).snoc hok hst).trans hr, hu, hdone⟩

/-- The state after a concrete list of events, if each of them is enabled in turn. -/
def exec (step : σ → ε → Option σ) (s : σ) : List ε → Option σ
  | [] => some s
  | e :: es => (step s e).bind fun t => exec step t es

theorem exec_append {s t u : σ} {es fs : List ε} (h₁ : exec step s es = some t) (h₂ : exec step t fs = some u) :
    exec step s (es ++ fs) = some u := by
  induction es generalizing s with
  | nil =>
    cases h₁
    exact h₂
  | cons e es ih =>
    obtain ⟨v, hv, hrest⟩ := Option.bind_eq_some_iff.1 h₁
    rw [List.cons_append, exec, hv]
    exact ih hrest

theorem exec_snoc {s t u : σ} {es : List ε} {e : ε} (h : exec step s es = some t) (hs : step t e = some u) :
    exec step s (es ++ [e]) = some u :=
  exec_append h (by rw [exec, hs]; rfl)

theorem run_of_exec {okEvent : ε → Prop} {s t : σ} {es : List ε} (hok : ∀ e ∈ es, okEvent e)
    (h : exec step s es = some t) : Run step (fun _ e => okEvent e) s es t := by
  induction es generalizing s with
  | nil =>
    simp only [exec, Option.some.injEq] at h
    subst h
    exact Run.nil s
  | cons e es ih =>
    obtain ⟨u, hu, hrest⟩ := Option.bind_eq_some_iff.1 h
    have h₁ : Run step (fun _ e => okEvent e) s ([] ++ [e]) u :=
      Run.snoc (Run.nil s) (hok e (List.mem_cons_self ..)) hu
    exact h₁.trans (ih (fun e' he' => hok e' (List.mem_cons_of_mem _ he')) hrest)

/-- A concrete run, seen through `view`. -/
theorem run_of_exec_view {α : Type} (step : σ → ε → Option σ) (okEvent : ε → Prop) (s : σ) (es : List ε)
    (view : σ → α) (v : α) (hok : ∀ e ∈ es, okEvent e) (h : (exec step s es).map view = some v) :
    ∃ t, Run step (fun _ e => okEvent e) s es t ∧ view t = v := by
  obtain ⟨t, ht, hv⟩ := Option.map_eq_some_iff.1 h
  exact ⟨t, run_of_exec hok ht, hv⟩

/-- A concrete run whose condition is checked along the way, seen through `view`. -/
theorem run_of_exec_checked {α : Type} (step : σ → ε → Option σ) (ok : σ → ε → Prop) [∀ s e, Decidable (ok s e)]
    (s : σ) (es : List ε) (view : σ → α) (v : α)
    (h : (exec (fun s e => if ok s e then step s e else none) s es).map view = some v) :
    ∃ t, Run step ok s es t ∧ view t = v := by
  obtain ⟨t, ht, hv⟩ := Option.map_eq_some_iff.1 h
  refine ⟨t, ?_, hv⟩
  clear h hv
  induction es generalizing s with
  | nil =>
    simp only [exec, Option.some.injEq] at ht
    subst ht
    exact Run.nil s
  | cons e es ih =>
    obtain ⟨u, hu, hrest⟩ := Option.bind_eq_some_iff.1 ht
    dsimp only at hu
    split at hu
    · rename_i hok
      have h₁ : Run step ok s ([] ++ [e]) u := Run.snoc (Run.nil s) hok hu
      exact h₁.trans (ih _ hrest)
    · cases hu

/-- A total step function runs every list of events. -/
theorem run_of_total (g : σ → ε → σ) (okEvent : ε → Prop) (s : σ) (es : List ε) (h : ∀ e ∈ es, okEvent e) :
    Run (fun s e => some (g s e)) (fun _ e => okEvent e) s es (es.foldl g s) := by
  refine run_of_exec h ?_
  clear h
  induction es generalizing s with
  | nil => rfl
  | cons e es ih => exact ih (g s e)

end Lib
