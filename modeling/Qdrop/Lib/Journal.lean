import Qdrop.Lib.Run

/-!
# A state that is saved whole after each event

A component folds events over a state and saves the state after each of them.  A save may fail, the component may stop
at any point, and the next one starts from what it can read.  So what is stored and what is held are always the replay
of a log: the events up to the last save that worked, and those since (`Saving.replays`).
-/

namespace Lib

/-- How a component starts, goes on and saves its state. -/
structure Saving (St Ev Disk : Type) where
  /-- The state of a component that can read nothing. -/
  empty : St
  /-- What a start makes of the state it has read. -/
  fresh : St → St
  apply : St → Ev → St
  load : Disk → Option St
  save : St → Disk

/-- What a component may meet; `saved` says whether its save works, `reads` whether its load does. -/
inductive SavingEvent (Ev : Type) where
  | start (reads saved : Bool)
  | event (ev : Ev) (saved : Bool)
  | stop

/-- What is stored, and the state of the component that runs. -/
structure Store (St Disk : Type) where
  disk : Disk
  memory : Option St

inductive LogEntry (Ev : Type) where
  | started
  | event (ev : Ev)

/-- What happened up to the last save that worked, and to the component that runs. -/
structure SavedLog (Ev : Type) where
  durable : List (LogEntry Ev)
  volatile : Option (List (LogEntry Ev))

section Saving

variable {St Ev Disk : Type} (C : Saving St Ev Disk)

namespace Saving

/-- The component goes on with `s`, and saves it if it can. -/
def goOn (disk : Disk) (s : St) (saved : Bool) : Store St Disk := ⟨if saved then C.save s else disk, some s⟩

def step (store : Store St Disk) : SavingEvent Ev → Option (Store St Disk)
  | .start reads saved =>
    match store.memory with
    | none => some (C.goOn store.disk (C.fresh (if reads then (C.load store.disk).getD C.empty else C.empty)) saved)
    | some _ => none
  | .event ev saved => store.memory.map fun s => C.goOn store.disk (C.apply s ev) saved
  | .stop => store.memory.map fun _ => ⟨store.disk, none⟩

def entry (s : St) : LogEntry Ev → St
  | .started => C.fresh s
  | .event ev => C.apply s ev

def replay (log : List (LogEntry Ev)) : St := log.foldl C.entry C.empty

theorem replay_snoc (log : List (LogEntry Ev)) (e : LogEntry Ev) :
    C.replay (log ++ [e]) = C.entry (C.replay log) e := by
  rw [replay, List.foldl_append]
  rfl

end Saving

/-- The log goes on, and a save that works keeps it. -/
def SavedLog.goOn (durable log : List (LogEntry Ev)) (saved : Bool) : SavedLog Ev :=
  ⟨if saved then log else durable, some log⟩

def SavedLog.step (log : SavedLog Ev) : SavingEvent Ev → Option (SavedLog Ev)
  | .start reads saved =>
    match log.volatile with
    | none => some (.goOn log.durable ((if reads then log.durable else []) ++ [.started]) saved)
    | some _ => none
  | .event ev saved => log.volatile.map fun entries => .goOn log.durable (entries ++ [.event ev]) saved
  | .stop => log.volatile.map fun _ => ⟨log.durable, none⟩

variable {C} {Good : Ev → Prop}

/-- The events of the log are good. -/
def GoodLog (Good : Ev → Prop) (log : List (LogEntry Ev)) : Prop := ∀ ev, LogEntry.event ev ∈ log → Good ev

theorem goodLog_nil : GoodLog Good [] := fun _ h => nomatch h

theorem GoodLog.started {log : List (LogEntry Ev)} (h : GoodLog Good log) : GoodLog Good (log ++ [.started]) := by
  intro ev hev
  rcases List.mem_append.1 hev with hev | hev
  · exact h ev hev
  · cases List.mem_singleton.1 hev

theorem GoodLog.event {log : List (LogEntry Ev)} (h : GoodLog Good log) {ev : Ev} (hgood : Good ev) :
    GoodLog Good (log ++ [.event ev]) := by
  intro e he
  rcases List.mem_append.1 he with he | he
  · exact h e he
  · cases List.mem_singleton.1 he
    exact hgood

/-- A good event is one that can be saved. -/
def GoodEvent (Good : Ev → Prop) (_ : Store St Disk) : SavingEvent Ev → Prop
  | .event ev _ => Good ev
  | _ => True

/-- What is stored and held is the replay of the log. -/
structure Replays (C : Saving St Ev Disk) (Good : Ev → Prop) (store : Store St Disk) (log : SavedLog Ev) : Prop where
  disk : C.load store.disk = some (C.replay log.durable)
  memory : store.memory = log.volatile.map C.replay
  durable : GoodLog Good log.durable
  volatile : ∀ entries, log.volatile = some entries → GoodLog Good entries

theorem Replays.goOn {store : Store St Disk} {log : SavedLog Ev} (h : Replays C Good store log)
    (hround : ∀ entries, GoodLog Good entries → C.load (C.save (C.replay entries)) = some (C.replay entries))
    {entries : List (LogEntry Ev)} (hgood : GoodLog Good entries) (saved : Bool) :
    Replays C Good (C.goOn store.disk (C.replay entries) saved) (.goOn log.durable entries saved) where
  disk := by
    cases saved
    · exact h.disk
    · exact hround entries hgood
  memory := rfl
  durable := by
    cases saved
    · exact h.durable
    · exact hgood
  volatile := by
    rintro _ ⟨⟩
    exact hgood

theorem Replays.step {store store' : Store St Disk} {log : SavedLog Ev} {e : SavingEvent Ev}
    (hround : ∀ entries, GoodLog Good entries → C.load (C.save (C.replay entries)) = some (C.replay entries))
    (h : Replays C Good store log) (hgood : GoodEvent Good store e) (hs : C.step store e = some store') :
    ∃ log', log.step e = some log' ∧ Replays C Good store' log' := by
  cases e with
  | start reads saved =>
    cases hv : log.volatile with
    | some entries =>
      have hm : store.memory = some (C.replay entries) := by rw [h.memory, hv]; rfl
      simp [Saving.step, hm] at hs
    | none =>
      have hm : store.memory = none := by rw [h.memory, hv]; rfl
      simp only [Saving.step, hm, Option.some.injEq] at hs
      subst hs
      refine ⟨_, by rw [SavedLog.step, hv], ?_⟩
      have hbase : GoodLog Good (if reads then log.durable else []) := by
        cases reads
        · exact goodLog_nil
        · exact h.durable
      have hstate : C.fresh (if reads then (C.load store.disk).getD C.empty else C.empty) =
          C.replay ((if reads then log.durable else []) ++ [.started]) := by
        rw [C.replay_snoc, h.disk]
        cases reads <;> rfl
      rw [hstate]
      exact h.goOn hround hbase.started saved
  | event ev saved =>
    obtain ⟨s, hm, rfl⟩ := Option.map_eq_some_iff.1 hs
    rw [h.memory] at hm
    obtain ⟨entries, hv, rfl⟩ := Option.map_eq_some_iff.1 hm
    refine ⟨_, by rw [SavedLog.step, hv, Option.map_some], ?_⟩
    have hstate := C.replay_snoc entries (.event ev)
    rw [Saving.entry] at hstate
    rw [← hstate]
    exact h.goOn hround ((h.volatile entries hv).event hgood) saved
  | stop =>
    obtain ⟨s, hm, rfl⟩ := Option.map_eq_some_iff.1 hs
    rw [h.memory] at hm
    obtain ⟨entries, hv, rfl⟩ := Option.map_eq_some_iff.1 hm
    exact ⟨⟨log.durable, none⟩, by rw [SavedLog.step, hv, Option.map_some], h.disk, rfl, h.durable,
      fun _ hnone => nomatch hnone⟩

/-- In every run what is stored and what is held are replays of the log of the run. -/
theorem Saving.replays {disk : Disk} {es : List (SavingEvent Ev)} {store : Store St Disk}
    (hround : ∀ entries, GoodLog Good entries → C.load (C.save (C.replay entries)) = some (C.replay entries))
    (hstart : C.load disk = some C.empty) (hr : Run C.step (GoodEvent Good) ⟨disk, none⟩ es store) :
    ∃ log, Run SavedLog.step Always ⟨[], none⟩ es log ∧ Replays C Good store log := by
  induction hr with
  | nil => exact ⟨_, Run.nil _, hstart, rfl, goodLog_nil, fun _ h => nomatch h⟩
  | snoc _ hgood hs ih =>
    obtain ⟨log, hlog, hrep⟩ := ih
    obtain ⟨log', hstep, hrep'⟩ := hrep.step hround hgood hs
    exact ⟨log', hlog.snoc trivial hstep, hrep'⟩

end Saving

end Lib
