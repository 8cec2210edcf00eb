import Qdrop.FileXfer.Duo

/-!
# Sender and receiver agree on the outcome

`send_one` should return `Ok` exactly when the receiver has put the file in place; then a retry never duplicates it.
The acknowledgement is sent with `try_send` after the rename, so with a full channel the receiver keeps the file and the
sender hears nothing, times out and sends the file again (`retry_duplicates`); the same happens when the timeout passes
while the transfer is still on its way.  `outcome_agreed` shows that the two sides agree in every run in which neither
happens.
-/

namespace Qdrop

open Lib

/-! ### The property and the condition -/

/-- `send_one` has returned `Ok` exactly for the files that were put in place, and no `send_one_with_retry` call has
left more than one copy. -/
def Agreed (ida : DeviceId) (s : Duo) : Prop :=
  (∀ id o result, s.a.calls.lookup id = some o → o.call.purpose = .file → o.call.phase = .returned result →
    ((∃ detail, result = .ok detail) ↔ id ∈ placedIds ida s.b.log)) ∧
  ∀ r ∈ s.retries, ((placedIds ida s.b.log).filter (· ∈ r.ids)).length ≤ 1

/-- The timeout of a transfer fires only when no `BlobAck` for it is queued or in flight. -/
def patient (s : Duo) : DuoEvent → Bool
  | .timeout id => (s.toA ++ s.out).all fun m => ackId m != some id
  | _ => true

def Message.isStart : Message → Bool
  | .blobStart .. => true
  | _ => false

def Message.isEnd : Message → Bool
  | .blobEnd .. => true
  | _ => false

/-- Whether `on_end` will put a file in place: there is an entry, digest and size are right, and the rename works. -/
def placesFile (sha256 : Bytes → Digest) (io : Io) (rx : Rx) (k : XferKey) (sha : Digest) : Bool :=
  match rx.incoming.lookup k with
  | none => false
  | some inc =>
    sha256 inc.hasher = sha && (inc.declared = 0 || inc.written = inc.declared) &&
      match inc.sink with
      | .file tmpPath finalDir _ =>
        !io.failRename && (rx.fs.rename tmpPath (uniqueDest rx.fs finalDir inc.name)).isSome
      | .memory _ => false

/-- A file is put in place only while there is room for its acknowledgement, and a timeout fires only when neither the
end of the transfer nor a `BlobAck` for it is on its way. -/
def acknowledged (sha256 : Bytes → Digest) (ida : DeviceId) (s : Duo) : DuoEvent → Bool
  | .timeout id =>
    patient s (.timeout id) && s.toB.all fun m => !(m.isEnd && blobId m == some id)
  | .process io _ =>
    match s.toB with
    | .blobEnd id sha :: _ => !placesFile sha256 io s.b.rx (ida, id) sha || decide (s.out.length < outboundCap)
    | _ => true
  | _ => true

private theorem cleanup_keeps (io : Io) (fs : FileSys PathBuf) (sink : Sink) :
    (cleanup io fs sink).2.any Effect.isRename = false := by
  refine List.any_eq_false.2 fun eff h => ?_
  obtain ⟨p, rfl⟩ := mem_cleanup h
  exact Bool.false_ne_true

theorem onEnd_renames {sha256 : Bytes → Digest} {cfg : XferConfig} {registry : PeersFile} {io : Io} {rx : Rx}
    {p : DeviceId} {id : Nat} {sha : Digest}
    (h : (onEnd sha256 cfg registry io rx p id sha).2.any Effect.isRename = true) :
    placesFile sha256 io rx (p, id) sha = true := by
  unfold onEnd at h
  cases hl : rx.incoming.lookup (p, id) with
  | none => simp [hl] at h
  | some inc =>
    simp only [hl] at h
    by_cases hsha : sha256 inc.hasher = sha
    · by_cases hsize : inc.declared ≠ 0 ∧ inc.written ≠ inc.declared
      · rw [if_neg (not_not.2 hsha), if_pos hsize] at h
        simp [cleanup_keeps, reject, Effect.isRename] at h
      · rw [if_neg (not_not.2 hsha), if_neg hsize] at h
        have hsize : inc.declared = 0 ∨ inc.written = inc.declared := by tauto
        cases hsink : inc.sink with
        | memory buf =>
          rw [hsink] at h
          cases hc : cfg.clipSink <;> simp [hc, Effect.isRename] at h
        | file tmp dir file =>
          simp only [hsink, place] at h
          cases hren : if io.failRename then none else rx.fs.rename tmp (uniqueDest rx.fs dir inc.name) with
          | none =>
            have hkeep := cleanup_keeps io rx.fs (.file tmp dir file)
            simp only [cleanup] at hkeep
            simp [hren, hkeep, reject, Effect.isRename] at h
          | some fs =>
            have hfail : io.failRename = false := by
              by_contra hf
              simp [hf] at hren
            simp only [hfail, Bool.false_eq_true, if_false] at hren
            simp [placesFile, hl, hsha, hsize, hsink, hfail, hren]
    · rw [if_pos hsha] at h
      simp [cleanup_keeps, reject, Effect.isRename] at h

/-! ### The invariant of one transfer -/

/-- Nobody has answered the call yet, and nothing was put in place. -/
structure Unanswered (t : Transfer) (o : Outgoing) : Prop where
  answers : t.answers = []
  ack : o.ack = none
  placed : t.placed = 0

/-- A call that has returned will not send the end of its transfer. -/
def CutOff (t : Transfer) (o : Outgoing) : Prop :=
  o.call.hasReturned = true → ∀ m ∈ t.frames, m.isEnd = false

/-- How far a transfer has come. -/
inductive Stage (id : Nat) (t : Transfer) (o : Outgoing) : Prop
  | fresh (hc : o.call.isStarting = true) (hf : t.frames = []) (he : t.entry = none) (hu : Unanswered t o)
  /-- `BlobStart` is on its way. -/
  | sent (name : String) (size : Nat) (rest : List Message) (hc : o.call.isStarting = false)
      (hf : t.frames = .blobStart id name size o.call.purpose :: rest) (he : t.entry = none) (hu : Unanswered t o)
      (hr : CutOff t o)
  /-- The receiver has an entry. -/
  | opened (inc : Incoming) (hc : o.call.isStarting = false) (hf : ∀ m ∈ t.frames, m.isStart = false)
      (he : t.entry = some inc) (hfile : inc.isFile = (o.call.purpose == .file)) (hu : Unanswered t o)
      (hr : CutOff t o)
  /-- The receiver has no entry any more, and has put no file in place. -/
  | closed (hc : o.call.isStarting = false) (hf : ∀ m ∈ t.frames, m.isStart = false) (he : t.entry = none)
      (hp : t.placed = 0) (hno : o.call.purpose = .file → ∀ detail,
        .blobAck id true detail ∉ t.answers ∧ o.ack ≠ some (true, detail))
  /-- The file is in place, and the call knows or will hear. -/
  | placed (hf : t.frames = []) (he : t.entry = none) (hp : t.placed = 1) (hyes : ∀ detail,
        .blobAck id false detail ∉ t.answers ∧ o.ack ≠ some (false, detail))
      (hc : (o.call.phase = .awaiting ∧ (o.ack ≠ none ∨ t.answers ≠ [])) ∨
        ∃ detail, o.call.phase = .returned (.ok detail))

structure CallSound (id : Nat) (t : Transfer) (o : Outgoing) : Prop where
  stage : Stage id t o
  /-- Nothing follows the end of a transfer, and nothing precedes its start. -/
  order : t.frames.Pairwise fun m₁ m₂ => m₁.isEnd = false ∧ m₂.isStart = false
  ended : (∃ m ∈ t.frames, m.isEnd = true) → o.call.isStarting = false ∧ o.call.isStreaming = false
  waiter : t.waiter = (!o.call.hasReturned && o.ack.isNone)
  ok : ∀ detail, o.call.phase = .returned (.ok detail) → o.ack = some (true, detail)

structure TransferSound (id : Nat) (t : Transfer) : Prop where
  unused : t.call = none → t.frames = [] ∧ t.entry = none ∧ t.answers = [] ∧ t.placed = 0
  call : ∀ o, t.call = some o → CallSound id t o

/-- What the condition says about a step of the transfer. -/
def Move.Fair (t : Transfer) : Move → Prop
  | .timeout => t.answers = [] ∧ ∀ m ∈ t.frames, m.isEnd = false
  | .handle _ renamed room => renamed = true → room = true
  | _ => True

/-! ### What the calls do -/

section Calls

variable {sha256 : Bytes → Digest} {c c' : SendCall} {id : Nat} {m : Message}

/-- Queueing a frame: `BlobStart` first, a chunk while streaming, `BlobEnd` last. -/
theorem SendCall.queued_cases (h : c.frame sha256 id = some m) :
    c.queued.purpose = c.purpose ∧ c.queued.isStarting = false ∧ c.queued.hasReturned = false ∧
    ((c.isStarting = true ∧ m = .blobStart id c.name c.size c.purpose) ∨
      (c.isStreaming = true ∧ m.isStart = false ∧
        (m.isEnd = true → c.queued.isStreaming = false))) := by
  obtain ⟨conn, name, size, purpose, source, hasher, phase⟩ := c
  cases phase with
  | starting =>
    cases h
    cases source with
    | file path => exact ⟨rfl, rfl, rfl, Or.inl ⟨rfl, rfl⟩⟩
    | mem rest => exact ⟨rfl, rfl, rfl, Or.inl ⟨rfl, rfl⟩⟩
  | sending data =>
    cases h
    exact ⟨rfl, rfl, rfl, Or.inr ⟨rfl, rfl, fun h => by cases h⟩⟩
  | ending =>
    cases h
    exact ⟨rfl, rfl, rfl, Or.inr ⟨rfl, rfl, fun _ => rfl⟩⟩
  | opening | reading | awaiting | returned => cases h

theorem SendCall.answered_awaiting {answer : SendCall.Answer} (h : c.answered answer = some c') :
    c.phase = .awaiting ∧ c'.purpose = c.purpose ∧ c'.isStarting = false ∧ c'.hasReturned = true ∧
      c'.isStreaming = false := by
  unfold SendCall.answered at h
  split at h
  · rename_i hphase
    refine ⟨hphase, ?_⟩
    split at h <;> (cases h; exact ⟨rfl, rfl, rfl, rfl⟩)
  · cases h

private theorem hasReturned_of_isStarting (h : c.isStarting = true) : c.hasReturned = false := by
  unfold SendCall.isStarting at h
  split at h
  · rename_i hphase
    simp [SendCall.hasReturned, hphase]
  · cases h

private theorem hasReturned_of_isStreaming (h : c.isStreaming = true) : c.hasReturned = false := by
  by_contra hr
  rw [SendCall.isStreaming_of_hasReturned (by simpa using hr)] at h
  cases h

private theorem phase_ne_of_hasReturned (h : c.hasReturned = false) (result : Except String String) :
    c.phase ≠ .returned result := by
  intro hphase
  simp [SendCall.hasReturned, hphase] at h

private theorem awaiting_of_not (h₁ : c.isStarting = false) (h₂ : c.isStreaming = false) (h₃ : c.hasReturned = false) :
    c.phase = .awaiting := by
  cases hphase : c.phase with
  | awaiting => rfl
  | starting => simp [SendCall.isStarting, hphase] at h₁
  | opening | reading | sending | ending => simp [SendCall.isStreaming, hphase] at h₂
  | returned => simp [SendCall.hasReturned, hphase] at h₃

variable {frames : List Message}

/-- No `BlobEnd` is on its way as long as the call has frames to queue. -/
theorem no_end_of_sending (hended : (∃ m ∈ frames, m.isEnd = true) → c.isStarting = false ∧ c.isStreaming = false)
    (h : c.isStarting = true ∨ c.isStreaming = true) : ∀ m ∈ frames, m.isEnd = false := by
  intro m hm
  by_contra hend
  obtain ⟨hstart, hstream⟩ := hended ⟨m, hm, by simpa using hend⟩
  rw [hstart, hstream] at h
  simp at h

/-- The queued frame is no `BlobStart` where others are before it. -/
theorem order_queued (hm : c.frame sha256 id = some m) (hfresh : c.isStarting = true → frames = [])
    (hnoend : ∀ m ∈ frames, m.isEnd = false)
    (horder : frames.Pairwise fun m₁ m₂ => m₁.isEnd = false ∧ m₂.isStart = false) :
    (frames ++ [m]).Pairwise fun m₁ m₂ => m₁.isEnd = false ∧ m₂.isStart = false := by
  refine List.pairwise_append.2 ⟨horder, List.pairwise_singleton .., fun m₁ h₁ m₂ h₂ => ⟨hnoend m₁ h₁, ?_⟩⟩
  rw [List.mem_singleton.1 h₂]
  obtain ⟨-, -, -, ⟨hs, -⟩ | ⟨-, hm, -⟩⟩ := SendCall.queued_cases hm
  · rw [hfresh hs] at h₁
    cases h₁
  · exact hm

theorem eq_nil_of_end (horder : ∀ m' ∈ frames, m.isEnd = false ∧ m'.isStart = false) (hend : m.isEnd = true) :
    frames = [] := by
  refine List.eq_nil_iff_forall_not_mem.2 fun m' hm' => ?_
  rw [(horder m' hm').1] at hend
  cases hend

/-- A call that has queued its `BlobEnd` queues no more. -/
theorem ended_queued (hm : c.frame sha256 id = some m) (hnoend : ∀ m ∈ frames, m.isEnd = false)
    (hend : ∃ m' ∈ frames ++ [m], m'.isEnd = true) : c.queued.isStarting = false ∧ c.queued.isStreaming = false := by
  obtain ⟨m', hm', hend⟩ := hend
  rcases List.mem_append.1 hm' with hm' | hm'
  · rw [hnoend m' hm'] at hend
    cases hend
  · obtain rfl := List.mem_singleton.1 hm'
    obtain ⟨-, hstart, -, ⟨-, rfl⟩ | ⟨-, -, hq⟩⟩ := SendCall.queued_cases hm
    · cases hend
    · exact ⟨hstart, hq hend⟩

end Calls

/-! ### Every step keeps the invariant -/

section Moves

variable {sha256 : Bytes → Digest} {id : Nat} {t : Transfer} {o : Outgoing}

private theorem callSound_begin (peer : DeviceId) {c : SendCall} (hc : c.isStarting = true)
    (h : t.frames = [] ∧ t.entry = none ∧ t.answers = [] ∧ t.placed = 0) :
    CallSound id { t with call := some ⟨peer, c, none, none⟩, waiter := true } ⟨peer, c, none, none⟩ := by
  obtain ⟨hf, he, ha, hp⟩ := h
  refine ⟨.fresh hc hf he ⟨ha, rfl, hp⟩, ?_, ?_, ?_, ?_⟩
  · simp [hf]
  · simp [hf]
  · simp [hasReturned_of_isStarting hc]
  · intro detail hd
    exact absurd hd (phase_ne_of_hasReturned (hasReturned_of_isStarting hc) _)

private theorem callSound_queue {m : Message} (h : CallSound id t o) (hm : o.call.frame sha256 id = some m) :
    CallSound id { t with call := some { o with call := o.call.queued }, frames := t.frames ++ [m] }
      { o with call := o.call.queued } := by
  obtain ⟨hpurpose, hstart, hret, hcase⟩ := SendCall.queued_cases hm
  have hcall : o.call.hasReturned = false := by
    rcases hcase with ⟨hs, -⟩ | ⟨hs, -⟩
    · exact hasReturned_of_isStarting hs
    · exact hasReturned_of_isStreaming hs
  have hnoend := no_end_of_sending h.ended (hcase.imp And.left And.left)
  have hfresh : o.call.isStarting = true → t.frames = [] := by
    intro hs
    cases h.stage with
    | fresh hc hf he hu => exact hf
    | sent name size rest hc | opened inc hc | closed hc => rw [hc] at hs; cases hs
    | placed hf => exact hf
  -- a frame after the first one is no `BlobStart`
  have hnostart : o.call.isStarting = false → (∀ m' ∈ t.frames, m'.isStart = false) →
      ∀ m' ∈ t.frames ++ [m], m'.isStart = false := by
    intro hc hf m' hm'
    rcases List.mem_append.1 hm' with hm' | hm'
    · exact hf m' hm'
    · rw [List.mem_singleton.1 hm']
      rcases hcase with ⟨hs, -⟩ | ⟨-, hm, -⟩
      · rw [hc] at hs; cases hs
      · exact hm
  refine ⟨?_, order_queued hm hfresh hnoend h.order, ended_queued hm hnoend, ?_, ?_⟩
  · cases h.stage with
    | fresh hc hf he hu =>
      rcases hcase with ⟨-, rfl⟩ | ⟨hs, -⟩
      · refine .sent o.call.name o.call.size [] hstart ?_ he ⟨hu.answers, hu.ack, hu.placed⟩ ?_
        · simp [hf, hpurpose]
        · intro hr
          rw [hret] at hr
          cases hr
      · rw [SendCall.isStreaming_of_isStarting hc] at hs
        cases hs
    | sent name size rest hc hf he hu hr =>
      refine .sent name size (rest ++ [m]) hstart ?_ he ⟨hu.answers, hu.ack, hu.placed⟩ ?_
      · simp [hf, hpurpose]
      · intro hr
        rw [hret] at hr
        cases hr
    | opened inc hc hf he hfile hu hr =>
      refine .opened inc hstart (hnostart hc hf) he (by rw [hpurpose]; exact hfile) ⟨hu.answers, hu.ack, hu.placed⟩ ?_
      intro hr
      rw [hret] at hr
      cases hr
    | closed hc hf he hp hno =>
      exact .closed hstart (hnostart hc hf) he hp (by rw [hpurpose]; exact hno)
    | placed hf he hp hyes hc =>
      -- a call that waits or has returned queues nothing
      rcases hc with ⟨hc, -⟩ | ⟨detail, hc⟩ <;> simp [SendCall.frame, hc] at hm
  · rw [hret, ← hcall]
    exact h.waiter
  · intro detail hd
    exact absurd hd (phase_ne_of_hasReturned hret _)

private theorem callSound_goOn {l : LocalStep} {c : SendCall} (h : CallSound id t o) (hl : o.call.goOn l = some c) :
    CallSound id { t with call := some { o with call := c }, waiter := t.waiter && !c.hasReturned }
      { o with call := c } := by
  obtain ⟨hst, hc, hc', -, -, hpurpose, -, hnok⟩ := SendCall.goOn_readsOn hl
  have hnoend := no_end_of_sending h.ended (Or.inr hst)
  refine ⟨?_, h.order, ?_, ?_, fun detail hd => absurd hd (hnok detail)⟩
  · cases h.stage with
    | fresh hs => rw [hs] at hc; cases hc
    | sent name size rest _ hf he hu hr =>
      exact .sent name size rest hc' (by rw [hpurpose]; exact hf) he ⟨hu.answers, hu.ack, hu.placed⟩ fun _ => hnoend
    | opened inc _ hf he hfile hu hr =>
      exact .opened inc hc' hf he (by rw [hpurpose]; exact hfile) ⟨hu.answers, hu.ack, hu.placed⟩ fun _ => hnoend
    | closed _ hf he hp hno => exact .closed hc' hf he hp (by rw [hpurpose]; exact hno)
    | placed _ _ _ _ hp =>
      rcases hp with ⟨hp, -⟩ | ⟨detail, hp⟩ <;> simp [SendCall.isStreaming, hp] at hst
  · rintro ⟨m, hm, hend⟩
    rw [hnoend m hm] at hend
    cases hend
  · have hret := hasReturned_of_isStreaming hst
    simp [h.waiter, hret, Bool.and_comm]

private theorem callSound_answer {ok : Bool} {detail : String} {c : SendCall} (h : CallSound id t o)
    (hack : o.ack = some (ok, detail)) (hc : o.call.answered (.ack ok detail) = some c) :
    CallSound id { t with call := some { o with call := c }, waiter := false } { o with call := c } := by
  obtain ⟨hphase, hpurpose, hc', hret, hst⟩ := SendCall.answered_awaiting hc
  have hresult : ∀ d, c.phase = .returned (.ok d) ↔ ok = true ∧ d = detail := by
    intro d
    simp only [SendCall.answered, hphase] at hc
    cases ok with
    | true =>
      cases hc
      simp [SendCall.finish, eq_comm]
    | false =>
      cases hc
      simp [SendCall.finish]
  refine ⟨?_, h.order, fun _ => ⟨hc', hst⟩, by simp [hret], fun d hd => ?_⟩
  · cases h.stage with
    | fresh hs => simp [SendCall.isStarting, hphase] at hs
    | sent _ _ _ _ _ _ hu | opened _ _ _ _ _ hu =>
      rw [hu.ack] at hack
      cases hack
    | closed _ hf he hp hno => exact .closed hc' hf he hp (by rw [hpurpose]; exact hno)
    | placed hf he hp hyes _ =>
      refine .placed hf he hp hyes (Or.inr ⟨detail, (hresult detail).2 ⟨?_, rfl⟩⟩)
      by_contra hok
      exact (hyes detail).2 (by rw [hack]; simpa using hok)
  · obtain ⟨rfl, rfl⟩ := (hresult d).1 hd
    exact hack

private theorem callSound_timeout {c : SendCall} (h : CallSound id t o) (hack : o.ack = none)
    (hc : o.call.answered .timeout = some c) (hfair : Move.timeout.Fair t) :
    CallSound id { t with call := some { o with call := c }, waiter := false } { o with call := c } := by
  obtain ⟨hphase, hpurpose, hc', hret, hst⟩ := SendCall.answered_awaiting hc
  obtain ⟨hans, hnoend⟩ := hfair
  have hnok : ∀ d, c.phase ≠ .returned (.ok d) := by
    intro d hd
    simp only [SendCall.answered, hphase] at hc
    cases hc
    cases hd
  refine ⟨?_, h.order, fun _ => ⟨hc', hst⟩, by simp [hret], fun d hd => absurd hd (hnok d)⟩
  cases h.stage with
  | fresh hs => simp [SendCall.isStarting, hphase] at hs
  | sent name size rest _ hf he hu _ =>
    exact .sent name size rest hc' (by rw [hpurpose]; exact hf) he ⟨hu.answers, hu.ack, hu.placed⟩ fun _ => hnoend
  | opened inc _ hf he hfile hu _ =>
    exact .opened inc hc' hf he (by rw [hpurpose]; exact hfile) ⟨hu.answers, hu.ack, hu.placed⟩ fun _ => hnoend
  | closed _ hf he hp hno => exact .closed hc' hf he hp (by rw [hpurpose]; exact hno)
  | placed _ _ _ _ hp =>
    -- the acknowledgement of a file that is in place is not lost
    rcases hp with ⟨-, hp | hp⟩ | ⟨detail, hp⟩
    · exact absurd hack hp
    · exact absurd hans hp
    · rw [hphase] at hp; cases hp

private theorem callSound_hear {ok : Bool} {detail : String} {rest : List Message} (peer : DeviceId)
    (h : CallSound id t o) (ha : t.answers = .blobAck id ok detail :: rest) (call : Option Outgoing)
    (heard : List Message) :
    if t.waiter then
      CallSound id { t with call := call, waiter := false, answers := rest, heard := heard }
        { o with ack := some (ok, detail), resolvedBy := some peer }
    else CallSound id { t with call := call, waiter := false, answers := rest, heard := heard } o := by
  have hmem : ∀ a ∈ rest, a ∈ t.answers := fun a h => by rw [ha]; exact List.mem_cons_of_mem _ h
  have hne : t.answers ≠ [] := by rw [ha]; exact List.cons_ne_nil _ _
  split
  · rename_i hw
    rw [h.waiter] at hw
    simp only [Bool.and_eq_true, Bool.not_eq_true', Option.isNone_iff_eq_none] at hw
    refine ⟨?_, h.order, h.ended, by simp, fun d hd => absurd hd (phase_ne_of_hasReturned hw.1 _)⟩
    cases h.stage with
    | fresh _ _ _ hu | sent _ _ _ _ _ _ hu | opened _ _ _ _ _ hu => exact absurd hu.answers hne
    | closed hc hf he hp hno =>
      refine .closed hc hf he hp fun hfile d => ⟨fun hd => (hno hfile d).1 (hmem _ hd), fun hd => ?_⟩
      simp only [Option.some.injEq, Prod.mk.injEq] at hd
      obtain ⟨rfl, rfl⟩ := hd
      exact (hno hfile detail).1 (by simp [ha])
    | placed hf he hp hyes hc =>
      refine .placed hf he hp (fun d => ⟨fun hd => (hyes d).1 (hmem _ hd), fun hd => ?_⟩) ?_
      · simp only [Option.some.injEq, Prod.mk.injEq] at hd
        obtain ⟨rfl, rfl⟩ := hd
        exact (hyes detail).1 (by simp [ha])
      · rcases hc with ⟨hc, -⟩ | hc
        · exact Or.inl ⟨hc, Or.inl (by simp)⟩
        · exact Or.inr hc
  · rename_i hw
    have hw : t.waiter = false := by simpa using hw
    refine ⟨?_, h.order, h.ended, by rw [← h.waiter, hw], h.ok⟩
    cases h.stage with
    | fresh _ _ _ hu | sent _ _ _ _ _ _ hu | opened _ _ _ _ _ hu => exact absurd hu.answers hne
    | closed hc hf he hp hno =>
      exact .closed hc hf he hp fun hfile d => ⟨fun hd => (hno hfile d).1 (hmem _ hd), (hno hfile d).2⟩
    | placed hf he hp hyes hc =>
      refine .placed hf he hp (fun d => ⟨fun hd => (hyes d).1 (hmem _ hd), (hyes d).2⟩) ?_
      rcases hc with ⟨hc, -⟩ | hc
      · refine Or.inl ⟨hc, Or.inl fun hack => ?_⟩
        simp [h.waiter, SendCall.hasReturned, hc, hack] at hw
      · exact Or.inr hc

private theorem callSound_handle {m : Message} {rest : List Message} {entry : Option Incoming} {acks : List Message}
    {renamed room : Bool} (h : CallSound id t o) (hq : t.frames = m :: rest)
    (hh : Handling id t.entry m entry acks renamed) (hfair : (Move.handle acks renamed room).Fair t) :
    CallSound id
      { t with
        frames := rest
        entry := entry
        answers := t.answers ++ if room then acks else []
        placed := t.placed + renamed.toNat } o := by
  have hsub : ∀ m' ∈ rest, m' ∈ t.frames := fun m' h => by rw [hq]; exact List.mem_cons_of_mem _ h
  have horder := h.order
  rw [hq, List.pairwise_cons] at horder
  refine ⟨?_, horder.2, fun ⟨m', hm', hend⟩ => h.ended ⟨m', hsub m' hm', hend⟩, h.waiter, h.ok⟩
  cases h.stage with
  | fresh _ hf => rw [hf] at hq; cases hq
  | placed hf => rw [hf] at hq; cases hq
  | sent name size rest' hc hf he hu hr =>
    rw [hf, List.cons.injEq] at hq
    obtain ⟨rfl, rfl⟩ := hq
    have hcut : ∀ e' ans' p', CutOff ⟨t.call, t.waiter, rest', e', ans', t.heard, p'⟩ o :=
      fun _ _ _ hret m' hm' => hr hret m' (hsub m' hm')
    rw [he] at hh
    cases hh with
    | ignored _ hm => exact absurd rfl (hm _ _ _)
    | refused _ _ _ _ detail =>
      refine .closed hc (fun m' hm' => (horder.1 m' hm').2) rfl hu.placed fun _ d => ⟨?_, by rw [hu.ack]; simp⟩
      rw [hu.answers]
      cases room <;> simp
    | opened _ _ _ _ inc hfile =>
      refine .opened inc hc (fun m' hm' => (horder.1 m' hm').2) rfl hfile ⟨?_, hu.ack, hu.placed⟩ (hcut _ _ _)
      cases room <;> simp [hu.answers]
  | opened inc hc hf he hfile hu hr =>
    have hm : m.isStart = false := hf m (by rw [hq]; exact List.mem_cons_self ..)
    have hf' : ∀ m' ∈ rest, m'.isStart = false := fun m' hm' => hf m' (hsub m' hm')
    have hcut : ∀ e' ans' p', CutOff ⟨t.call, t.waiter, rest, e', ans', t.heard, p'⟩ o :=
      fun _ _ _ hret m' hm' => hr hret m' (hsub m' hm')
    rw [he] at hh
    cases hh with
    | refused | opened => cases hm
    | extended _ data sink hsame =>
      refine .opened _ hc hf' rfl (hsame.trans hfile) ⟨?_, hu.ack, hu.placed⟩ (hcut _ _ _)
      cases room <;> simp [hu.answers]
    | cut _ _ detail _ =>
      refine .closed hc hf' rfl hu.placed fun _ d => ⟨?_, by rw [hu.ack]; simp⟩
      rw [hu.answers]
      cases room <;> simp
    | clipped _ sha detail hmem =>
      refine .closed hc hf' rfl hu.placed fun hp => ?_
      rw [hp, hmem] at hfile
      cases hfile
    | placed _ sha _ =>
      obtain rfl : room = true := hfair rfl
      have hend : (Message.blobEnd id sha).isEnd = true := rfl
      have hrest : rest = [] := eq_nil_of_end horder.1 hend
      have hmem : Message.blobEnd id sha ∈ t.frames := by rw [hq]; exact List.mem_cons_self ..
      obtain ⟨h₁, h₂⟩ := h.ended ⟨_, hmem, hend⟩
      have hret : o.call.hasReturned = false := by
        by_contra hret
        rw [hr (by simpa using hret) _ hmem] at hend
        cases hend
      refine .placed hrest rfl (by simp [hu.placed]) (fun d => ⟨?_, by rw [hu.ack]; simp⟩)
        (Or.inl ⟨awaiting_of_not h₁ h₂ hret, Or.inr (by simp)⟩)
      simp [hu.answers]
  | closed hc hf he hp hno =>
    have hm : m.isStart = false := hf m (by rw [hq]; exact List.mem_cons_self ..)
    rw [he] at hh
    cases hh with
    | refused | opened => cases hm
    | ignored _ _ =>
      refine .closed hc (fun m' hm' => hf m' (hsub m' hm')) rfl hp ?_
      have : (t.answers ++ if room = true then [] else []) = t.answers := by cases room <;> simp
      rw [this]
      exact hno

/-- The step lemma of one transfer. -/
theorem transferSound_step {peer : DeviceId} {mv : Move} {t' : Transfer} (h : TransferSound id t)
    (hs : TransferStep sha256 peer id mv t t') (hfair : mv.Fair t) : TransferSound id t' := by
  -- a transfer with a call is sound when the call is
  have key : ∀ {t' : Transfer} {o : Outgoing}, t'.call = some o → CallSound id t' o → TransferSound id t' := by
    intro t' o hl ho
    refine ⟨(fun hnone => by rw [hl] at hnone; cases hnone), fun o' hl' => ?_⟩
    rw [hl] at hl'
    cases hl'
    exact ho
  cases hs with
  | begin _ c hnone hc => exact key rfl (callSound_begin peer hc (h.unused hnone))
  | queue _ o m hl hm => exact key rfl (callSound_queue (h.call o hl) hm)
  | goOn _ o l c hl hc => exact key rfl (callSound_goOn (h.call o hl) hc)
  | answer _ o ok detail c hl hack hc => exact key rfl (callSound_answer (h.call o hl) hack hc)
  | timeout _ o c hl hack hc => exact key rfl (callSound_timeout (h.call o hl) hack hc hfair)
  | handle _ m rest entry acks renamed room hm hh =>
    obtain ⟨o, hl⟩ : ∃ o, t.call = some o := by
      refine Option.ne_none_iff_exists'.1 fun hnone => ?_
      rw [(h.unused hnone).1] at hm
      cases hm
    exact key hl (callSound_handle (h.call o hl) hm hh hfair)
  | hear _ ok detail rest ha =>
    obtain ⟨o, hl⟩ : ∃ o, t.call = some o := by
      refine Option.ne_none_iff_exists'.1 fun hnone => ?_
      rw [(h.unused hnone).2.2.1] at ha
      cases ha
    have ho := callSound_hear peer (h.call o hl) ha
    by_cases hw : t.waiter = true
    · simp only [hw, if_true] at ho ⊢
      exact key (by simp [hl]) (ho _ _)
    · simp only [hw] at ho ⊢
      exact key hl (ho _ _)

/-- A call stays, and what it has returned stays. -/
theorem TransferStep.call_stays {peer : DeviceId} {mv : Move} {t' : Transfer}
    (hs : TransferStep sha256 peer id mv t t') (hl : t.call = some o) :
    ∃ o', t'.call = some o' ∧ o'.call.purpose = o.call.purpose ∧
      ∀ result, o.call.phase = .returned result → o'.call.phase = .returned result := by
  cases hs with
  | begin _ c hnone => rw [hnone] at hl; cases hl
  | queue _ o' m hl' hm =>
    rw [hl] at hl'
    cases hl'
    refine ⟨_, rfl, (SendCall.queued_cases hm).1, fun result hr => ?_⟩
    simp [SendCall.frame, hr] at hm
  | goOn _ o' l c hl' hc =>
    rw [hl] at hl'
    cases hl'
    have hon : o.call.ReadsOn c := SendCall.goOn_readsOn hc
    refine ⟨_, rfl, hon.purpose, fun result hr => ?_⟩
    have hst := hon.streaming
    simp [SendCall.isStreaming, hr] at hst
  | answer _ o' ok detail c hl' hack hc =>
    rw [hl] at hl'
    cases hl'
    obtain ⟨hphase, hpurpose, -⟩ := SendCall.answered_awaiting hc
    refine ⟨_, rfl, hpurpose, fun result hr => ?_⟩
    rw [hphase] at hr
    cases hr
  | timeout _ o' c hl' hack hc =>
    rw [hl] at hl'
    cases hl'
    obtain ⟨hphase, hpurpose, -⟩ := SendCall.answered_awaiting hc
    refine ⟨_, rfl, hpurpose, fun result hr => ?_⟩
    rw [hphase] at hr
    cases hr
  | handle => exact ⟨o, hl, rfl, fun _ h => h⟩
  | hear _ ok detail rest ha =>
    by_cases hw : t.waiter = true
    · simp only [hw, if_true, hl]
      exact ⟨_, rfl, rfl, fun _ h => h⟩
    · simp only [hw]
      exact ⟨o, hl, rfl, fun _ h => h⟩

end Moves

/-! ### The whole system -/

section System

variable {sha256 : Bytes → Digest} {cfg : XferConfig} {ida idb : DeviceId} {s s' : Duo} {e : DuoEvent}

/-- The sender's part of a step is a step of the sender, or an id is taken elsewhere. -/
private theorem duoStep_sender (hs : duoStep sha256 cfg ida idb s e = some s') :
    s'.a = s.a ∨ s'.a = { s.a with nextId := s.a.nextId + 1 } ∨ ∃ e', senderStep sha256 s.a e' = some s'.a := by
  have hmap : ∀ {a : Option Sender} (e' : SenderEvent), senderStep sha256 s.a e' = a →
      (a.map fun a => { s with a := a }) = some s' → ∃ e', senderStep sha256 s.a e' = some s'.a := by
    rintro a e' h hs
    obtain ⟨a, rfl, rfl⟩ := Option.map_eq_some_iff.1 hs
    exact ⟨e', h⟩
  cases e with
  | sendWithRetry path => cases hs; exact Or.inl rfl
  | attempt j stat =>
    simp only [duoStep] at hs
    split at hs
    · cases hs
    · rename_i r hr
      split at hs
      · cases hs
        unfold Duo.beginAttempt
        split
        · rename_i c hc
          exact Or.inr (Or.inr ⟨.sendOne idb (some 0) r.path stat, by simp [senderStep, hc]⟩)
        · exact Or.inl rfl
      · cases hs
  | settle j =>
    simp only [duoStep] at hs
    repeat' split at hs
    all_goals cases hs
    exact Or.inl rfl
  | sendClipImage png => cases hs; exact Or.inr (Or.inr ⟨.sendClipImage idb 0 png, rfl⟩)
  | elsewhere => cases hs; exact Or.inr (Or.inl rfl)
  | queue k =>
    obtain ⟨out, hq, rfl⟩ := Option.map_eq_some_iff.1 hs
    exact Or.inr (Or.inr ⟨.queue k, by simp [senderStep, hq]⟩)
  | openFile k err => exact Or.inr (Or.inr (hmap (.openFile k err) rfl hs))
  | read k res => exact Or.inr (Or.inr (hmap (.read k res) rfl hs))
  | nextChunk k => exact Or.inr (Or.inr (hmap (.nextChunk k) rfl hs))
  | answer k => exact Or.inr (Or.inr (hmap (.answer k) rfl hs))
  | timeout k => exact Or.inr (Or.inr (hmap (.timeout k) rfl hs))
  | chatA msg | foreign f | chatB msg =>
    simp only [duoStep] at hs
    split at hs
    all_goals cases hs
    exact Or.inl rfl
  | process io registry =>
    simp only [duoStep] at hs
    split at hs
    · cases hs
    · cases hs; exact Or.inl rfl
  | transmit =>
    simp only [duoStep] at hs
    split at hs
    · cases hs
    · cases hs; exact Or.inl rfl
  | receive =>
    simp only [duoStep] at hs
    split at hs
    · cases hs
    · rename_i m rest hq
      cases hs
      exact Or.inr (Or.inr ⟨.inbound idb m, rfl⟩)

theorem duo_waiting (h : Waiting s.a) (hs : duoStep sha256 cfg ida idb s e = some s') : Waiting s'.a := by
  rcases duoStep_sender hs with heq | heq | ⟨e', he'⟩
  · rw [heq]; exact h
  · rw [heq]
    exact ⟨fun id hid => h.fresh id (Nat.le_of_succ_le hid), h.waiter⟩
  · exact waiting_step h he'

/-- The condition on the system gives the one on the transfer. -/
private theorem fair_of_acknowledged {id : Nat} {mv : Move} (hok : acknowledged sha256 ida s e = true)
    (hc : mv.Caused sha256 cfg ida s e id) : mv.Fair (s.transfer ida id) := by
  cases mv with
  | timeout =>
    obtain rfl : e = .timeout id := hc
    simp only [acknowledged, patient, Bool.and_eq_true, List.all_eq_true, bne_iff_ne, ne_eq, Bool.not_eq_true',
      Bool.and_eq_false_imp, beq_eq_false_iff_ne] at hok
    refine ⟨List.filter_eq_nil_iff.2 fun m hm => by simpa using hok.1 m hm, fun m hm => ?_⟩
    obtain ⟨hm, hid⟩ := List.mem_filter.1 hm
    by_contra hend
    exact hok.2 m hm (by simpa using hend) (by simpa using hid)
  | handle acks renamed room =>
    obtain ⟨io, registry, m, rest, rfl, hq, hid, -, rfl, rfl⟩ := hc
    intro hren
    have hend : ∃ sha, m = .blobEnd id sha := by
      rcases handleBlob_handles sha256 cfg registry io s.b.rx ida m with ⟨id', hid', h⟩ | ⟨hnone, -⟩
      · obtain rfl : id = id' := by
          rw [hid] at hid'
          exact Option.some.inj hid'
        have h := h.entry
        rw [show (handleBlob sha256 cfg registry io s.b.rx ida m).2.any Effect.isRename = true from hren] at h
        exact h.renamed_end
      · rw [hid] at hnone
        cases hnone
    obtain ⟨sha, rfl⟩ := hend
    have := onEnd_renames hren
    simpa [acknowledged, hq, this] using hok
  | _ => trivial

/-- The failed attempts of a `send_one_with_retry` call have returned an error, and the running one is a file. -/
structure RetrySound (a : Sender) (r : RetryCall) : Prop where
  failed : ∀ id ∈ r.failed, ∃ o err, a.calls.lookup id = some o ∧ o.call.purpose = .file ∧
    o.call.phase = .returned (.error err)
  current : ∀ id, r.current = some id → ∃ o, a.calls.lookup id = some o ∧ o.call.purpose = .file

structure DuoSound (ida : DeviceId) (s : Duo) : Prop where
  waiting : Waiting s.a
  transfers : ∀ id, TransferSound id (s.transfer ida id)
  retries : ∀ r ∈ s.retries, RetrySound s.a r

private theorem duoSound_start (fs : FileSys PathBuf) : DuoSound ida (Duo.start fs) where
  waiting := ⟨fun _ _ => rfl, fun _ h => by cases h⟩
  transfers id := ⟨fun _ => ⟨rfl, rfl, rfl, rfl⟩, fun o hl => by cases hl⟩
  retries r h := by cases h

/-- Calls stay, so what is known of a retry stays. -/
private theorem RetrySound.mono {r : RetryCall} (h : RetrySound s.a r)
    (hstay : ∀ id o, s.a.calls.lookup id = some o → ∃ o', s'.a.calls.lookup id = some o' ∧
      o'.call.purpose = o.call.purpose ∧ ∀ result, o.call.phase = .returned result → o'.call.phase = .returned result) :
    RetrySound s'.a r := by
  refine ⟨fun id hid => ?_, fun id hid => ?_⟩
  · obtain ⟨o, err, hl, hp, hr⟩ := h.failed id hid
    obtain ⟨o', hl', hp', hr'⟩ := hstay id o hl
    exact ⟨o', err, hl', hp'.trans hp, hr' _ hr⟩
  · obtain ⟨o, hl, hp⟩ := h.current id hid
    obtain ⟨o', hl', hp', -⟩ := hstay id o hl
    exact ⟨o', hl', hp'.trans hp⟩

/-- The `send_one_with_retry` calls after a step: the old ones, a new one, or one of them has begun or settled an
attempt. -/
private theorem duoStep_retries (h : ∀ r ∈ s.retries, RetrySound s.a r)
    (hs : duoStep sha256 cfg ida idb s e = some s')
    (hstay : ∀ id o, s.a.calls.lookup id = some o → ∃ o', s'.a.calls.lookup id = some o' ∧
      o'.call.purpose = o.call.purpose ∧ ∀ result, o.call.phase = .returned result → o'.call.phase = .returned result) :
    ∀ r ∈ s'.retries, RetrySound s'.a r := by
  have hold : ∀ r ∈ s.retries, RetrySound s'.a r := fun r hr => (h r hr).mono hstay
  have hset : ∀ j r', RetrySound s'.a r' → ∀ r ∈ s.retries.set j r', RetrySound s'.a r := by
    intro j r' hr' r hr
    rcases List.mem_or_eq_of_mem_set hr with hr | rfl
    · exact hold r hr
    · exact hr'
  cases e with
  | sendWithRetry path =>
    cases hs
    intro r hr
    rcases List.mem_append.1 hr with hr | hr
    · exact hold r hr
    · rw [List.mem_singleton.1 hr]
      exact ⟨(fun id hid => by cases hid), fun id hid => by cases hid⟩
  | attempt j stat =>
    simp only [duoStep] at hs
    split at hs
    · cases hs
    · rename_i r hr
      have hmem := hold r (List.mem_of_getElem? hr)
      split at hs
      · cases hs
        unfold Duo.beginAttempt at hold hset hmem ⊢
        split
        · rename_i c hc
          simp only [hc] at hold hset hmem
          refine hset j _ ⟨hmem.failed, fun id hid => ?_⟩
          cases hid
          exact ⟨_, AList.lookup_insert _, (sendOne_starting hc).2⟩
        · rename_i err hc
          simp only [hc] at hold hset hmem
          exact hset j _ ⟨hmem.failed, hmem.current⟩
      · cases hs
  | settle j =>
    simp only [duoStep] at hs
    split at hs
    · cases hs
    · rename_i r hr
      have hmem := h r (List.mem_of_getElem? hr)
      split at hs
      · cases hs
      · rename_i id hid
        obtain ⟨o, hl, hp⟩ := hmem.current id hid
        simp only [hl] at hs
        split at hs
        · rename_i result hphase
          cases hs
          refine hset j _ ?_
          cases result with
          | ok detail => exact ⟨hmem.failed, hmem.current⟩
          | error err =>
            refine ⟨fun id' hid' => ?_, fun id' hid' => by cases hid'⟩
            rcases List.mem_append.1 hid' with hid' | hid'
            · exact hmem.failed id' hid'
            · rw [List.mem_singleton.1 hid']
              exact ⟨o, err, hl, hp, hphase⟩
        · cases hs
  | sendClipImage png => cases hs; exact hold
  | elsewhere => cases hs; exact hold
  | queue k | openFile k err | read k res | nextChunk k | answer k | timeout k =>
    obtain ⟨out, -, rfl⟩ := Option.map_eq_some_iff.1 hs
    exact hold
  | chatA msg | foreign f | chatB msg =>
    simp only [duoStep] at hs
    split at hs
    all_goals cases hs
    exact hold
  | process io registry | transmit | receive =>
    simp only [duoStep] at hs
    split at hs
    all_goals cases hs
    exact hold

/-- The step lemma: every step that meets the condition keeps the invariant. -/
theorem duoSound_step (h : DuoSound ida s) (hok : acknowledged sha256 ida s e = true)
    (hs : duoStep sha256 cfg ida idb s e = some s') : DuoSound ida s' := by
  have hmoves := transfer_step h.waiting.fresh hs
  refine ⟨duo_waiting h.waiting hs, fun id => ?_, duoStep_retries h.retries hs fun id o hl => ?_⟩
  · rcases hmoves id with heq | ⟨mv, hmv, hcaused⟩
    · rw [heq]
      exact h.transfers id
    · exact transferSound_step (h.transfers id) hmv (fair_of_acknowledged hok hcaused)
  · rcases hmoves id with heq | ⟨mv, hmv, -⟩
    · exact ⟨o, (congrArg Transfer.call heq).trans hl, rfl, fun _ h => h⟩
    · exact hmv.call_stays hl

/-- A call for a file has returned `Ok` exactly when the file is in place. -/
private theorem CallSound.outcome {id : Nat} {t : Transfer} {o : Outgoing} {result : Except String String}
    (h : CallSound id t o) (hfile : o.call.purpose = .file) (hr : o.call.phase = .returned result) :
    (∃ detail, result = .ok detail) ↔ t.placed ≠ 0 := by
  constructor
  · rintro ⟨detail, rfl⟩
    have hack := h.ok detail hr
    cases h.stage with
    | fresh _ _ _ hu | sent _ _ _ _ _ _ hu | opened _ _ _ _ _ hu =>
      rw [hu.ack] at hack
      cases hack
    | closed _ _ _ _ hno => exact absurd hack (hno hfile detail).2
    | placed _ _ hp => rw [hp]; exact one_ne_zero
  · intro hplaced
    cases h.stage with
    | fresh _ _ _ hu | sent _ _ _ _ _ _ hu | opened _ _ _ _ _ hu => exact absurd hu.placed hplaced
    | closed _ _ _ hp => exact absurd hp hplaced
    | placed _ _ _ _ hc =>
      rcases hc with ⟨hc, -⟩ | ⟨detail, hc⟩
      · rw [hc] at hr; cases hr
      · rw [hc] at hr
        cases hr
        exact ⟨detail, rfl⟩

private theorem TransferSound.placed_le {id : Nat} {t : Transfer} (h : TransferSound id t) : t.placed ≤ 1 := by
  cases hl : t.call with
  | none => rw [(h.unused hl).2.2.2]; exact zero_le_one
  | some o =>
    cases (h.call o hl).stage with
    | fresh _ _ _ hu | sent _ _ _ _ _ _ hu | opened _ _ _ _ _ hu => rw [hu.placed]; exact zero_le_one
    | closed _ _ _ hp => rw [hp]; exact zero_le_one
    | placed _ _ hp => exact hp.le

theorem mem_placedIds (id : Nat) : id ∈ placedIds ida s.b.log ↔ (s.transfer ida id).placed ≠ 0 := by
  rw [← List.count_pos_iff, Nat.pos_iff_ne_zero]
  rfl

theorem agreed_of_duoSound (h : DuoSound ida s) : Agreed ida s := by
  refine ⟨fun id o result hl hfile hr => ?_, fun r hr => ?_⟩
  · rw [mem_placedIds]
    exact ((h.transfers id).call o hl).outcome hfile hr
  · have hnodup : (placedIds ida s.b.log).Nodup :=
      List.nodup_iff_count_le_one.2 fun id => (h.transfers id).placed_le
    -- of the ids of the call only the last can be in place
    have hsub : (placedIds ida s.b.log).filter (· ∈ r.ids) ⊆ r.current.toList := by
      intro id hid
      obtain ⟨hplaced, hid⟩ := List.mem_filter.1 hid
      rcases List.mem_append.1 (of_decide_eq_true hid) with hfailed | hcur
      · obtain ⟨o, err, hl, hfile, hphase⟩ := (h.retries r hr).failed id hfailed
        obtain ⟨detail, hok⟩ := (((h.transfers id).call o hl).outcome hfile hphase).2 ((mem_placedIds id).1 hplaced)
        cases hok
      · exact hcur
    calc ((placedIds ida s.b.log).filter (· ∈ r.ids)).length
        ≤ r.current.toList.length := ((hnodup.filter _).subperm hsub).length_le
      _ ≤ 1 := by cases r.current <;> simp

end System

/-- In every run in which a file is put in place only while there is room for its acknowledgement, and in which a
timeout fires only when neither the end of its transfer nor an acknowledgement is on its way: `send_one` returns `Ok`
exactly when the file was put in place, and a `send_one_with_retry` call leaves at most one copy. -/
theorem outcome_agreed (sha256 : Bytes → Digest) (cfg : XferConfig) (ida idb : DeviceId) (fs : FileSys PathBuf)
    (es : List DuoEvent) (s : Duo)
    (hr : Run (duoStep sha256 cfg ida idb) (fun s e => acknowledged sha256 ida s e = true) (Duo.start fs) es s) :
    Agreed ida s :=
  agreed_of_duoSound (hr.invariant (duoSound_start fs) fun _ _ _ h hok hs => duoSound_step h hok hs)

/-! ### An acknowledgement that does not fit -/

/-- SHA-256 of the empty file, the only one sent below. -/
private def emptyDigest : Bytes → Digest := fun _ => #v[
  0xe3, 0xb0, 0xc4, 0x42, 0x98, 0xfc, 0x1c, 0x14, 0x9a, 0xfb, 0xf4, 0xc8, 0x99, 0x6f, 0xb9, 0x24,
  0x27, 0xae, 0x41, 0xe4, 0x64, 0x9b, 0x93, 0x4c, 0xa4, 0x95, 0x99, 0x1b, 0x78, 0x52, 0xb8, 0x55]

/-- An attempt to send the empty file `/f` under `id`, up to `BlobEnd`. -/
private def attemptEvents (id : Nat) : List DuoEvent :=
  [.attempt 0 (.ok (true, 0)), .queue id, .openFile id none, .read id (.ok []), .queue id]

private def processTwo : List DuoEvent := [.process Io.ok .absent, .process Io.ok .absent]

theorem outcome_agreed_empty_file :
    ∃ s, Run (duoStep emptyDigest ⟨"d", .never, false⟩ "a" "b") (fun s e => acknowledged emptyDigest "a" s e = true)
        (Duo.start FileSys.empty)
        ([.sendWithRetry "/f"] ++ attemptEvents 1 ++ processTwo ++ [.transmit, .receive, .answer 1, .settle 0]) s ∧
      placedIds "a" s.b.log = [1] ∧ Agreed "a" s := by
  obtain ⟨s, hr, hv⟩ := run_of_exec_checked (duoStep emptyDigest ⟨"d", .never, false⟩ "a" "b")
    (fun s e => acknowledged emptyDigest "a" s e = true) (Duo.start FileSys.empty)
    ([.sendWithRetry "/f"] ++ attemptEvents 1 ++ processTwo ++ [.transmit, .receive, .answer 1, .settle 0])
    (fun s => placedIds "a" s.b.log) [1] (by decide +kernel)
  exact ⟨s, hr, hv, outcome_agreed _ _ _ _ _ _ _ hr⟩

/-- `b`, which is sending a large file to `a` at the same time, has its outbound channel full when it puts `/f` in
place, so the acknowledgement is dropped.  `a` times out and sends `/f` again: one call, two copies. -/
theorem retry_duplicates :
    ¬ ∀ (sha256 : Bytes → Digest) (cfg : XferConfig) (ida idb : DeviceId) (fs : FileSys PathBuf) (es : List DuoEvent)
      (s : Duo), Run (duoStep sha256 cfg ida idb) (fun s e => patient s e = true) (Duo.start fs) es s →
        Agreed ida s := by
  intro h
  obtain ⟨s, hr, hv⟩ := run_of_exec_checked (duoStep emptyDigest ⟨"d", .never, false⟩ "a" "b")
    (fun s e => patient s e = true) (Duo.start FileSys.empty)
    ([.sendWithRetry "/f"] ++ attemptEvents 1 ++ List.replicate 64 (.chatB (.blobChunk 9 [0])) ++ processTwo ++
      [.timeout 1, .settle 0] ++ attemptEvents 2 ++ processTwo)
    (fun s => (placedIds "a" s.b.log, s.retries.map RetryCall.ids)) ([1, 2], [[1, 2]]) (by decide +kernel)
  have hplaced : placedIds "a" s.b.log = [1, 2] := congrArg Prod.fst hv
  have hids : s.retries.map RetryCall.ids = [[1, 2]] := congrArg Prod.snd hv
  obtain ⟨r, hmem, hrids⟩ := List.mem_map.1 (hids ▸ List.mem_singleton.2 rfl : [1, 2] ∈ s.retries.map RetryCall.ids)
  have := (h _ _ _ _ _ _ s hr).2 r hmem
  rw [hplaced, hrids] at this
  exact absurd this (by decide)

end Qdrop
