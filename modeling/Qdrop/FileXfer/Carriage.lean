import Mathlib.Data.Finset.Card
import Qdrop.FileXfer.Agree

/-!
# The setting of the round trip, and one transfer in it

One sender, one receiver, and regular files with different names.  `Smooth` says what the steps of this setting are:
the reads of a file may split it in any way, and the calls that stream files may interleave in any way.

Each transfer is followed on its own (`Carriage`): what the receiver has hashed, the chunks on their way and the chunk
about to be queued are together what the sender has read so far, and every step keeps it so (`transferCarried_step`).
-/

namespace Qdrop

open Lib

/-! ### The conditions -/

/-- The download directory and its `pending` subdirectory have nothing in them. -/
structure EmptyDownload (cfg : XferConfig) (fs : FileSys PathBuf) : Prop where
  directory : ∀ i, fs.node cfg.downloadDir ≠ some (.file i)
  children : ∀ n, Bare n → fs.node (join cfg.downloadDir n) = none
  pending : ∀ n, Bare n → fs.node (join (join cfg.downloadDir "pending") n) = none

theorem EmptyDownload.free {cfg : XferConfig} {fs : FileSys PathBuf} (h : EmptyDownload cfg fs) {dir : PathBuf}
    (hdir : dir = cfg.downloadDir ∨ dir = join cfg.downloadDir "pending") {n : String} (hn : Bare n) :
    fs.node (join dir n) = none := by
  rcases hdir with rfl | rfl
  · exact h.children n hn
  · exact h.pending n hn

/-- The name of a file that may be sent: it is safe as it stands and does not start with a dot. -/
def Plain (name : String) : Prop := safeBlobName name = some name ∧ name.toList.head? ≠ some '.'

instance (name : String) : Decidable (Plain name) := inferInstanceAs (Decidable (_ ∧ _))

/-- `metadata` tells the truth about a regular file. -/
def statOf (content : PathBuf → Bytes) (path : PathBuf) : Except String (Bool × Nat) → Bool
  | .ok (isFile, len) => isFile && len == (content path).length
  | .error _ => false

/-- A read returns the next piece of the file, and nothing only at its end. -/
def nextPiece (content : PathBuf → Bytes) (c : SendCall) (res : Except String Bytes) : Bool :=
  match c.source, res with
  | .file path, .ok data =>
    decide (c.hasher ++ data <+: content path) && (data != [] || c.hasher == content path)
  | .file _, .error _ => false
  | .mem _, _ => true

/-- The transfers of `a` that are open: their `BlobStart` has been queued and their `BlobEnd` has not. -/
def Duo.openIds (s : Duo) : Finset Nat :=
  s.a.calls.keys.toFinset.filter fun id => (s.a.calls.lookup id).any (·.call.isStreaming)

/-- A step of the setting of the round trip.  The files asked for are regular and have the contents `content`
throughout, their names are plain and different, each is sent once, and reads return the next piece of a file (the empty
one at its end).  Fewer than 16 transfers are open when another one starts, the receiver's file system calls succeed,
and an acknowledgement has room.  Nobody else sends blobs.

With `one = some registry` the files keep going to the directory that `registry` gives.  With `one = none` the trust
roster may change, and the directory with it; then no file is called `pending`, like the second directory. -/
def Smooth (cfg : XferConfig) (ida : DeviceId) (content : PathBuf → Bytes) (one : Option PeersFile) (s : Duo) :
    DuoEvent → Prop
  | .sendWithRetry path => ∃ name ∈ fileName path, Plain name ∧ (one.isNone = true → name ≠ "pending") ∧
      ∀ r ∈ s.retries, fileName r.path ≠ some name
  | .attempt j stat => ∀ r ∈ s.retries[j]?, r.attempt = 0 ∧ statOf content r.path stat = true
  | .queue id => ∀ o ∈ s.a.calls.lookup id, o.call.isStarting = true → s.openIds.card < maxConcurrentIncoming
  | .openFile _ err => err = none
  | .read id res => ∀ o ∈ s.a.calls.lookup id, nextPiece content o.call res = true
  | .process io registry => io = Io.ok ∧ (∀ r ∈ one, finalDirFor cfg registry ida = finalDirFor cfg r ida) ∧
      ∀ m ∈ s.toB.head?, m.isEnd = true → s.out.length < outboundCap
  | .foreign _ | .sendClipImage _ => False
  | _ => True

instance (cfg : XferConfig) (ida : DeviceId) (content : PathBuf → Bytes) (one : Option PeersFile) (s : Duo) :
    ∀ e, Decidable (Smooth cfg ida content one s e)
  | .sendWithRetry path => inferInstanceAs (Decidable (∃ name ∈ fileName path, _ ∧ (_ → _) ∧ ∀ r ∈ s.retries, _))
  | .attempt j _ => inferInstanceAs (Decidable (∀ r ∈ s.retries[j]?, _ ∧ _))
  | .queue id => inferInstanceAs (Decidable (∀ o ∈ s.a.calls.lookup id, _ → _))
  | .openFile _ err => inferInstanceAs (Decidable (err = none))
  | .read id res => inferInstanceAs (Decidable (∀ o ∈ s.a.calls.lookup id, nextPiece content o.call res = true))
  | .process _ _ => inferInstanceAs (Decidable (_ ∧ (∀ r ∈ one, _) ∧ ∀ m ∈ s.toB.head?, _ → _))
  | .foreign _ | .sendClipImage _ => inferInstanceAs (Decidable False)
  | .settle _ | .elsewhere | .nextChunk _ | .answer _ | .timeout _ | .chatA _ | .chatB _ | .transmit | .receive =>
    inferInstanceAs (Decidable True)

/-- The call has queued all its frames, and the receiver has handled them. -/
def Carried (ida : DeviceId) (s : Duo) (id : Nat) (o : Outgoing) : Prop :=
  o.call.isStarting = false ∧ o.call.isStreaming = false ∧ (s.transfer ida id).frames = []

/-- The receiver took the `BlobStart` of transfer `id` while the sender's files went to `dir`. -/
def StartedIn (cfg : XferConfig) (ida : DeviceId) (log : Log) (id : Nat) (dir : PathBuf) : Prop :=
  ∃ h ∈ log, h.1.peer = ida ∧ h.1.msg.isStart = true ∧ blobId h.1.msg = some id ∧
    finalDirFor cfg h.1.registry ida = dir

/-- The acknowledgement of transfer `id` is on its way or has come in; it says `ok = true`, and there is no other. -/
def AckedOk (ida : DeviceId) (s : Duo) (id : Nat) : Prop :=
  (s.transfer ida id).heard ++ (s.transfer ida id).answers ≠ [] ∧
    ∀ a ∈ (s.transfer ida id).heard ++ (s.transfer ida id).answers, ∃ detail, a = .blobAck id true detail

/-! ### One transfer -/

/-- The bytes that were read and not queued yet. -/
def SendCall.unsent (c : SendCall) : Bytes :=
  match c.phase with
  | .sending data => data
  | _ => []

/-- Everything was read. -/
def SendCall.isDone (c : SendCall) : Bool :=
  match c.phase with
  | .ending | .awaiting | .returned _ => true
  | _ => false

def Message.payload : Message → Bytes
  | .blobChunk _ data => data
  | _ => []

/-- The bytes carried by some frames. -/
def payload (frames : List Message) : Bytes := frames.flatMap Message.payload

/-- The call sends the file at `path` as it is. -/
structure Faithful (content : PathBuf → Bytes) (c : SendCall) (path : PathBuf) : Prop where
  source : c.source = .file path
  purpose : c.purpose = .file
  size : c.size = (content path).length
  plain : Plain c.name
  sofar : c.hasher <+: content path
  new : c.isStarting = true → c.hasher = []
  whole : c.isDone = true → c.hasher = content path

structure Unheard (t : Transfer) : Prop where
  answers : t.answers = []
  heard : t.heard = []
  placed : t.placed = 0

/-- How far a transfer has come. -/
inductive Carriage (id : Nat) (t : Transfer) (c : SendCall) : Prop
  | fresh (hc : c.isStarting = true) (hf : t.frames = []) (he : t.entry = none) (hu : Unheard t)
  | sent (rest : List Message) (hc : c.isStarting = false)
      (hf : t.frames = .blobStart id c.name c.size .file :: rest) (he : t.entry = none) (hu : Unheard t)
      (hb : payload rest ++ c.unsent = c.hasher) (hend : c.isStreaming = false → ∃ m ∈ t.frames, m.isEnd = true)
  | opened (inc : Incoming) (hc : c.isStarting = false) (hf : ∀ m ∈ t.frames, m.isStart = false)
      (he : t.entry = some inc) (hu : Unheard t) (hfile : inc.isFile = true) (hname : inc.name = c.name)
      (hsize : inc.declared = c.size) (hwritten : inc.written = inc.hasher.length)
      (hb : inc.hasher ++ payload t.frames ++ c.unsent = c.hasher)
      (hend : c.isStreaming = false → ∃ m ∈ t.frames, m.isEnd = true)
  | placed (hc : c.isStarting = false) (hst : c.isStreaming = false) (hf : t.frames = []) (he : t.entry = none)
      (hp : t.placed = 1)
      (hacked : t.heard ++ t.answers ≠ [] ∧ ∀ a ∈ t.heard ++ t.answers, ∃ detail, a = .blobAck id true detail)

structure CallCarried (sha256 : Bytes → Digest) (content : PathBuf → Bytes) (id : Nat) (t : Transfer) (o : Outgoing) :
    Prop where
  faithful : ∃ path, Faithful content o.call path
  carriage : Carriage id t o.call
  order : t.frames.Pairwise fun m₁ m₂ => m₁.isEnd = false ∧ m₂.isStart = false
  ended : (∃ m ∈ t.frames, m.isEnd = true) → o.call.isStarting = false ∧ o.call.isStreaming = false
  digest : ∀ sha, .blobEnd id sha ∈ t.frames → sha = sha256 o.call.hasher

structure TransferCarried (sha256 : Bytes → Digest) (content : PathBuf → Bytes) (id : Nat) (t : Transfer) : Prop where
  unused : t.call = none → t.frames = [] ∧ t.entry = none ∧ Unheard t
  call : ∀ o, t.call = some o → CallCarried sha256 content id t o

/-- What the setting says about a step of the transfer. -/
def Move.Smooth (content : PathBuf → Bytes) (id : Nat) (t : Transfer) : Move → Prop
  | .begin c => ∃ path, Faithful content c path
  | .goOn (.opened err) => err = none
  | .goOn (.read res) => ∀ o ∈ t.call, nextPiece content o.call res
  | .handle acks _ room => (∀ detail, .blobAck id false detail ∉ acks) ∧ (acks ≠ [] → room = true)
  | _ => True

section Calls

variable {sha256 : Bytes → Digest} {content : PathBuf → Bytes} {path : PathBuf} {c c' : SendCall} {id : Nat}
  {m : Message}

@[simp] theorem payload_nil : payload [] = [] := rfl

@[simp] theorem payload_cons (frames : List Message) : payload (m :: frames) = m.payload ++ payload frames := rfl

@[simp] theorem payload_append (f₁ f₂ : List Message) : payload (f₁ ++ f₂) = payload f₁ ++ payload f₂ :=
  List.flatMap_append

private theorem nextPiece_file {res : Except String Bytes} (h : nextPiece content c res = true)
    (hsource : c.source = .file path) :
    ∃ data, res = .ok data ∧ c.hasher ++ data <+: content path ∧ (data = [] → c.hasher = content path) := by
  unfold nextPiece at h
  rw [hsource] at h
  cases res with
  | error err => cases h
  | ok data =>
    simp only [Bool.and_eq_true, decide_eq_true_eq, Bool.or_eq_true, bne_iff_ne, ne_eq, beq_iff_eq] at h
    exact ⟨data, rfl, h.1, fun hd => h.2.resolve_left (not_not.2 hd)⟩

/-- The call an attempt begins sends the file as it is. -/
theorem faithful_sendOne {stat : Except String (Bool × Nat)} (h : sendOne (some 0) path stat = .ok c)
    (hstat : statOf content path stat = true) (hname : ∀ name ∈ fileName path, Plain name) :
    Faithful content c path ∧ c.name ∈ fileName path := by
  unfold sendOne at h
  split at h
  · cases h
  · cases h
  · rename_i conn isFile len hconn
    split at h
    · cases h
    · split at h
      · cases h
      · rename_i name hfile
        cases h
        have hlen : len = (content path).length := by
          simp only [statOf, Bool.and_eq_true, beq_iff_eq] at hstat
          exact hstat.2
        exact ⟨⟨rfl, rfl, hlen, hname name hfile, List.nil_prefix, fun _ => rfl, fun h => by cases h⟩, hfile⟩

/-- Queueing moves the bytes from the call to the frames. -/
private theorem queued_content (h : c.frame sha256 id = some m) (hf : Faithful content c path) :
    Faithful content c.queued path ∧ c.queued.name = c.name ∧ c.queued.hasher = c.hasher ∧
      c.queued.size = c.size ∧ m.payload ++ c.queued.unsent = c.unsent ∧
      (∀ sha, m = .blobEnd id sha → sha = sha256 c.hasher) ∧ (c.queued.isStreaming = false → m.isEnd = true) := by
  obtain ⟨hsource, hpurpose, hsize, hplain, hsofar, hnew, hwhole⟩ := hf
  obtain ⟨conn, name, size, purpose, source, hasher, phase⟩ := c
  cases hsource
  cases phase with
  | starting =>
    cases h
    exact ⟨⟨rfl, hpurpose, hsize, hplain, hsofar, (fun h => by cases h), fun h => by cases h⟩, rfl, rfl, rfl, rfl,
      (fun _ h => by cases h), fun h => by cases h⟩
  | sending data =>
    cases h
    exact ⟨⟨rfl, hpurpose, hsize, hplain, hsofar, (fun h => by cases h), fun h => by cases h⟩, rfl, rfl, rfl,
      List.append_nil _, (fun _ h => by cases h), fun h => by cases h⟩
  | ending =>
    cases h
    exact ⟨⟨rfl, hpurpose, hsize, hplain, hsofar, (fun h => by cases h), fun _ => hwhole rfl⟩, rfl, rfl, rfl, rfl,
      (fun _ h => by cases h; rfl), fun _ => rfl⟩
  | opening | reading | awaiting | returned => cases h

/-- What a read adds is hashed and about to be queued. -/
theorem goOn_content {l : LocalStep} {t : Transfer} {o : Outgoing} (ho : t.call = some o)
    (h : o.call.goOn l = some c') (hf : Faithful content o.call path) (hsmooth : (Move.goOn l).Smooth content id t) :
    Faithful content c' path ∧ c'.name = o.call.name ∧ c'.size = o.call.size ∧ c'.isStreaming = true ∧
      ∃ data, c'.hasher = o.call.hasher ++ data ∧ c'.unsent = o.call.unsent ++ data := by
  obtain ⟨hsource, hpurpose, hsize, hplain, hsofar, hnew, hwhole⟩ := hf
  cases l with
  | opened err =>
    obtain rfl : err = none := hsmooth
    have h : o.call.opened none = some c' := h
    unfold SendCall.opened at h
    split at h
    · rename_i hphase
      cases h
      exact ⟨⟨hsource, hpurpose, hsize, hplain, hsofar, (fun h => by cases h), fun h => by cases h⟩, rfl, rfl, rfl, [],
        by simp, by simp [SendCall.unsent, hphase]⟩
    · cases h
  | read res =>
    obtain ⟨data, rfl, hprefix, hend⟩ := nextPiece_file (hsmooth o ho) hsource
    have h : o.call.read (.ok data) = some c' := h
    unfold SendCall.read at h
    split at h
    · rename_i hphase _
      dsimp only at h
      split at h
      · rename_i hdata
        cases h
        exact ⟨⟨hsource, hpurpose, hsize, hplain, hsofar, (fun h => by cases h), fun _ => hend hdata⟩, rfl, rfl, rfl,
          [], by simp, by simp [SendCall.unsent, hphase]⟩
      · split at h
        · cases h
          exact ⟨⟨hsource, hpurpose, hsize, hplain, hprefix, (fun h => by cases h), fun h => by cases h⟩, rfl, rfl,
            rfl, data, rfl, by simp [SendCall.unsent, hphase]⟩
        · cases h
    · cases h
  | nextChunk =>
    have h : o.call.nextChunk = some c' := h
    unfold SendCall.nextChunk at h
    rw [hsource] at h
    split at h
    · rename_i heq
      cases heq
    · cases h

private theorem answered_content {answer : SendCall.Answer} (h : c.answered answer = some c')
    (hf : Faithful content c path) :
    Faithful content c' path ∧ c'.name = c.name ∧ c'.size = c.size ∧ c'.hasher = c.hasher ∧ c'.unsent = c.unsent := by
  obtain ⟨hsource, hpurpose, hsize, hplain, hsofar, hnew, hwhole⟩ := hf
  unfold SendCall.answered at h
  split at h
  · rename_i hphase
    have hdone : c.hasher = content path := hwhole (by simp [SendCall.isDone, hphase])
    have hunsent : c.unsent = [] := by simp [SendCall.unsent, hphase]
    split at h
    all_goals
      cases h
      exact ⟨⟨hsource, hpurpose, hsize, hplain, hsofar, (fun h => by cases h), fun _ => hdone⟩, rfl, rfl, rfl,
        hunsent.symm⟩
  · cases h

end Calls

/-! ### Every step carries the transfer on -/

section Moves

variable {sha256 : Bytes → Digest} {content : PathBuf → Bytes} {id : Nat} {t : Transfer} {o : Outgoing}

private theorem carried_begin (peer : DeviceId) {c : SendCall} (hc : c.isStarting = true)
    (hf : ∃ path, Faithful content c path) (h : t.frames = [] ∧ t.entry = none ∧ Unheard t) :
    CallCarried sha256 content id { t with call := some ⟨peer, c, none, none⟩, waiter := true }
      ⟨peer, c, none, none⟩ := by
  obtain ⟨hfr, he, hu⟩ := h
  refine ⟨hf, .fresh hc hfr he ⟨hu.answers, hu.heard, hu.placed⟩, ?_, ?_, ?_⟩
  · simp [hfr]
  · simp [hfr]
  · simp [hfr]

private theorem carried_queue {m : Message} (h : CallCarried sha256 content id t o)
    (hm : o.call.frame sha256 id = some m) :
    CallCarried sha256 content id { t with call := some { o with call := o.call.queued }, frames := t.frames ++ [m] }
      { o with call := o.call.queued } := by
  obtain ⟨-, hstart, -, hcase⟩ := SendCall.queued_cases hm
  obtain ⟨path, hf⟩ := h.faithful
  obtain ⟨hf', hname, hhash, hsize, hpay, hsha, hlast⟩ := queued_content hm hf
  have hend' : o.call.queued.isStreaming = false → ∃ m' ∈ t.frames ++ [m], m'.isEnd = true :=
    fun hst => ⟨m, by simp, hlast hst⟩
  have hnoend := no_end_of_sending h.ended (hcase.imp And.left And.left)
  have hfresh : o.call.isStarting = true → t.frames = [] := by
    intro hs
    cases h.carriage with
    | fresh _ hfr => exact hfr
    | sent _ hc | opened _ hc | placed hc => rw [hc] at hs; cases hs
  -- a frame after the first one is no `BlobStart`
  have hnostart : o.call.isStarting = false → m.isStart = false := by
    intro hs
    rcases hcase with ⟨hs', -⟩ | ⟨-, hm, -⟩
    · rw [hs] at hs'; cases hs'
    · exact hm
  refine ⟨⟨path, hf'⟩, ?_, order_queued hm hfresh hnoend h.order, ended_queued hm hnoend, ?_⟩
  · cases h.carriage with
    | fresh hc hfr he hu =>
      rcases hcase with ⟨-, rfl⟩ | ⟨hs, -⟩
      · refine .sent [] hstart ?_ he ⟨hu.answers, hu.heard, hu.placed⟩ ?_ ?_
        · simp [hfr, hname, hsize, hf.purpose]
        · rw [hhash, hf.new hc]
          have : o.call.unsent = [] := by
            unfold SendCall.isStarting at hc
            split at hc
            · rename_i hphase
              simp [SendCall.unsent, hphase]
            · cases hc
          rw [this] at hpay
          simpa using (List.append_eq_nil_iff.1 hpay).2
        · exact hend'
      · rw [SendCall.isStreaming_of_isStarting hc] at hs
        cases hs
    | sent rest hc hfr he hu hb =>
      refine .sent (rest ++ [m]) hstart ?_ he ⟨hu.answers, hu.heard, hu.placed⟩ ?_ hend'
      · simp [hfr, hname, hsize]
      · rw [hhash, ← hb, ← hpay]
        simp
    | opened inc hc hfr he hu hfile hn hs hw hb =>
      refine .opened inc hstart ?_ he ⟨hu.answers, hu.heard, hu.placed⟩ hfile (hn.trans hname.symm)
        (hs.trans hsize.symm) hw ?_ hend'
      · intro m' hm'
        rcases List.mem_append.1 hm' with hm' | hm'
        · exact hfr m' hm'
        · rw [List.mem_singleton.1 hm']
          exact hnostart hc
      · rw [hhash, ← hb, ← hpay]
        simp
    | placed hc hst =>
      -- a call that waits or has returned queues nothing
      rcases hcase with ⟨hs, -⟩ | ⟨hs, -⟩
      · rw [hc] at hs; cases hs
      · rw [hst] at hs; cases hs
  · intro sha hsha'
    rw [hhash]
    rcases List.mem_append.1 hsha' with hm' | hm'
    · have : (Message.blobEnd id sha).isEnd = false := hnoend _ hm'
      cases this
    · exact hsha sha (List.mem_singleton.1 hm').symm

private theorem carried_goOn {l : LocalStep} {c : SendCall} (h : CallCarried sha256 content id t o)
    (hl : t.call = some o) (hc : o.call.goOn l = some c) (hsmooth : (Move.goOn l).Smooth content id t) :
    CallCarried sha256 content id { t with call := some { o with call := c }, waiter := t.waiter && !c.hasReturned }
      { o with call := c } := by
  obtain ⟨hst, hs, hs', -⟩ := SendCall.goOn_readsOn hc
  obtain ⟨path, hf⟩ := h.faithful
  obtain ⟨hf', hname, hsize, hst', data, hhash, hunsent⟩ := goOn_content hl hc hf hsmooth
  have hend' : c.isStreaming = false → ∃ m ∈ t.frames, m.isEnd = true := fun h => by rw [hst'] at h; cases h
  have hnoend := no_end_of_sending h.ended (Or.inr hst)
  refine ⟨⟨path, hf'⟩, ?_, h.order, ?_, ?_⟩
  · cases h.carriage with
    | fresh hc => rw [hs] at hc; cases hc
    | sent rest _ hfr he hu hb =>
      refine .sent rest hs' (by rw [hname, hsize]; exact hfr) he ⟨hu.answers, hu.heard, hu.placed⟩ ?_ hend'
      simp only [hunsent, hhash, ← hb, List.append_assoc]
    | opened inc _ hfr he hu hfile hn hsz hw hb =>
      refine .opened inc hs' hfr he ⟨hu.answers, hu.heard, hu.placed⟩ hfile (hn.trans hname.symm)
        (hsz.trans hsize.symm) hw ?_ hend'
      simp only [hunsent, hhash, ← hb, List.append_assoc]
    | placed _ hst' => rw [hst] at hst'; cases hst'
  · rintro ⟨m, hm, hend⟩
    rw [hnoend m hm] at hend
    cases hend
  · intro sha hsha
    have : (Message.blobEnd id sha).isEnd = false := hnoend _ hsha
    cases this

private theorem carried_answered {answer : SendCall.Answer} {c : SendCall} (h : CallCarried sha256 content id t o)
    (hc : o.call.answered answer = some c) :
    CallCarried sha256 content id { t with call := some { o with call := c }, waiter := false }
      { o with call := c } := by
  obtain ⟨hphase, -, hs', -, hst'⟩ := SendCall.answered_awaiting hc
  obtain ⟨path, hf⟩ := h.faithful
  obtain ⟨hf', hname, hsize, hhash, hunsent⟩ := answered_content hc hf
  have hwait : o.call.isStreaming = false := by simp [SendCall.isStreaming, hphase]
  refine ⟨⟨path, hf'⟩, ?_, h.order, fun _ => ⟨hs', hst'⟩, fun sha hsha => ?_⟩
  · cases h.carriage with
    | fresh hs => simp [SendCall.isStarting, hphase] at hs
    | sent rest _ hfr he hu hb hend =>
      exact .sent rest hs' (by rw [hname, hsize]; exact hfr) he ⟨hu.answers, hu.heard, hu.placed⟩
        (by rw [hunsent, hhash]; exact hb) fun _ => hend hwait
    | opened inc _ hfr he hu hfile hn hsz hw hb hend =>
      exact .opened inc hs' hfr he ⟨hu.answers, hu.heard, hu.placed⟩ hfile (hn.trans hname.symm)
        (hsz.trans hsize.symm) hw (by rw [hunsent, hhash]; exact hb) fun _ => hend hwait
    | placed _ _ hfr he hp hacked => exact .placed hs' hst' hfr he hp hacked
  · rw [hhash]
    exact h.digest sha hsha

private theorem carried_handle {m : Message} {rest : List Message} {entry : Option Incoming} {acks : List Message}
    {renamed room : Bool} (h : CallCarried sha256 content id t o) (hq : t.frames = m :: rest)
    (hh : Handling id t.entry m entry acks renamed) (hsmooth : (Move.handle acks renamed room).Smooth content id t) :
    CallCarried sha256 content id
      { t with
        frames := rest
        entry := entry
        answers := t.answers ++ if room then acks else []
        placed := t.placed + renamed.toNat } o := by
  obtain ⟨hno, hroom⟩ := hsmooth
  have hsub : ∀ m' ∈ rest, m' ∈ t.frames := fun m' h => by rw [hq]; exact List.mem_cons_of_mem _ h
  have horder := h.order
  rw [hq, List.pairwise_cons] at horder
  have hquiet : ∀ (e' : Option Incoming) (p : Nat), Unheard t → p = 0 →
      Unheard ⟨t.call, t.waiter, rest, e', t.answers ++ if room then [] else [], t.heard, p⟩ := by
    intro e' p hu hp
    refine ⟨?_, hu.heard, hp⟩
    cases room <;> simp [hu.answers]
  refine ⟨h.faithful, ?_, horder.2, fun ⟨m', hm', hend⟩ => h.ended ⟨m', hsub m' hm', hend⟩,
    fun sha hsha => h.digest sha (hsub _ hsha)⟩
  cases h.carriage with
  | fresh _ hfr => rw [hfr] at hq; cases hq
  | placed _ _ hfr => rw [hfr] at hq; cases hq
  | sent rest' hc hfr he hu hb hend =>
    rw [hfr, List.cons.injEq] at hq
    obtain ⟨rfl, rfl⟩ := hq
    obtain ⟨path, hf⟩ := h.faithful
    rw [hfr] at hend
    rw [he] at hh
    cases hh with
    | ignored _ hm => exact absurd rfl (hm _ _ _)
    | refused _ _ _ _ detail => exact absurd (List.mem_singleton.2 rfl) (hno detail)
    | opened _ _ _ _ inc hfile hname hnew =>
      obtain ⟨hh, hw, hd⟩ := hnew
      refine .opened inc hc (fun m' hm' => (horder.1 m' hm').2) rfl (hquiet _ _ hu hu.placed) hfile ?_ hd ?_ ?_
        (fun hst => by simpa [Message.isEnd] using hend hst)
      · have hsafe := hname rfl
        rw [hf.plain.1] at hsafe
        exact (Option.some.inj hsafe).symm
      · rw [hw, hh]; rfl
      · rw [hh]
        exact hb
  | opened inc hc hfr he hu hfile hname hsize hw hb hend =>
    have hm : m.isStart = false := hfr m (by rw [hq]; exact List.mem_cons_self ..)
    have hfr' : ∀ m' ∈ rest, m'.isStart = false := fun m' hm' => hfr m' (hsub m' hm')
    rw [he] at hh
    rw [hq] at hb hend
    cases hh with
    | refused | opened => cases hm
    | extended _ data sink hsame =>
      refine .opened _ hc hfr' rfl (hquiet _ _ hu hu.placed) (hsame.trans hfile) hname hsize ?_ ?_
        (fun hst => by simpa [Message.isEnd] using hend hst)
      · simp [Incoming.push, hw]
      · simpa [Incoming.push, Message.payload] using hb
    | cut _ _ detail _ => exact absurd (List.mem_singleton.2 rfl) (hno detail)
    | clipped _ sha detail hmem => rw [hfile] at hmem; cases hmem
    | placed _ sha _ =>
      obtain rfl : room = true := hroom (List.cons_ne_nil _ _)
      have hend : (Message.blobEnd id sha).isEnd = true := rfl
      have hrest : rest = [] := eq_nil_of_end horder.1 hend
      have hmem : Message.blobEnd id sha ∈ t.frames := by rw [hq]; exact List.mem_cons_self ..
      obtain ⟨h₁, h₂⟩ := h.ended ⟨_, hmem, hend⟩
      refine .placed h₁ h₂ hrest rfl (by simp [hu.placed]) ?_
      simp [hu.answers, hu.heard]

private theorem carried_hear {ok : Bool} {detail : String} {rest : List Message}
    (h : CallCarried sha256 content id t o) (ha : t.answers = .blobAck id ok detail :: rest) (o' : Outgoing)
    (ho : o'.call = o.call) (call : Option Outgoing) :
    CallCarried sha256 content id
      { t with call := call, waiter := false, answers := rest, heard := t.heard ++ [.blobAck id ok detail] } o' := by
  have hne : t.answers ≠ [] := by rw [ha]; exact List.cons_ne_nil _ _
  refine ⟨by rw [ho]; exact h.faithful, ?_, h.order, by rw [ho]; exact h.ended, by rw [ho]; exact h.digest⟩
  rw [ho]
  cases h.carriage with
  | fresh _ _ _ hu | sent _ _ _ _ hu | opened _ _ _ _ hu => exact absurd hu.answers hne
  | placed hc hst hfr he hp hacked =>
    rw [ha] at hacked
    exact .placed hc hst hfr he hp (by simpa using hacked)

/-- The step lemma of one transfer. -/
theorem transferCarried_step {peer : DeviceId} {mv : Move} {t' : Transfer} (h : TransferCarried sha256 content id t)
    (hs : TransferStep sha256 peer id mv t t') (hsmooth : mv.Smooth content id t) :
    TransferCarried sha256 content id t' := by
  -- a transfer with a call is carried on when the call is
  have key : ∀ {t' : Transfer} {o : Outgoing}, t'.call = some o → CallCarried sha256 content id t' o →
      TransferCarried sha256 content id t' := by
    intro t' o hl ho
    refine ⟨(fun hnone => by rw [hl] at hnone; cases hnone), fun o' hl' => ?_⟩
    rw [hl] at hl'
    cases hl'
    exact ho
  cases hs with
  | begin _ c hnone hc => exact key rfl (carried_begin peer hc hsmooth (h.unused hnone))
  | queue _ o m hl hm => exact key rfl (carried_queue (h.call o hl) hm)
  | goOn _ o l c hl hc => exact key rfl (carried_goOn (h.call o hl) hl hc hsmooth)
  | answer _ o ok detail c hl hack hc => exact key rfl (carried_answered (h.call o hl) hc)
  | timeout _ o c hl hack hc => exact key rfl (carried_answered (h.call o hl) hc)
  | handle _ m rest entry acks renamed room hm hh =>
    obtain ⟨o, hl⟩ : ∃ o, t.call = some o := by
      refine Option.ne_none_iff_exists'.1 fun hnone => ?_
      rw [(h.unused hnone).1] at hm
      cases hm
    exact key hl (carried_handle (h.call o hl) hm hh hsmooth)
  | hear _ ok detail rest ha =>
    obtain ⟨o, hl⟩ : ∃ o, t.call = some o := by
      refine Option.ne_none_iff_exists'.1 fun hnone => ?_
      rw [(h.unused hnone).2.2.answers] at ha
      cases ha
    by_cases hw : t.waiter = true
    · simp only [hw, if_true]
      exact key (by simp [hl])
        (carried_hear (h.call o hl) ha { o with ack := some (ok, detail), resolvedBy := some peer } rfl _)
    · simp only [hw]
      exact key hl (carried_hear (h.call o hl) ha o rfl _)

end Moves

end Qdrop
