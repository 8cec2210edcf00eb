import Qdrop.Pairing.Exchange
import Qdrop.Lib.Run
import Mathlib.Logic.Function.Basic

/-!
# Pairing against an active attacker

Any number of honest `exchange` calls whose streams the attacker owns: every byte a call reads is the attacker's
choice, at any time and in any order.  What the attacker cannot do is stated as conditions: a tag that a call accepts
was computed by an honest call under that subkey (`Unforged`), and two calls share a SPAKE2 key only if they spoke to
each other (`IdealSpake`).  Then a call that returns `Ok` has met an honest call of the opposite role and the same PIN,
and learned exactly its identity (`paired_with_honest_peer`).  The confirmation byte is not authenticated, so one side
may return `Ok` after the other has rejected it (`confirmation_is_forged`); `mutual_confirmation` is what holds when
the attacker leaves that byte alone.
-/

namespace Qdrop

open Lib

inductive PairEvent (ι : Type) where
  | begin (i : ι) (writeErr : Option String)
  /-- The attacker delivers a byte. -/
  | deliver (i : ι) (b : UInt8) (writeErr : Option String)
  | readFails (i : ι) (err : Option String)
  | timesOut (i : ι)

variable {P : PairCrypto} {ι : Type} [DecidableEq ι]

/-- One step of one call. -/
def pairStep (setup : ι → PairSetup P) (s : ι → PairCall) : PairEvent ι → Option (ι → PairCall)
  | .begin i writeErr => ((s i).begin (setup i) writeErr).map (Function.update s i)
  | .deliver i b writeErr => ((s i).feed (setup i) b writeErr).map (Function.update s i)
  | .readFails i err => ((s i).readFails err).map (Function.update s i)
  | .timesOut i => (s i).timesOut.map (Function.update s i)

/-! ### What the attacker cannot do -/

/-- The subkey of a call for one direction. -/
def PairCall.subkey (P : PairCrypto) (c : PairCall) (label : KeyLabel) : Option Digest :=
  c.key.map fun key => derive P.sha256 key label

/-- The payload whose tag the call is about to accept. -/
def PairCall.accepts (setup : PairSetup P) (c : PairCall) (b : UInt8) : Option Bytes :=
  match c.phase with
  | .tag theirs got =>
    if 32 ≤ got.length + 1 ∧ c.verifies setup theirs (got ++ [b]) = true then some theirs else none
  | _ => none

/-- No forged tag: a tag that is accepted was computed by one of the calls, for the same payload and under the same
subkey. -/
def Unforged (setup : ι → PairSetup P) (s : ι → PairCall) : PairEvent ι → Prop
  | .deliver i b _ => ∀ theirs, (s i).accepts (setup i) b = some theirs →
      ∃ j, (s j).tagged = some theirs ∧
        (s j).subkey P (setup j).role.sendLabel = (s i).subkey P (setup i).role.recvLabel
  | _ => True

/-- Two calls share a SPAKE2 key only if they have opposite roles, used the same PIN and received each other's
message unmodified. -/
def IdealSpake (setup : ι → PairSetup P) (s : ι → PairCall) : Prop :=
  ∀ i j key, i ≠ j → (s i).key = some key → (s j).key = some key →
    (setup j).role = (setup i).role.other ∧ (setup j).pin = (setup i).pin ∧
      (s i).theirSpake = some (PairCall.spakeStart (setup j)).2 ∧
      (s j).theirSpake = some (PairCall.spakeStart (setup i)).2

/-- No two subkeys of the calls collide. -/
def NoCollision (P : PairCrypto) (s : ι → PairCall) : Prop :=
  ∀ i j key key' label label', (s i).key = some key → (s j).key = some key' →
    derive P.sha256 key label = derive P.sha256 key' label' → key = key' ∧ label = label'

/-- msgpack reads back what it wrote. -/
def LawfulMsgpack (P : PairCrypto) : Prop := ∀ p bytes, P.toVecNamed p = .ok bytes → P.fromSlice bytes = .ok p

/-! ### One call -/

def PairPhase.beforeKey : PairPhase → Bool
  | .starting | .spake _ => true
  | .payload _ | .tag _ _ | .confirm _ | .returned _ => false

def PairPhase.beforeVerdict : PairPhase → Bool
  | .starting | .spake _ | .payload _ | .tag _ _ => true
  | .confirm _ | .returned _ => false

/-- What holds of a call, whatever it reads. -/
structure CallOk (setup : PairSetup P) (c : PairCall) : Prop where
  fresh : c.phase.beforeKey = true → c.key = none ∧ c.tagged = none
  open_ : c.phase.beforeVerdict = true → c.accepted = none ∧ c.ack = none
  tagged : ∀ p, c.tagged = some p → P.toVecNamed (PairCall.payloadOf setup.info) = .ok p ∧ c.key.isSome = true
  confirm : ∀ t, c.phase = .confirm t → c.accepted = some t
  ok : ∀ paired, c.phase = .returned (.ok paired) → ∃ t, c.accepted = some t ∧ PairCall.parse P t = .ok paired
  badPin : c.phase = .returned (.error .badPin) → c.accepted = none
  ack : c.ack = some 1 → c.accepted.isSome = true

section Calls

variable {setup : PairSetup P} {c c' : PairCall}

theorem callOk_start : CallOk setup PairCall.start where
  fresh _ := ⟨rfl, rfl⟩
  open_ _ := ⟨rfl, rfl⟩
  tagged p h := by cases h
  confirm t h := by cases h
  ok paired h := by cases h
  badPin _ := rfl
  ack h := by cases h

private theorem parse_ne_badPin (theirs : Bytes) : PairCall.parse P theirs ≠ .error .badPin := by
  unfold PairCall.parse
  split
  · simp
  · split
    · simp
    · simp

/-- A call that returns an error other than `BadPin`. -/
private theorem CallOk.fail (h : CallOk setup c) {e : PairError} (he : e ≠ .badPin) :
    CallOk setup (c.finish (.error e)) where
  fresh hf := by cases hf
  open_ hf := by cases hf
  tagged := h.tagged
  confirm t ht := by cases ht
  ok paired hp := by cases hp
  badPin hb := by
    cases hb
    exact absurd rfl he
  ack := h.ack

/-- A call that reads on. -/
private theorem CallOk.goOn (h : CallOk setup c) {phase : PairPhase} (hb : phase.beforeVerdict = true)
    (hv : c.phase.beforeVerdict = true) (hk : phase.beforeKey = true → c.phase.beforeKey = true) :
    CallOk setup { c with phase := phase } where
  fresh hf := h.fresh (hk hf)
  open_ _ := h.open_ hv
  tagged := h.tagged
  confirm t ht := by
    dsimp only at ht
    rw [ht] at hb
    cases hb
  ok paired hp := by
    dsimp only at hp
    rw [hp] at hb
    cases hb
  badPin hp := by
    dsimp only at hp
    rw [hp] at hb
    cases hb
  ack := h.ack

private theorem callOk_begin (h : CallOk setup c) {writeErr : Option String}
    (hs : c.begin setup writeErr = some c') : CallOk setup c' := by
  unfold PairCall.begin at hs
  split at hs
  · rename_i hp
    split at hs
    · cases hs
      exact h.fail (by simp)
    · cases hs
      exact h.fail (by simp)
    · cases hs
      have hb : c.phase.beforeVerdict = true ∧ c.phase.beforeKey = true := by rw [hp]; exact ⟨rfl, rfl⟩
      exact ⟨fun _ => h.fresh hb.2, fun _ => h.open_ hb.1, h.tagged, (fun t ht => by cases ht),
        (fun p hp => by cases hp), (fun hp => by cases hp), h.ack⟩
  · cases hs

private theorem callOk_onSpake (h : CallOk setup c) (hb : c.phase.beforeKey = true)
    (hv : c.phase.beforeVerdict = true) (theirs : Bytes) (writeErr : Option String) :
    CallOk setup (c.onSpake setup theirs writeErr) := by
  obtain ⟨hkey, htagged⟩ := h.fresh hb
  obtain ⟨haccepted, hack⟩ := h.open_ hv
  -- with the key set, but before a payload is tagged
  have hkeyed : ∀ key, CallOk setup
      ({ c with theirSpake := some theirs, key := key, phase := .payload (.header []) } : PairCall) := by
    intro key
    refine ⟨(fun hf => by cases hf), fun _ => ⟨haccepted, hack⟩, fun p hp => ?_, (fun t ht => by cases ht),
      (fun p hp => by cases hp), (fun hp => by cases hp), fun ha => ?_⟩
    · dsimp only at hp
      rw [htagged] at hp
      cases hp
    · dsimp only at ha
      rw [hack] at ha
      cases ha
  unfold PairCall.onSpake
  split
  · exact (hkeyed c.key).fail (e := .protocol "SPAKE2 finish failed") (by simp)
  · rename_i key hfin
    dsimp only
    split
    · rename_i err henc
      exact (hkeyed (some key)).fail (e := .protocol err) (by simp)
    · rename_i payload henc
      have htag : ∀ c₁ : PairCall, c₁.key = some key → c₁.tagged = some payload → ∀ p, c₁.tagged = some p →
          P.toVecNamed (PairCall.payloadOf setup.info) = .ok p ∧ c₁.key.isSome = true := by
        intro c₁ hk ht p hp
        rw [ht] at hp
        cases hp
        exact ⟨henc, by rw [hk]; rfl⟩
      split
      · exact (hkeyed (some key)).fail (e := .protocol "chunk too large") (by simp)
      · exact ⟨(fun hf => by cases hf), (fun hf => by cases hf), htag _ rfl rfl, (fun t ht => by cases ht),
          (fun p hp => by cases hp), (fun hp => by cases hp), h.ack⟩
      · exact ⟨(fun hf => by cases hf), fun _ => ⟨haccepted, hack⟩, htag _ rfl rfl, (fun t ht => by cases ht),
          (fun p hp => by cases hp), (fun hp => by cases hp), h.ack⟩

private theorem callOk_onTag (h : CallOk setup c) (hv : c.phase.beforeVerdict = true) (theirs tag : Bytes)
    (writeErr : Option String) : CallOk setup (c.onTag setup theirs tag writeErr) := by
  obtain ⟨haccepted, hack⟩ := h.open_ hv
  unfold PairCall.onTag
  split
  · split
    · exact ⟨(fun hf => by cases hf), (fun hf => by cases hf), h.tagged, (fun t ht => by cases ht),
        (fun p hp => by cases hp), (fun hp => by cases hp), fun _ => rfl⟩
    · refine ⟨(fun hf => by cases hf), (fun hf => by cases hf), h.tagged, fun t ht => ?_,
        (fun p hp => by cases hp), (fun hp => by cases hp), fun _ => rfl⟩
      cases ht
      rfl
  · split
    · exact ⟨(fun hf => by cases hf), (fun hf => by cases hf), h.tagged, (fun t ht => by cases ht),
        (fun p hp => by cases hp), fun _ => haccepted, h.ack⟩
    · refine ⟨(fun hf => by cases hf), (fun hf => by cases hf), h.tagged, (fun t ht => by cases ht),
        (fun p hp => by cases hp), fun _ => haccepted, fun ha => ?_⟩
      exact absurd ha (by simp [PairCall.finish])

private theorem callOk_onAck (h : CallOk setup c) {theirs : Bytes} (hp : c.phase = .confirm theirs) (b : UInt8) :
    CallOk setup (c.onAck P theirs b) := by
  unfold PairCall.onAck
  split
  · refine ⟨(fun hf => by cases hf), (fun hf => by cases hf), h.tagged, (fun t ht => by cases ht),
      fun paired hok => ⟨theirs, h.confirm theirs hp, ?_⟩, fun hbad => ?_, h.ack⟩
    · simpa [PairCall.finish] using hok
    · exact absurd (by simpa [PairCall.finish] using hbad) (parse_ne_badPin theirs)
  · exact h.fail (by simp)

private theorem callOk_feed (h : CallOk setup c) {b : UInt8} {writeErr : Option String}
    (hs : c.feed setup b writeErr = some c') : CallOk setup c' := by
  unfold PairCall.feed at hs
  split at hs
  · cases hs
  · cases hs
  · rename_i r hp
    have hb : c.phase.beforeVerdict = true ∧ c.phase.beforeKey = true := by rw [hp]; exact ⟨rfl, rfl⟩
    split at hs
    · cases hs
      exact h.goOn rfl hb.1 (fun _ => hb.2)
    · cases hs
      exact h.fail (by simp)
    · cases hs
      exact callOk_onSpake h hb.2 hb.1 _ _
  · rename_i r hp
    have hb : c.phase.beforeVerdict = true := by rw [hp]; rfl
    split at hs
    · cases hs
      exact h.goOn rfl hb (fun hf => by cases hf)
    · cases hs
      exact h.fail (by simp)
    · cases hs
      exact h.goOn rfl hb (fun hf => by cases hf)
  · rename_i theirs got hp
    have hb : c.phase.beforeVerdict = true := by rw [hp]; rfl
    split at hs
    · cases hs
      exact h.goOn rfl hb (fun hf => by cases hf)
    · cases hs
      exact callOk_onTag h hb _ _ _
  · rename_i theirs hp
    cases hs
    exact callOk_onAck h hp b

/-- A read that fails ends the call with an error that is not `BadPin`. -/
private theorem readFails_cases {err : Option String} (hs : c.readFails err = some c') :
    ∃ e, e ≠ .badPin ∧ c' = c.finish (.error e) := by
  unfold PairCall.readFails at hs
  split at hs
  · cases hs
  · cases hs
  · cases hs
    exact ⟨_, by simp, rfl⟩
  all_goals
    split at hs
    · cases hs
      exact ⟨_, by simp, rfl⟩
    · cases hs
      exact ⟨_, by simp, rfl⟩

private theorem timesOut_cases (hs : c.timesOut = some c') : c' = c.finish (.error .peerAborted) := by
  unfold PairCall.timesOut at hs
  split at hs
  · cases hs
    rfl
  · cases hs

/-! What a call has authenticated, and what it has accepted. -/

/-- The key, the tagged payload and the confirmation stay, a payload is accepted only where `accepts` says so, and the
call returns `Ok` only on a confirmation byte `1`. -/
structure Advances (setup : PairSetup P) (c : PairCall) (b : Option UInt8) (c' : PairCall) : Prop where
  key : ∀ k, c.key = some k → c'.key = some k
  tagged : ∀ p, c.tagged = some p → c'.tagged = some p
  accepted : ∀ t, c'.accepted = some t →
    c.accepted = some t ∨ c.key.isSome = true ∧ ∃ b', b = some b' ∧ c.accepts setup b' = some t
  ack : ∀ a, c.ack = some a → c'.ack = some a
  ok : ∀ paired, c'.phase = .returned (.ok paired) → b = some 1 ∧ ∃ theirs, c.phase = .confirm theirs

private theorem Advances.same {b : Option UInt8} (hk : c'.key = c.key) (ht : c'.tagged = c.tagged)
    (ha : c'.accepted = c.accepted) (hack : c'.ack = c.ack) (hp : ∀ paired, c'.phase ≠ .returned (.ok paired)) :
    Advances setup c b c' where
  key k h := by rw [hk, h]
  tagged p h := by rw [ht, h]
  accepted t h := by
    rw [ha] at h
    exact Or.inl h
  ack a h := by rw [hack, h]
  ok paired h := absurd h (hp paired)

private theorem advances_begin {writeErr : Option String} (hs : c.begin setup writeErr = some c') :
    Advances setup c none c' := by
  unfold PairCall.begin at hs
  split at hs
  · split at hs <;> (cases hs; exact .same rfl rfl rfl rfl (fun _ hp => by cases hp))
  · cases hs

private theorem advances_onSpake (h : CallOk setup c) (hb : c.phase.beforeKey = true) (theirs : Bytes)
    (writeErr : Option String) (b : Option UInt8) : Advances setup c b (c.onSpake setup theirs writeErr) := by
  obtain ⟨hkey, htagged⟩ := h.fresh hb
  have hnew : ∀ c' : PairCall, c'.accepted = c.accepted → c'.ack = c.ack →
      (∀ paired, c'.phase ≠ .returned (.ok paired)) → Advances setup c b c' := by
    intro c' ha hack hok
    refine ⟨fun k hk => ?_, fun p hp => ?_, fun t ht => Or.inl (ha ▸ ht), fun a h => hack ▸ h,
      fun paired hp => absurd hp (hok paired)⟩
    · rw [hkey] at hk
      cases hk
    · rw [htagged] at hp
      cases hp
  unfold PairCall.onSpake
  split
  · exact hnew _ rfl rfl (fun _ hp => by cases hp)
  · dsimp only
    split
    · exact hnew _ rfl rfl (fun _ hp => by cases hp)
    · split <;> exact hnew _ rfl rfl (fun _ hp => by cases hp)

private theorem advances_onTag (h : CallOk setup c) {theirs got : Bytes} {b : UInt8}
    (hp : c.phase = .tag theirs got) (hlen : 32 ≤ got.length + 1) (writeErr : Option String) :
    Advances setup c (some b) (c.onTag setup theirs (got ++ [b]) writeErr) := by
  obtain ⟨-, hack⟩ := h.open_ (by rw [hp]; rfl)
  unfold PairCall.onTag
  split
  · rename_i hver
    have hacc : ∀ t, some theirs = some t →
        c.key.isSome = true ∧ ∃ b', some b = some b' ∧ c.accepts setup b' = some t := by
      rintro t ⟨rfl⟩
      refine ⟨?_, b, rfl, ?_⟩
      · unfold PairCall.verifies at hver
        split at hver
        · rename_i key hk
          rw [hk]
          rfl
        · cases hver
      · unfold PairCall.accepts
        rw [hp]
        exact if_pos ⟨hlen, hver⟩
    split
    · exact ⟨fun k hk => hk, fun p hp => hp, fun t ht => Or.inr (hacc t ht), fun a ha => ha,
        (fun _ hp => by cases hp)⟩
    · refine ⟨fun k hk => hk, fun p hp => hp, fun t ht => Or.inr (hacc t ht), fun a ha => ?_,
        (fun _ hp => by cases hp)⟩
      rw [hack] at ha
      cases ha
  · split
    · exact .same rfl rfl rfl rfl (fun _ hp => by cases hp)
    · refine ⟨fun k hk => hk, fun p hp => hp, fun t ht => Or.inl ht, fun a ha => ?_, (fun _ hp => by cases hp)⟩
      rw [hack] at ha
      cases ha

private theorem advances_feed (h : CallOk setup c) {b : UInt8} {writeErr : Option String}
    (hs : c.feed setup b writeErr = some c') : Advances setup c (some b) c' := by
  unfold PairCall.feed at hs
  split at hs
  · cases hs
  · cases hs
  · rename_i r hp
    split at hs
    · cases hs
      exact .same rfl rfl rfl rfl (fun _ hp => by cases hp)
    · cases hs
      exact .same rfl rfl rfl rfl (fun _ hp => by cases hp)
    · cases hs
      exact advances_onSpake h (by rw [hp]; rfl) _ _ _
  · split at hs <;> (cases hs; exact .same rfl rfl rfl rfl (fun _ hp => by cases hp))
  · rename_i theirs got hp
    split at hs
    · cases hs
      exact .same rfl rfl rfl rfl (fun _ hp => by cases hp)
    · cases hs
      exact advances_onTag h hp (by omega) _
  · rename_i theirs hp
    cases hs
    unfold PairCall.onAck
    split
    · rename_i hone
      exact ⟨fun k hk => hk, fun p hp => hp, fun t ht => Or.inl ht, fun a ha => ha,
        fun _ _ => ⟨by rw [hone], theirs, hp⟩⟩
    · exact .same rfl rfl rfl rfl (fun _ hp => by cases hp)

end Calls

/-! ### All calls -/

section Net

variable {setup : ι → PairSetup P} {s s' : ι → PairCall} {e : PairEvent ι}

/-- A step advances one call; only a delivered byte makes it accept or return `Ok`. -/
theorem pairStep_cases (h : ∀ j, CallOk (setup j) (s j)) (hs : pairStep setup s e = some s') :
    ∃ i c' b, s' = Function.update s i c' ∧ CallOk (setup i) c' ∧ Advances (setup i) (s i) b c' ∧
      ∀ b', b = some b' → ∃ writeErr, e = .deliver i b' writeErr := by
  cases e with
  | begin i writeErr =>
    obtain ⟨c', hc, rfl⟩ := Option.map_eq_some_iff.1 hs
    exact ⟨i, c', none, rfl, callOk_begin (h i) hc, advances_begin hc, fun _ hb => by cases hb⟩
  | deliver i b writeErr =>
    obtain ⟨c', hc, rfl⟩ := Option.map_eq_some_iff.1 hs
    refine ⟨i, c', some b, rfl, callOk_feed (h i) hc, advances_feed (h i) hc, fun b' hb => ?_⟩
    cases hb
    exact ⟨writeErr, rfl⟩
  | readFails i err =>
    obtain ⟨c', hc, rfl⟩ := Option.map_eq_some_iff.1 hs
    obtain ⟨e, he, rfl⟩ := readFails_cases hc
    exact ⟨i, _, none, rfl, (h i).fail he, .same rfl rfl rfl rfl (fun _ hp => by cases hp), fun _ hb => by cases hb⟩
  | timesOut i =>
    obtain ⟨c', hc, rfl⟩ := Option.map_eq_some_iff.1 hs
    obtain rfl := timesOut_cases hc
    exact ⟨i, _, none, rfl, (h i).fail (by simp), .same rfl rfl rfl rfl (fun _ hp => by cases hp),
      fun _ hb => by cases hb⟩

/-- Whatever a call has accepted was tagged by a call, for the direction it was received in. -/
structure Met (setup : ι → PairSetup P) (s : ι → PairCall) : Prop where
  calls : ∀ i, CallOk (setup i) (s i)
  accepted : ∀ i t, (s i).accepted = some t → (s i).key.isSome = true ∧ ∃ j, (s j).tagged = some t ∧
    (s j).subkey P (setup j).role.sendLabel = (s i).subkey P (setup i).role.recvLabel

omit [DecidableEq ι] in
theorem met_start : Met setup (fun _ => PairCall.start) where
  calls _ := callOk_start
  accepted _ _ h := by cases h

private theorem subkey_of_key {c c' : PairCall} (h : ∀ k, c.key = some k → c'.key = some k)
    (hc : c.key.isSome = true) (label : KeyLabel) : c'.subkey P label = c.subkey P label := by
  obtain ⟨k, hk⟩ := Option.isSome_iff_exists.1 hc
  rw [PairCall.subkey, PairCall.subkey, h k hk, hk]

theorem met_step (h : Met setup s) (hu : Unforged setup s e) (hs : pairStep setup s e = some s') : Met setup s' := by
  obtain ⟨i, c', b, rfl, hok, hadv, hb⟩ := pairStep_cases h.calls hs
  have hkey : ∀ j k, (s j).key = some k → (Function.update s i c' j).key = some k := by
    intro j k hk
    by_cases hj : j = i
    · subst hj
      rw [Function.update_self]
      exact hadv.key k hk
    · rwa [Function.update_of_ne hj]
  have htagged : ∀ j p, (s j).tagged = some p → (Function.update s i c' j).tagged = some p := by
    intro j p hp
    by_cases hj : j = i
    · subst hj
      rw [Function.update_self]
      exact hadv.tagged p hp
    · rwa [Function.update_of_ne hj]
  -- a match between two calls stays a match
  have hmatch : ∀ x t, (s x).key.isSome = true → (∃ j, (s j).tagged = some t ∧
        (s j).subkey P (setup j).role.sendLabel = (s x).subkey P (setup x).role.recvLabel) →
      (Function.update s i c' x).key.isSome = true ∧ ∃ j, (Function.update s i c' j).tagged = some t ∧
        (Function.update s i c' j).subkey P (setup j).role.sendLabel =
          (Function.update s i c' x).subkey P (setup x).role.recvLabel := by
    rintro x t hx ⟨j, hj, hsub⟩
    have hjk := ((h.calls j).tagged t hj).2
    refine ⟨?_, j, htagged j t hj, ?_⟩
    · obtain ⟨k, hk⟩ := Option.isSome_iff_exists.1 hx
      rw [hkey x k hk]
      rfl
    · rw [subkey_of_key (hkey j) hjk, subkey_of_key (hkey x) hx, hsub]
  constructor
  · intro j
    by_cases hj : j = i
    · subst hj
      rwa [Function.update_self]
    · rw [Function.update_of_ne hj]
      exact h.calls j
  · intro x t hx
    have hold : (s x).key.isSome = true ∧ ∃ j, (s j).tagged = some t ∧
        (s j).subkey P (setup j).role.sendLabel = (s x).subkey P (setup x).role.recvLabel := by
      by_cases hxi : x = i
      · subst hxi
        rw [Function.update_self] at hx
        rcases hadv.accepted t hx with hx | ⟨hk, b', hb', hacc⟩
        · exact h.accepted x t hx
        · obtain ⟨writeErr, rfl⟩ := hb b' hb'
          exact ⟨hk, hu t hacc⟩
      · rw [Function.update_of_ne hxi] at hx
        exact h.accepted x t hx
    exact hmatch x t hold.1 hold.2

omit [DecidableEq ι] in
/-- The call that tagged an accepted payload has the other role. -/
theorem Met.tagger (h : Met setup s) (hsep : NoCollision P s) {i : ι} {t : Bytes}
    (ht : (s i).accepted = some t) :
    ∃ j key, (s i).key = some key ∧ (s j).key = some key ∧ (setup j).role.sendLabel = (setup i).role.recvLabel ∧
      P.toVecNamed (PairCall.payloadOf (setup j).info) = .ok t := by
  obtain ⟨hki, j, hj, hsub⟩ := h.accepted i t ht
  obtain ⟨henc, hkj⟩ := (h.calls j).tagged t hj
  obtain ⟨ki, hki⟩ := Option.isSome_iff_exists.1 hki
  obtain ⟨kj, hkj⟩ := Option.isSome_iff_exists.1 hkj
  rw [PairCall.subkey, PairCall.subkey, hki, hkj] at hsub
  obtain ⟨rfl, hlabel⟩ := hsep j i kj ki _ _ hkj hki (Option.some.inj hsub)
  exact ⟨j, kj, hki, hkj, hlabel, henc⟩

private theorem parse_toVecNamed (hcodec : LawfulMsgpack P) {info : LocalInfo} {t : Bytes} {paired : Paired}
    (henc : P.toVecNamed (PairCall.payloadOf info) = .ok t) (hp : PairCall.parse P t = .ok paired) :
    info = ⟨paired.deviceId, paired.deviceName, paired.publicKey⟩ := by
  unfold PairCall.parse at hp
  rw [hcodec _ _ henc] at hp
  dsimp only at hp
  split at hp
  · cases hp
    obtain ⟨id, name, key⟩ := info
    simp [PairCall.payloadOf, Vector.toList]
  · cases hp

/-- Whatever bytes the calls are fed: a call that returns `Ok` has shared its key with an honest call of the opposite
role and the same PIN, each having received the other's SPAKE2 message, and has learned exactly that call's identity. -/
theorem paired_with_honest_peer (P : PairCrypto) (setup : ι → PairSetup P) (es : List (PairEvent ι))
    (s : ι → PairCall) (hr : Run (pairStep setup) (Unforged setup) (fun _ => PairCall.start) es s)
    (hspake : IdealSpake setup s) (hsep : NoCollision P s) (hcodec : LawfulMsgpack P) (i : ι) (paired : Paired)
    (hok : (s i).phase = .returned (.ok paired)) :
    ∃ j, (setup j).role = (setup i).role.other ∧ (setup j).pin = (setup i).pin ∧
      (setup j).info = ⟨paired.deviceId, paired.deviceName, paired.publicKey⟩ ∧
      (s i).theirSpake = some (PairCall.spakeStart (setup j)).2 ∧
      (s j).theirSpake = some (PairCall.spakeStart (setup i)).2 := by
  have hmet : Met setup s := hr.invariant met_start (fun _ _ _ h hu hs => met_step h hu hs)
  obtain ⟨t, ht, hparse⟩ := (hmet.calls i).ok paired hok
  obtain ⟨j, key, hki, hkj, hlabel, henc⟩ := hmet.tagger hsep ht
  have hne : i ≠ j := by
    rintro rfl
    cases hrole : (setup i).role <;> rw [hrole] at hlabel <;> cases hlabel
  obtain ⟨hrole, hpin, htheirs, hours⟩ := hspake i j key hne hki hkj
  exact ⟨j, hrole, hpin, parse_toVecNamed hcodec henc hparse, htheirs, hours⟩

end Net

/-! ### The confirmation byte -/

/-- An honest offerer and an honest requester that use the same PIN. -/
def duo (pin : String) (info : PairRole → LocalInfo) (rand : PairRole → P.Rand) (r : PairRole) : PairSetup P :=
  ⟨r, pin, info r, rand r⟩

/-- The byte a side reads as confirmation is the one the other side wrote. -/
def AckIntact (s : PairRole → PairCall) : PairEvent PairRole → Prop
  | .deliver r b _ => ∀ theirs, (s r).phase = .confirm theirs → (s r.other).ack = some b
  | _ => True

/-- A side returns `Ok` only after the other has confirmed. -/
private theorem confirmed_step {setup : PairRole → PairSetup P} {s s' : PairRole → PairCall} {e : PairEvent PairRole}
    (h : ∀ r, CallOk (setup r) (s r)) (hack : AckIntact s e) (hs : pairStep setup s e = some s')
    (hc : ∀ r paired, (s r).phase = .returned (.ok paired) → (s r.other).ack = some 1) (r : PairRole)
    (paired : Paired) (hr : (s' r).phase = .returned (.ok paired)) : (s' r.other).ack = some 1 := by
  obtain ⟨i, c', b, rfl, -, hadv, hb⟩ := pairStep_cases h hs
  have hkeep : (s r.other).ack = some 1 → (Function.update s i c' r.other).ack = some 1 := by
    intro ha
    by_cases hi : r.other = i
    · subst hi
      rw [Function.update_self]
      exact hadv.ack 1 ha
    · rwa [Function.update_of_ne hi]
  apply hkeep
  by_cases hi : r = i
  · subst hi
    rw [Function.update_self] at hr
    obtain ⟨hb1, theirs, hp⟩ := hadv.ok paired hr
    obtain ⟨writeErr, rfl⟩ := hb 1 hb1
    exact hack theirs hp
  · rw [Function.update_of_ne hi] at hr
    exact hc r paired hr

/-- When the attacker leaves the confirmation byte alone, whatever else it does: a side that returns `Ok` was accepted
by the other, which verified the tag on the first side's own payload. -/
theorem mutual_confirmation (P : PairCrypto) (pin : String) (info : PairRole → LocalInfo) (rand : PairRole → P.Rand)
    (es : List (PairEvent PairRole)) (s : PairRole → PairCall)
    (hr : Run (pairStep (duo pin info rand)) (fun s e => Unforged (duo pin info rand) s e ∧ AckIntact s e)
      (fun _ => PairCall.start) es s) (hsep : NoCollision P s) (r : PairRole) (paired : Paired)
    (hok : (s r).phase = .returned (.ok paired)) :
    ∃ payload, P.toVecNamed (PairCall.payloadOf (info r)) = .ok payload ∧ (s r.other).accepted = some payload ∧
      (s r.other).phase ≠ .returned (.error .badPin) := by
  have hinv : Met (duo pin info rand) s ∧
      ∀ r paired, (s r).phase = .returned (.ok paired) → (s r.other).ack = some 1 := by
    refine hr.invariant (I := fun s => Met (duo pin info rand) s ∧
      ∀ r paired, (s r).phase = .returned (.ok paired) → (s r.other).ack = some 1) ⟨met_start, ?_⟩ ?_
    · intro r paired h
      cases h
    · rintro s e t ⟨hmet, hc⟩ ⟨hu, hack⟩ hs
      exact ⟨met_step hmet hu hs, confirmed_step hmet.calls hack hs hc⟩
  obtain ⟨hmet, hc⟩ := hinv
  have hcall := hmet.calls r.other
  obtain ⟨t, ht⟩ := Option.isSome_iff_exists.1 (hcall.ack (hc r paired hok))
  obtain ⟨j, key, -, -, hlabel, henc⟩ := hmet.tagger hsep ht
  -- the labels tell whose payload it is
  have hj : j = r := by
    have hlabel : j.sendLabel = r.other.recvLabel := hlabel
    cases j <;> cases r <;> first | rfl | cases hlabel
  subst hj
  refine ⟨t, henc, ht, fun hbad => ?_⟩
  rw [hcall.badPin hbad] at ht
  cases ht

/-! ### A recorded exchange

The messages of one exchange with PIN `424242` between devices `a` and `b`, as the crates produce them. -/

section Recorded

private def spakeOf : PairRole → Bytes
  | .offerer =>
    [65, 164, 37, 40, 206, 18, 9, 146, 200, 2, 184, 229, 174, 138, 40, 212, 183, 5, 147, 108, 14, 93, 31, 103, 138,
      128, 147, 64, 71, 32, 185, 166, 198]
  | .requester =>
    [66, 3, 149, 97, 246, 183, 25, 95, 72, 172, 194, 137, 196, 238, 169, 235, 237, 1, 56, 202, 218, 51, 146, 36,
      15, 113, 16, 227, 0, 71, 181, 7, 247]

def sharedKey : Bytes :=
  [130, 253, 226, 34, 22, 201, 65, 47, 192, 94, 49, 142, 148, 101, 120, 201, 5, 230, 138, 7, 198, 63, 85, 125, 51,
    212, 37, 107, 221, 122, 67, 130]

def subkeyOf : KeyLabel → Digest
  | .a2b => toDigest
    [153, 75, 119, 9, 151, 159, 48, 62, 176, 159, 184, 169, 198, 215, 168, 127, 61, 6, 91, 1, 88, 154, 24, 70, 219,
      210, 100, 253, 104, 190, 243, 37]
  | .b2a => toDigest
    [104, 13, 176, 41, 12, 242, 220, 190, 244, 226, 9, 182, 16, 83, 141, 185, 124, 181, 132, 130, 127, 240, 26, 208,
      190, 30, 88, 187, 66, 28, 82, 250]

def infoOf : PairRole → LocalInfo
  | .offerer => ⟨"a", "dev-a", toDigest [97]⟩
  | .requester => ⟨"b", "dev-b", toDigest [98]⟩

/-- msgpack of `infoOf`. -/
def packed (r : PairRole) : Bytes :=
  let c : UInt8 := match r with | .offerer => 97 | .requester => 98
  [131, 169, 100, 101, 118, 105, 99, 101, 95, 105, 100, 161, c, 171, 100, 101, 118, 105, 99, 101, 95, 110, 97, 109,
    101, 165, 100, 101, 118, 45, c, 170, 112, 117, 98, 108, 105, 99, 95, 107, 101, 121, 220, 0, 32, c] ++
    List.replicate 31 0

private def tagOf : PairRole → Bytes
  | .offerer =>
    [184, 119, 174, 218, 4, 69, 156, 240, 63, 224, 10, 106, 200, 173, 11, 11, 167, 164, 168, 125, 129, 89, 94, 109,
      55, 125, 237, 101, 198, 232, 217, 141]
  | .requester =>
    [128, 73, 6, 182, 77, 107, 7, 18, 253, 0, 73, 200, 65, 84, 150, 40, 65, 235, 171, 78, 91, 145, 55, 72, 83, 98,
      143, 180, 191, 71, 254, 40]

/-- The crates on the inputs of this exchange. -/
def recorded : PairCrypto where
  Rand := Unit
  State := PairRole
  startA _ _ _ _ := (.offerer, spakeOf .offerer)
  startB _ _ _ _ := (.requester, spakeOf .requester)
  finish r theirs := if theirs = spakeOf r.other then some sharedKey else none
  sha256 bytes :=
    if bytes = KeyLabel.a2b.bytes ++ [0] ++ sharedKey then subkeyOf .a2b
    else if bytes = KeyLabel.b2a.bytes ++ [0] ++ sharedKey then subkeyOf .b2a
    else toDigest []
  hmacSha256 key data :=
    if key = (subkeyOf .a2b).toList ∧ data = packed .offerer then toDigest (tagOf .offerer)
    else if key = (subkeyOf .b2a).toList ∧ data = packed .requester then toDigest (tagOf .requester)
    else toDigest []
  toVecNamed p :=
    if p = PairCall.payloadOf (infoOf .offerer) then .ok (packed .offerer)
    else if p = PairCall.payloadOf (infoOf .requester) then .ok (packed .requester)
    else .error ""
  fromSlice bytes :=
    if bytes = packed .offerer then .ok (PairCall.payloadOf (infoOf .offerer))
    else if bytes = packed .requester then .ok (PairCall.payloadOf (infoOf .requester))
    else .error ""

private def deliverAll (r : PairRole) (bytes : Bytes) : List (PairEvent PairRole) :=
  bytes.map fun b => .deliver r b none

/-- Both calls begin and get each other's SPAKE2 message. -/
private def spakeRounds : List (PairEvent PairRole) :=
  [.begin .offerer none, .begin .requester none] ++ deliverAll .requester (beU16 33 ++ spakeOf .offerer) ++
    deliverAll .offerer (beU16 33 ++ spakeOf .requester)

/-- The attacker forwards everything. -/
private def forwarded : List (PairEvent PairRole) :=
  spakeRounds ++ deliverAll .requester (beU16 77 ++ packed .offerer ++ tagOf .offerer) ++
    deliverAll .offerer (beU16 77 ++ packed .requester ++ tagOf .requester) ++ deliverAll .requester [1] ++
    deliverAll .offerer [1]

private abbrev duoAB : PairRole → PairSetup recorded := duo "424242" infoOf (fun _ => ())

private def unforged (s : PairRole → PairCall) : PairEvent PairRole → Bool
  | .deliver r b _ =>
    match (s r).accepts (duoAB r) b with
    | none => true
    | some theirs => (s r.other).tagged == some theirs &&
        (s r.other).subkey recorded r.other.sendLabel == (s r).subkey recorded r.recvLabel
  | _ => true

private def resultOf (c : PairCall) : Option Paired :=
  match c.phase with
  | .returned (.ok paired) => some paired
  | _ => none

private theorem unforged_of_check (s : PairRole → PairCall) (e : PairEvent PairRole) (h : unforged s e = true) :
    Unforged duoAB s e := by
  cases e with
  | deliver r b writeErr =>
    intro theirs hacc
    simp only [unforged, hacc, Bool.and_eq_true, beq_iff_eq] at h
    exact ⟨r.other, h.1, h.2⟩
  | begin | readFails | timesOut => trivial

private def ackIntact (s : PairRole → PairCall) : PairEvent PairRole → Bool
  | .deliver r b _ =>
    match (s r).phase with
    | .confirm _ => (s r.other).ack == some b
    | _ => true
  | _ => true

private theorem ackIntact_of_check (s : PairRole → PairCall) (e : PairEvent PairRole) (h : ackIntact s e = true) :
    AckIntact s e := by
  cases e with
  | deliver r b writeErr =>
    intro theirs hp
    simpa [ackIntact, hp] using h
  | begin | readFails | timesOut => trivial

private theorem lawfulMsgpack_recorded : LawfulMsgpack recorded := by
  intro p bytes h
  simp only [recorded] at h ⊢
  split at h
  · rename_i hp
    cases h
    rw [if_pos rfl, hp]
  · split at h
    · rename_i hp
      cases h
      rw [if_neg (by decide), if_pos rfl, hp]
    · cases h

/-- The key and the peer's message of a side that has finished SPAKE2. -/
private def Spoken (s : PairRole → PairCall) : Prop :=
  ∀ r, (s r).key = some sharedKey ∧ (s r).theirSpake = some (spakeOf r.other)

private theorem idealSpake_of_spoken {s : PairRole → PairCall} (h : Spoken s) : IdealSpake duoAB s := by
  intro i j key hne _ _
  rw [(h i).2, (h j).2]
  cases i <;> cases j <;> first | exact absurd rfl hne | exact ⟨rfl, rfl, rfl, rfl⟩

private theorem noCollision_of_spoken {s : PairRole → PairCall} (h : Spoken s) : NoCollision recorded s := by
  intro i j key key' label label' hk hk' heq
  rw [(h i).1] at hk
  rw [(h j).1] at hk'
  cases hk
  cases hk'
  refine ⟨rfl, ?_⟩
  cases label <;> cases label' <;> first | rfl | exact absurd heq (by decide +kernel)

/-- What is seen of a run: both keys and messages, what `a` returned and what `b` accepted. -/
private def seen (s : PairRole → PairCall) : List (Option Bytes × Option Bytes) × Option Paired × Option Bytes :=
  ([.offerer, .requester].map fun r => ((s r).key, (s r).theirSpake), resultOf (s .offerer), (s .requester).accepted)

private theorem of_seen {s : PairRole → PairCall} {accepted : Option Bytes}
    (h : seen s = ([(some sharedKey, some (spakeOf .requester)), (some sharedKey, some (spakeOf .offerer))],
      some ⟨"b", "dev-b", toDigest [98]⟩, accepted)) :
    Spoken s ∧ (s .offerer).phase = .returned (.ok ⟨"b", "dev-b", toDigest [98]⟩) ∧
      (s .requester).accepted = accepted := by
  simp only [seen, List.map_cons, List.map_nil, Prod.mk.injEq, List.cons.injEq, and_true] at h
  obtain ⟨⟨hA, hB⟩, hres, hacc⟩ := h
  refine ⟨fun r => ?_, ?_, hacc⟩
  · cases r with
    | offerer => exact hA
    | requester => exact hB
  · unfold resultOf at hres
    split at hres
    · rename_i paired hp
      cases hres
      exact hp
    · cases hres

/-- The honest run: every message is forwarded as it was sent. -/
private theorem forwarded_run : ∃ s, Run (pairStep duoAB) (fun s e => Unforged duoAB s e ∧ AckIntact s e)
    (fun _ => PairCall.start) forwarded s ∧ Spoken s ∧
      (s .offerer).phase = .returned (.ok ⟨"b", "dev-b", toDigest [98]⟩) := by
  obtain ⟨s, hrun, hview⟩ := run_of_exec_checked (pairStep duoAB)
    (fun s e => (unforged s e && ackIntact s e) = true) (fun _ => PairCall.start) forwarded seen
    ([(some sharedKey, some (spakeOf .requester)), (some sharedKey, some (spakeOf .offerer))],
      some ⟨"b", "dev-b", toDigest [98]⟩, some (packed .offerer)) (by decide +kernel)
  obtain ⟨hspoken, hok, -⟩ := of_seen hview
  refine ⟨s, hrun.mono fun s e h => ?_, hspoken, hok⟩
  obtain ⟨hforged, hack⟩ := Bool.and_eq_true_iff.1 h
  exact ⟨unforged_of_check s e hforged, ackIntact_of_check s e hack⟩

theorem paired_with_honest_peer_forwarded :
    ∃ es s paired, Run (pairStep duoAB) (Unforged duoAB) (fun _ => PairCall.start) es s ∧
      (s .offerer).phase = .returned (.ok paired) ∧
      ∃ j, (duoAB j).role = .requester ∧ (duoAB j).pin = "424242" ∧
        (duoAB j).info = ⟨paired.deviceId, paired.deviceName, paired.publicKey⟩ := by
  obtain ⟨s, hrun, hspoken, hok⟩ := forwarded_run
  have hrun := hrun.mono fun _ _ h => h.1
  obtain ⟨j, hrole, hpin, hinfo, -, -⟩ := paired_with_honest_peer recorded duoAB forwarded s hrun
    (idealSpake_of_spoken hspoken) (noCollision_of_spoken hspoken) lawfulMsgpack_recorded .offerer _ hok
  exact ⟨forwarded, s, _, hrun, hok, j, hrole, hpin, hinfo⟩

theorem mutual_confirmation_forwarded :
    ∃ es s payload, Run (pairStep duoAB) (fun s e => Unforged duoAB s e ∧ AckIntact s e) (fun _ => PairCall.start)
        es s ∧ (s .requester).accepted = some payload ∧
      recorded.toVecNamed (PairCall.payloadOf (infoOf .offerer)) = .ok payload := by
  obtain ⟨s, hrun, hspoken, hok⟩ := forwarded_run
  obtain ⟨payload, henc, hacc, -⟩ := mutual_confirmation recorded "424242" infoOf (fun _ => ()) forwarded s hrun
    (noCollision_of_spoken hspoken) .offerer _ hok
  exact ⟨forwarded, s, payload, hrun, hacc, henc⟩

/-- The attacker flips a byte of `a`'s payload on its way to `b`, and gives `a` the confirmation `1`. -/
private def tampered : List (PairEvent PairRole) :=
  spakeRounds ++ deliverAll .requester (beU16 77 ++ (packed .offerer).set 0 124 ++ tagOf .offerer) ++
    deliverAll .offerer (beU16 77 ++ packed .requester ++ tagOf .requester) ++ deliverAll .offerer [1]

/-- `b` rejects `a`'s payload, and `a` returns `Ok`. -/
theorem confirmation_is_forged :
    ¬ ∀ (P : PairCrypto) (pin : String) (info : PairRole → LocalInfo) (rand : PairRole → P.Rand)
      (es : List (PairEvent PairRole)) (s : PairRole → PairCall),
      Run (pairStep (duo pin info rand)) (Unforged (duo pin info rand)) (fun _ => PairCall.start) es s →
      IdealSpake (duo pin info rand) s → NoCollision P s → LawfulMsgpack P → ∀ (r : PairRole) (paired : Paired),
      (s r).phase = .returned (.ok paired) →
      ∃ payload, P.toVecNamed (PairCall.payloadOf (info r)) = .ok payload ∧
        (s r.other).accepted = some payload := by
  intro h
  obtain ⟨s, hrun, hview⟩ := run_of_exec_checked (pairStep duoAB) (fun s e => unforged s e = true)
    (fun _ => PairCall.start) tampered seen
    ([(some sharedKey, some (spakeOf .requester)), (some sharedKey, some (spakeOf .offerer))],
      some ⟨"b", "dev-b", toDigest [98]⟩, none) (by decide +kernel)
  obtain ⟨hspoken, hok, hnone⟩ := of_seen hview
  obtain ⟨payload, -, hacc⟩ := h recorded "424242" infoOf (fun _ => ()) tampered s (hrun.mono unforged_of_check)
    (idealSpake_of_spoken hspoken) (noCollision_of_spoken hspoken) lawfulMsgpack_recorded .offerer _ hok
  have hacc : (s .requester).accepted = some payload := hacc
  rw [hnone] at hacc
  cases hacc

end Recorded

end Qdrop
