import Mathlib.Algebra.BigOperators.Ring.Finset
import Mathlib.Algebra.Order.BigOperators.Group.Finset
import Qdrop.Pairing.Pin
import Qdrop.Pairing.Trust

/-!
# Guessing the PIN (`run_offer` in `qdrop-core/src/pairing.rs`)

`run_offer` draws a PIN, shows it, and uses it for the one connection it accepts.  Whoever does not know the PIN has to
fix the PINs of its own exchanges, and then the offer pairs on no more than one in a million of the streams of random
numbers for each of these (`guess_wins`).
-/

namespace Qdrop

open Finset Lib

/-- The errors of `run_offer`. -/
inductive OfferError where
  | exchange (err : PairError)
  | timeout
  | io (err : String)
  /-- An `anyhow` error: the contexts, then the cause. -/
  | other (chain : List String)
  deriving DecidableEq, Repr

/-- Where `run_offer` is. -/
inductive OfferPhase where
  | starting
  /-- The PIN is shown, and the port is to be bound. -/
  | announced (pin : String)
  | bound (pin : String)
  /-- Advertised, waiting for a dialer. -/
  | waiting (pin : String)
  /-- In `exchange` with the dialer. -/
  | accepted (pin : String)
  | failed (err : OfferError)

/-- The PIN once it is drawn. -/
def OfferPhase.pin : OfferPhase → Option String
  | .announced pin | .bound pin | .waiting pin | .accepted pin => some pin
  | .starting | .failed _ => none

/-- An offer among other calls of `exchange`. -/
structure Offer (ι : Type) where
  phase : OfferPhase
  calls : ι → PairCall

inductive OfferEvent (ι : Type) where
  | genPin
  | binds (err : Option String)
  | advertises (err : Option (List String))
  | accepts (err : Option String)
  | windowCloses
  | pair (e : PairEvent ι)

def Offer.start {ι : Type} : Offer ι := ⟨.starting, fun _ => .start⟩

/-- The call that the event is about. -/
def PairEvent.call {ι : Type} : PairEvent ι → ι
  | .begin i _ | .deliver i _ _ | .readFails i _ | .timesOut i => i

section Offers

variable {P : PairCrypto} {ι : Type} [DecidableEq ι]

/-- The calls are made with these, once the offerer has its PIN. -/
def offering (setup : ι → PairSetup P) (o : ι) (pin : Option String) : ι → PairSetup P :=
  match pin with
  | some pin => Function.update setup o { setup o with pin }
  | none => setup

/-- One step of `run_offer`, whose call of `exchange` is `o`, or of another call. -/
def offerStep (setup : ι → PairSetup P) (o : ι) (draws : List (Except String PinDraw)) (s : Offer ι) :
    OfferEvent ι → Option (Offer ι)
  | .genPin =>
    match s.phase, genPin draws with
    | .starting, some (.ok pin) => some { s with phase := .announced pin }
    | .starting, some (.error err) => some { s with phase := .failed (.other ["reading from the OS RNG", err]) }
    | _, _ => none
  | .binds err =>
    match s.phase, err with
    | .announced pin, none => some { s with phase := .bound pin }
    | .announced _, some err => some { s with phase := .failed (.other ["binding pairing port 47655", err]) }
    | _, _ => none
  | .advertises err =>
    match s.phase, err with
    | .bound pin, none => some { s with phase := .waiting pin }
    | .bound _, some chain => some { s with phase := .failed (.other chain) }
    | _, _ => none
  | .accepts err =>
    match s.phase, err with
    | .waiting pin, none => some { s with phase := .accepted pin }
    | .waiting _, some err => some { s with phase := .failed (.io err) }
    | _, _ => none
  | .windowCloses =>
    match s.phase with
    | .waiting _ => some { s with phase := .failed .timeout }
    | _ => none
  | .pair e =>
    match s.phase with
    | .accepted pin => (pairStep (offering setup o (some pin)) s.calls e).map fun calls => { s with calls }
    | phase =>
      if e.call = o then none else (pairStep (offering setup o phase.pin) s.calls e).map fun calls => { s with calls }

/-- What `run_offer` has returned. -/
def Offer.result (o : ι) (s : Offer ι) : Option (Except OfferError Paired) :=
  match s.phase, (s.calls o).phase with
  | .failed err, _ => some (.error err)
  | .accepted _, .returned (.ok paired) => some (.ok paired)
  | .accepted _, .returned (.error err) => some (.error (.exchange err))
  | _, _ => none

/-- The attacker forges no tag. -/
def OfferFair (setup : ι → PairSetup P) (o : ι) (s : Offer ι) : OfferEvent ι → Prop
  | .pair e => Unforged (offering setup o s.phase.pin) s.calls e
  | _ => True

/-! ### What every run keeps -/

variable {setup : ι → PairSetup P} {o : ι} {draws : List (Except String PinDraw)} {s s' : Offer ι}

theorem offering_role (pin : Option String) (i : ι) : (offering setup o pin i).role = (setup i).role := by
  cases pin with
  | none => rfl
  | some pin =>
    by_cases hi : i = o
    · subst hi
      rw [offering, Function.update_self]
    · rw [offering, Function.update_of_ne hi]

theorem offering_of_ne {i : ι} (hi : i ≠ o) (pin : Option String) : offering setup o pin i = setup i := by
  cases pin with
  | none => rfl
  | some pin => exact Function.update_of_ne hi _ _

/-- Before its first step a call does not depend on the PIN. -/
theorem met_offering {calls : ι → PairCall} {pin pin' : Option String} (h : Met (offering setup o pin) calls)
    (ho : calls o = .start) : Met (offering setup o pin') calls where
  calls i := by
    by_cases hi : i = o
    · subst hi
      rw [ho]
      exact callOk_start
    · have hcall := h.calls i
      rw [offering_of_ne hi] at hcall ⊢
      exact hcall
  accepted i t ht := by
    obtain ⟨hkey, j, hj, hsub⟩ := h.accepted i t ht
    refine ⟨hkey, j, hj, ?_⟩
    rwa [offering_role, offering_role, ← offering_role (o := o) pin j, ← offering_role (o := o) pin i]

/-- A PIN that is known was drawn, and the offer's call has not begun before a connection is accepted. -/
structure OfferOk (setup : ι → PairSetup P) (o : ι) (draws : List (Except String PinDraw)) (s : Offer ι) : Prop where
  drawn : ∀ pin, s.phase.pin = some pin → genPin draws = some (.ok pin)
  idle : (∀ pin, s.phase ≠ .accepted pin) → s.calls o = .start
  met : Met (offering setup o s.phase.pin) s.calls

/-- What a step does: it moves the offer on to a phase with the PIN it has drawn, or to failure, before its call has
begun; or it is a step of a call. -/
theorem offerStep_cases {e : OfferEvent ι} (h : offerStep setup o draws s e = some s') :
    (∃ phase, s' = { s with phase } ∧ (∀ pin, s.phase ≠ .accepted pin) ∧
      ∀ pin, phase.pin = some pin → s.phase.pin = some pin ∨ genPin draws = some (.ok pin)) ∨
    ∃ e' calls, e = .pair e' ∧ pairStep (offering setup o s.phase.pin) s.calls e' = some calls ∧
      s' = { s with calls } ∧ ((∀ pin, s.phase ≠ .accepted pin) → e'.call ≠ o) := by
  cases e with
  | genPin =>
    left
    cases hp : s.phase <;> simp only [offerStep, hp] at h <;> try cases h
    cases hg : genPin draws with
    | none => rw [hg] at h; cases h
    | some r =>
      rw [hg] at h
      cases r <;> cases h
      · exact ⟨_, rfl, by simp, fun pin hpin => by cases hpin⟩
      · exact ⟨_, rfl, by simp, fun pin hpin => by cases hpin; exact .inr rfl⟩
  | binds err =>
    left
    cases hp : s.phase <;> simp only [offerStep, hp] at h <;> try cases h
    cases err <;> cases h
    · exact ⟨_, rfl, by simp, fun pin hpin => .inl hpin⟩
    · exact ⟨_, rfl, by simp, fun pin hpin => by cases hpin⟩
  | advertises err =>
    left
    cases hp : s.phase <;> simp only [offerStep, hp] at h <;> try cases h
    cases err <;> cases h
    · exact ⟨_, rfl, by simp, fun pin hpin => .inl hpin⟩
    · exact ⟨_, rfl, by simp, fun pin hpin => by cases hpin⟩
  | accepts err =>
    left
    cases hp : s.phase <;> simp only [offerStep, hp] at h <;> try cases h
    cases err <;> cases h
    · exact ⟨_, rfl, by simp, fun pin hpin => .inl hpin⟩
    · exact ⟨_, rfl, by simp, fun pin hpin => by cases hpin⟩
  | windowCloses =>
    left
    cases hp : s.phase <;> simp only [offerStep, hp] at h <;> try cases h
    exact ⟨_, rfl, by simp, fun pin hpin => by cases hpin⟩
  | pair e =>
    right
    cases hp : s.phase
    case accepted pin =>
      simp only [offerStep, hp] at h
      obtain ⟨calls, hc, rfl⟩ := Option.map_eq_some_iff.1 h
      exact ⟨e, calls, rfl, hc, rfl, fun hne => absurd rfl (hne pin)⟩
    all_goals
      simp only [offerStep, hp] at h
      split at h
      · cases h
      · rename_i hcall
        obtain ⟨calls, hc, rfl⟩ := Option.map_eq_some_iff.1 h
        exact ⟨e, calls, rfl, hc, rfl, fun _ => hcall⟩

/-- A step of another call. -/
theorem pairStep_other {calls calls' : ι → PairCall} {e : PairEvent ι} (h : pairStep setup calls e = some calls')
    (ho : e.call ≠ o) : calls' o = calls o := by
  cases e <;>
  · obtain ⟨c, -, rfl⟩ := Option.map_eq_some_iff.1 h
    exact Function.update_of_ne (Ne.symm ho) _ _

theorem offerOk_step {e : OfferEvent ι} (h : OfferOk setup o draws s) (hfair : OfferFair setup o s e)
    (hs : offerStep setup o draws s e = some s') : OfferOk setup o draws s' := by
  rcases offerStep_cases hs with ⟨phase, rfl, hidle, hpin⟩ | ⟨e', calls, rfl, hpair, rfl, hcall⟩
  · refine ⟨fun pin hp => (hpin pin hp).elim (h.drawn pin) id, fun _ => h.idle hidle, ?_⟩
    exact met_offering h.met (h.idle hidle)
  · refine ⟨h.drawn, fun hne => ?_, met_step h.met hfair hpair⟩
    exact (pairStep_other hpair (hcall hne)).trans (h.idle hne)

/-- An offer that pairs has drawn the PIN of a requester. -/
theorem exists_guess {es : List (OfferEvent ι)} (hrole : (setup o).role = .offerer)
    (hr : Run (offerStep setup o draws) (OfferFair setup o) .start es s)
    (hspake : IdealSpake (offering setup o s.phase.pin) s.calls) (hsep : NoCollision P s.calls) {paired : Paired}
    (hok : s.result o = some (.ok paired)) :
    ∃ j, (setup j).role = .requester ∧ genPin draws = some (.ok (setup j).pin) := by
  have hinv : OfferOk setup o draws s := by
    have hstart : OfferOk setup o draws .start := ⟨(fun pin hp => nomatch hp), fun _ => rfl, met_start⟩
    exact hr.invariant hstart fun _ _ _ h hfair hs => offerOk_step h hfair hs
  obtain ⟨pin, hphase, hcall⟩ : ∃ pin, s.phase = .accepted pin ∧ (s.calls o).phase = .returned (.ok paired) := by
    unfold Offer.result at hok
    split at hok
    · cases hok
    · rename_i pin paired' hp hc
      cases hok
      exact ⟨pin, hp, hc⟩
    · cases hok
    · cases hok
  have hpin : s.phase.pin = some pin := by rw [hphase]; rfl
  have hmet := hinv.met
  obtain ⟨t, ht, -⟩ := (hmet.calls o).ok paired hcall
  obtain ⟨j, key, hko, hkj, hlabel, -⟩ := hmet.tagger hsep ht
  rw [offering_role, offering_role, hrole] at hlabel
  have hjrole : (setup j).role = .requester := by
    cases hj : (setup j).role
    · rw [hj] at hlabel; cases hlabel
    · rfl
  have hne : o ≠ j := by
    rintro rfl
    rw [hrole] at hjrole
    cases hjrole
  obtain ⟨-, hpins, -⟩ := hspake o j key hne hko hkj
  refine ⟨j, hjrole, ?_⟩
  rw [offering_of_ne (Ne.symm hne), hpin, offering, Function.update_self] at hpins
  rw [hpins]
  exact hinv.drawn pin hpin

open scoped Classical in
/-- An attacker whose exchanges use the PINs `guesses`, whatever it sends and in whatever order: of the streams of
random numbers on which a PIN is shown, the offer can pair on no more than one in a million for each guess. -/
theorem guess_wins (setup : ι → PairSetup P) (o : ι) (hrole : (setup o).role = .offerer) (guesses : Finset String)
    (hguesses : ∀ j, (setup j).role = .requester → (setup j).pin ∈ guesses) (k : Nat) :
    (univ.filter fun draws : Fin k → PinDraw => ∃ es s paired,
        Run (offerStep setup o (List.ofFn fun i => .ok (draws i))) (OfferFair setup o) .start es s ∧
        IdealSpake (offering setup o s.phase.pin) s.calls ∧ NoCollision P s.calls ∧
        s.result o = some (.ok paired)).card * 1000000 ≤ guesses.card * (shownStreams k).card := by
  have hsub : (univ.filter fun draws : Fin k → PinDraw => ∃ es s paired,
        Run (offerStep setup o (List.ofFn fun i => .ok (draws i))) (OfferFair setup o) .start es s ∧
        IdealSpake (offering setup o s.phase.pin) s.calls ∧ NoCollision P s.calls ∧
        s.result o = some (.ok paired)) ⊆ guesses.biUnion fun pin => pinStreams k (some (.ok pin)) := by
    intro draws hdraws
    obtain ⟨es, s, paired, hr, hspake, hsep, hok⟩ := (mem_filter.1 hdraws).2
    obtain ⟨j, hj, hdrawn⟩ := exists_guess hrole hr hspake hsep hok
    exact mem_biUnion.2 ⟨_, hguesses j hj, mem_filter.2 ⟨mem_univ draws, hdrawn⟩⟩
  have hone : ∀ pin ∈ guesses, (pinStreams k (some (.ok pin))).card * 1000000 ≤ (shownStreams k).card :=
    fun pin _ => card_pinStreams_le k pin
  calc _ ≤ (guesses.biUnion fun pin => pinStreams k (some (.ok pin))).card * 1000000 :=
        Nat.mul_le_mul_right _ (card_le_card hsub)
    _ ≤ (∑ pin ∈ guesses, (pinStreams k (some (.ok pin))).card) * 1000000 :=
        Nat.mul_le_mul_right _ card_biUnion_le
    _ = ∑ pin ∈ guesses, (pinStreams k (some (.ok pin))).card * 1000000 := sum_mul _ _ _
    _ ≤ ∑ _pin ∈ guesses, (shownStreams k).card := sum_le_sum hone
    _ = guesses.card * (shownStreams k).card := sum_const_nat fun _ _ => rfl

end Offers

/-- The attacker tries `424242` on the devices of the recorded exchange. -/
private def guessing : PairRole → PairSetup recorded := duo "424242" infoOf fun _ => ()

open scoped Classical in
theorem guess_wins_recorded :
    (univ.filter fun draws : Fin 2 → PinDraw => ∃ es s paired,
        Run (offerStep guessing .offerer (List.ofFn fun i => .ok (draws i))) (OfferFair guessing .offerer) .start es s ∧
        IdealSpake (offering guessing .offerer s.phase.pin) s.calls ∧ NoCollision recorded s.calls ∧
        s.result .offerer = some (.ok paired)).card * 1000000 ≤ (shownStreams 2).card := by
  have h := guess_wins guessing .offerer rfl {"424242"} (fun _ _ => mem_singleton_self _) 2
  rwa [card_singleton, Nat.one_mul] at h

end Qdrop
