import Qdrop.Transport.Live

/-!
# The identity of an inbound connection

An accept task reads the roster three times: in the TLS verifier, right after the TLS handshake, and to look up the
device id the `Hello` has to report.  A reload may fall between any two of them.  When the last read does not find
the key any more, the task expects no particular id and accepts the one the peer claims
(`unpinned_key_claims_any_id`).  When it does find the key, the `Hello` is bound to the entry of that key, whatever
the interleaving (`inbound_identity`).
-/

namespace Qdrop

open Lib

/-- The roster still lists the key of the session when the id to expect is looked up. -/
def KeyListed (s : Sys) (e : TEvent) : Prop :=
  ∀ k a, e = .lookup k → s.accepts.lookup k = some a → (s.roster.peerForKey a.key).isSome = true

/-- Some roster that was current during the attempt lists the key under the id. -/
def Submission.BoundToKey (sub : Submission) : Prop :=
  ∃ r ∈ sub.seen, ∃ peer ∈ r.peerForKey sub.key, peer.deviceId = sub.deviceId

instance (sub : Submission) : Decidable sub.BoundToKey :=
  inferInstanceAs (Decidable (∃ r ∈ sub.seen, ∃ peer ∈ r.peerForKey sub.key, peer.deviceId = sub.deviceId))

/-- The part of the state the accept tasks read and write. -/
private def Sys.acceptView (s : Sys) : RosterInner × List RosterInner × AList (fun _ : Nat => AcceptTask) ×
    List Submission := (s.roster, s.rosters, s.accepts, s.submitted)

/-! ### Which steps concern an accept task -/

section View

variable {own : Hello} {s s' : Sys} {e : TEvent}

private theorem acceptView_sweep (ids : List DeviceId) (s : Sys) :
    (ids.foldl dropPeer s).acceptView = s.acceptView := by
  obtain ⟨_, _, _, _, heq⟩ := sweep_cases ids s
  rw [heq]
  rfl

private theorem acceptView_handleInternal (ownId : DeviceId) (s : Sys) (m : Internal) :
    (handleInternal ownId s m).acceptView = s.acceptView := by
  cases m with
  | discovery ev => cases ev <;> rfl
  | rosterChanged => exact acceptView_sweep _ s
  | inboundReady peer caps =>
    simp only [handleInternal, onInboundReady]
    split <;> rfl
  | connUp => rfl
  | connDown => rfl

private theorem acceptView_resumeWork {ownId : DeviceId} (h : resumeWork ownId s = some s') :
    s'.acceptView = s.acceptView := by
  obtain ⟨work, peers, tasks, n, rfl⟩ := resumeWork_frame h
  rfl

private theorem acceptView_taskStep {t : Nat} {task : Task} (h : taskStep own s t task e = some s') :
    s'.acceptView = s.acceptView := by
  obtain ⟨tasks, extra, n, -, -, rfl⟩ := taskStep_frame h
  rfl

/-- A reload, a new accept task, a step of an accept task, or a step that concerns none of them. -/
private theorem accept_cases (h : transportStep own s e = some s') :
    (∃ r, s'.acceptView = (r, s.rosters ++ [r], s.accepts, s.submitted)) ∨
    (∃ k key, s.accepts.lookup k = none ∧
      s'.acceptView = (s.roster, s.rosters, s.accepts.insert k ⟨key, .tls, s.rosters.length - 1⟩, s.submitted)) ∨
    (∃ k a, e.accept? = some k ∧ s.accepts.lookup k = some a ∧ acceptStep own s k a e = some s') ∨
    s'.acceptView = s.acceptView := by
  unfold transportStep at h
  split at h
  · cases h
    exact Or.inl ⟨_, rfl⟩
  · split at h
    · cases h
      exact Or.inr (Or.inr (Or.inr rfl))
    · cases h
  · split at h
    · rw [push_eq_some h]
      exact Or.inr (Or.inr (Or.inr rfl))
    · cases h
  · rw [push_eq_some h]
    exact Or.inr (Or.inr (Or.inr rfl))
  · split at h
    · cases h
      exact Or.inr (Or.inr (Or.inr (acceptView_handleInternal _ _ _)))
    · cases h
  · exact Or.inr (Or.inr (Or.inr (acceptView_resumeWork h)))
  · split at h
    · cases h
    · rename_i k key hk
      cases h
      exact Or.inr (Or.inl ⟨k, key, by simpa using hk, rfl⟩)
  · split at h
    · obtain ⟨task, -, htask⟩ := Option.bind_eq_some_iff.1 h
      exact Or.inr (Or.inr (Or.inr (acceptView_taskStep htask)))
    · rename_i k _ hk
      obtain ⟨a, ha, hstep⟩ := Option.bind_eq_some_iff.1 h
      exact Or.inr (Or.inr (Or.inl ⟨k, a, hk, ha, hstep⟩))
    · cases h

end View

/-! ### The invariant -/

/-- The id an accept task expects is that of an entry it has seen for its key, and so is every id submitted. -/
private structure Bound (s : Sys) : Prop where
  current : s.rosters.getLast? = some s.roster
  since : ∀ k a, s.accepts.lookup k = some a → a.since < s.rosters.length
  expects : ∀ k a expectId, s.accepts.lookup k = some a → a.phase = .expecting expectId →
    ∃ id, expectId = some id ∧ Submission.BoundToKey ⟨a.key, id, s.rosters.drop a.since⟩
  submitted : ∀ sub ∈ s.submitted, sub.BoundToKey

section Invariant

variable {own : Hello} {s s' : Sys} {e : TEvent}

/-- A longer attempt has seen more rosters. -/
private theorem boundToKey_grow {key : Key} {id : DeviceId} {rosters : List RosterInner} {n : Nat}
    (h : Submission.BoundToKey ⟨key, id, rosters.drop n⟩) (r : RosterInner) :
    Submission.BoundToKey ⟨key, id, (rosters ++ [r]).drop n⟩ := by
  obtain ⟨r', hr', hp⟩ := h
  refine ⟨r', ?_, hp⟩
  rw [List.drop_append]
  exact List.mem_append_left _ hr'

/-- The current roster is among those seen by an attempt in progress. -/
private theorem Bound.roster_mem (h : Bound s) {n : Nat} (hn : n < s.rosters.length) :
    s.roster ∈ s.rosters.drop n := by
  have hlast : (s.rosters.drop n).getLast? = some s.roster := by
    rw [List.getLast?_drop, if_neg (by omega), h.current]
  exact List.mem_of_getLast? hlast

/-- Only the accept tasks' part of the state matters. -/
private theorem Bound.of_view (h : Bound s) (hv : s'.acceptView = s.acceptView) : Bound s' := by
  simp only [Sys.acceptView, Prod.mk.injEq] at hv
  obtain ⟨hr, hrs, ha, hsub⟩ := hv
  refine ⟨by rw [hr, hrs]; exact h.current, ?_, ?_, by rw [hsub]; exact h.submitted⟩
  · rw [ha, hrs]; exact h.since
  · rw [ha, hrs]; exact h.expects

/-- An accept task changes only its own entry. -/
private theorem Bound.insert (h : Bound s) {k : Nat} {a : AcceptTask} {accepts : AList (fun _ : Nat => AcceptTask)}
    (hsince : a.since < s.rosters.length)
    (hexpects : ∀ expectId, a.phase = .expecting expectId →
      ∃ id, expectId = some id ∧ Submission.BoundToKey ⟨a.key, id, s.rosters.drop a.since⟩)
    (haccepts : accepts = s.accepts.insert k a) : Bound { s with accepts := accepts } := by
  subst haccepts
  refine ⟨h.current, fun k' a' ha' => ?_, fun k' a' expectId ha' hph => ?_, h.submitted⟩
  · rcases lookup_insert_eq_some.1 ha' with ⟨rfl, rfl⟩ | ⟨-, ha'⟩
    · exact hsince
    · exact h.since k' a' ha'
  · rcases lookup_insert_eq_some.1 ha' with ⟨rfl, rfl⟩ | ⟨-, ha'⟩
    · exact hexpects expectId hph
    · exact h.expects k' a' expectId ha' hph

private theorem Bound.erase (h : Bound s) (k : Nat) : Bound { s with accepts := s.accepts.erase k } := by
  have hsome : ∀ k' a', (s.accepts.erase k).lookup k' = some a' → s.accepts.lookup k' = some a' := by
    intro k' a' ha'
    obtain ⟨-, ha'⟩ := lookup_erase_eq_some.1 ha'
    exact ha'
  exact ⟨h.current, fun k' a' ha' => h.since k' a' (hsome k' a' ha'),
    fun k' a' expectId ha' hph => h.expects k' a' expectId (hsome k' a' ha') hph, h.submitted⟩

private theorem bound_acceptStep {k : Nat} {a : AcceptTask} (h : Bound s) (hk : e.accept? = some k)
    (ha : s.accepts.lookup k = some a) (hlisted : KeyListed s e) (hs : acceptStep own s k a e = some s') :
    Bound s' := by
  unfold acceptStep at hs
  split at hs
  · split at hs
    · cases hs
      split
      · exact h.insert (a := { a with phase := .verified }) (h.since k a ha) (by simp) rfl
      · exact h.erase k
    · cases hs
  · split at hs
    · cases hs
      split
      · exact h.insert (a := { a with phase := .trusted }) (h.since k a ha) (by simp) rfl
      · exact h.erase k
    · cases hs
  · split at hs
    · rename_i k' _ hph
      cases hs
      cases hk
      -- the key is listed, so the task expects the id of the entry it just read
      obtain ⟨peer, hpeer⟩ := Option.isSome_iff_exists.1 (hlisted k a rfl ha)
      refine h.insert (a := { a with phase := .expecting ((s.roster.peerForKey a.key).map (·.deviceId)) })
        (h.since k a ha) (fun expectId hexp => ?_) rfl
      simp only [AcceptPhase.expecting.injEq, hpeer, Option.map_some] at hexp
      exact ⟨peer.deviceId, hexp.symm, s.roster, h.roster_mem (h.since k a ha), peer, hpeer, rfl⟩
    · cases hs
  · split at hs
    · rename_i expectId hph
      split at hs
      · rename_i hs' hok
        rw [push_eq_some hs]
        obtain ⟨id, rfl, hbound⟩ := h.expects k a expectId ha hph
        have hid := handshake_ok hok id rfl
        have herase := h.erase k
        refine ⟨h.current, herase.since, herase.expects, fun sub hsub => ?_⟩
        rcases List.mem_append.1 hsub with hsub | hsub
        · exact h.submitted sub hsub
        · rw [List.mem_singleton.1 hsub, hid]
          exact hbound
      · cases hs
        exact h.erase k
    · cases hs
  · cases hs
    exact h.erase k
  · cases hs

private theorem bound_step (h : Bound s) (hlisted : KeyListed s e) (hs : transportStep own s e = some s') :
    Bound s' := by
  rcases accept_cases hs with ⟨r, hv⟩ | ⟨k, key, -, hv⟩ | ⟨k, a, hk, ha, hstep⟩ | hv
  · have hgrow : Bound { s with roster := r, rosters := s.rosters ++ [r] } := by
      refine ⟨by simp, fun k a ha => ?_, fun k a expectId ha hph => ?_, h.submitted⟩
      · have := h.since k a ha
        rw [List.length_append]
        omega
      · obtain ⟨id, hid, hbound⟩ := h.expects k a expectId ha hph
        exact ⟨id, hid, boundToKey_grow hbound r⟩
    exact hgrow.of_view hv
  · have hpos : 0 < s.rosters.length := by
      cases hr : s.rosters with
      | nil =>
        have := h.current
        rw [hr] at this
        cases this
      | cons r rs => simp
    have hnew := h.insert (k := k) (a := ⟨key, .tls, s.rosters.length - 1⟩)
      (Nat.sub_lt hpos Nat.one_pos) (by simp) rfl
    exact hnew.of_view hv
  · exact bound_acceptStep h hk ha hlisted hstep
  · exact h.of_view hv

end Invariant

/-- For every interleaving of reloads with the accept tasks and every `Hello`: if the key is still listed whenever the
id to expect is looked up, then every `InboundReady` is submitted under an id that some roster current during the
attempt listed for the key of the session. -/
theorem inbound_identity (own : Hello) (roster : RosterInner) (es : List TEvent) (s : Sys)
    (hr : Run (transportStep own) KeyListed (Sys.start roster) es s) : ∀ sub ∈ s.submitted, sub.BoundToKey := by
  have h : Bound s := by
    refine hr.invariant ⟨rfl, (fun k a ha => by cases ha), (fun k a expectId ha => by cases ha), ?_⟩
      (fun _ _ _ h hok hs => bound_step h hok hs)
    intro sub hsub
    cases hsub
  exact h.submitted

/-! ### A reload before the last read -/

/-- The session of `a` is unpaired after the second read and claims to be `victim`, which stays paired. -/
private def unpinned : List TEvent :=
  [.tcp 1 zeroKey, .verify 1, .recheck 1, .reload [⟨"victim", "victim", Vector.replicate 32 1, []⟩], .lookup 1,
    .hello 1 (some (.ok (.hello (helloOf "victim"))))]

theorem unpinned_key_claims_any_id :
    ¬ ∀ (own : Hello) (roster : RosterInner) (es : List TEvent) (s : Sys),
      Run (transportStep own) Always (Sys.start roster) es s → ∀ sub ∈ s.submitted, sub.BoundToKey := by
  intro h
  obtain ⟨s, hrun, hview⟩ := run_of_exec_view (transportStep (helloOf "b")) (fun _ => True)
    (Sys.start pairedWithA) unpinned (fun s => s.submitted.all (fun sub => decide sub.BoundToKey)) false
    (fun _ _ => trivial) (by decide)
  have hall := h _ _ _ s hrun
  have : s.submitted.all (fun sub => decide sub.BoundToKey) = true := by simpa using hall
  rw [hview] at this
  cases this

/-- `a` connects while it is paired. -/
theorem inbound_identity_a :
    ∃ s, Run (transportStep (helloOf "b")) KeyListed (Sys.start pairedWithA) (inboundFromA 1) s ∧
      s.submitted.length = 1 ∧ ∀ sub ∈ s.submitted, sub.BoundToKey := by
  obtain ⟨s, hrun, hlen⟩ := run_of_exec_checked (transportStep (helloOf "b"))
    (fun s _ => (s.roster.peerForKey zeroKey).isSome = true ∧
      ∀ k ∈ s.accepts.keys, ∀ a ∈ s.accepts.lookup k, a.key = zeroKey)
    (Sys.start pairedWithA) (inboundFromA 1) (fun s => s.submitted.length) 1 (by decide)
  have hrun : Run (transportStep (helloOf "b")) KeyListed (Sys.start pairedWithA) (inboundFromA 1) s := by
    refine hrun.mono (fun s e h k a _ ha => ?_)
    have hmem : k ∈ s.accepts.keys := AList.lookup_isSome.1 (by rw [ha]; rfl)
    rw [h.2 k hmem a ha]
    exact h.1
  exact ⟨s, hrun, hlen, inbound_identity _ _ _ s hrun⟩

end Qdrop
