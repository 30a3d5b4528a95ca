import ToFTDS.Consensus.WellFormed
import ToFTDS.Consensus.Roles
import ToFTDS.Consensus.Safety

/-!
# What a tick can fail at

A method of a node fails where it looks up a channel that is not there, dereferences an empty
optional or indexes past its log. Between members the first two never happen. The log is indexed
past its end by a query, if the commit index is past it, and by `SendAppendEntriesToAll`, if a
`next_index` is (`Stranded`); a new leader's indices are fine. In a run without the steps that lead
there no step fails at all, so that no tick thread ever stops (`no_step_fails`).
-/

namespace ToFTDS.Consensus

open Run Cluster

namespace Node

variable {nd nd' : Node} {e : Fault}

/-! ## Sending -/

/-- Some member's `next_index` leaves no item of the log in front of it. -/
def Stranded (nd : Node) : Prop :=
  ∃ ls, nd.leaderState = some ls ∧ ∃ f ∈ nd.channels,
    ls.nextIndex.at f = 0 ∨ nd.log.length < ls.nextIndex.at f

/-- Sending to a member fails only if its `next_index` is astray. -/
theorem sendAppendEntriesToSomeone_stranded {who : NodeId} {heartbeat : Bool}
    (hwho : who ∈ nd.channels) (hls : nd.leaderState.isSome)
    (h : nd.sendAppendEntriesToSomeone who heartbeat = .error e) : nd.Stranded := by
  unfold sendAppendEntriesToSomeone at h
  split at h
  · cases h
  split at h
  · next hnone =>
    rw [hnone] at hls
    cases hls
  next ls hls =>
  refine ⟨ls, hls, who, hwho, ?_⟩
  dsimp only at h
  split at h
  · cases h
  split at h
  · next hzero => exact .inl hzero
  next hzero =>
  right
  rcases bind_eq_error.1 h with h | ⟨prev, -, h⟩
  · unfold logAt at h
    split at h
    · cases h
    · next hprev =>
      have := List.getElem?_eq_none_iff.1 hprev
      omega
  · cases h

/-- Sending to someone keeps the log. -/
theorem sendAppendEntriesToSomeone_log {who : NodeId} {heartbeat : Bool}
    (h : nd.sendAppendEntriesToSomeone who heartbeat = .ok nd') : nd'.log = nd.log := by
  unfold sendAppendEntriesToSomeone at h
  split at h
  · cases h
    rfl
  split at h
  · cases h
  split at h
  · cases h
  dsimp only at h
  split at h
  · cases h
    rfl
  split at h
  · cases h
  obtain ⟨prev, -, h⟩ := bind_eq_ok.1 h
  cases h
  rfl

/-- A leader that fails to send to all is stranded. -/
theorem sendAppendEntriesToAll_stranded (hls : nd.leaderState.isSome)
    (h : nd.sendAppendEntriesToAll = .error e) : nd.Stranded := by
  by_contra hno
  refine foldlM_ne_error (I := fun nd' : Node => nd'.channels = nd.channels ∧
      nd'.leaderState = nd.leaderState ∧ nd'.log = nd.log) ?_ ?_ ⟨rfl, rfl, rfl⟩ h
  · intro nd' who hwho ⟨hch, hls', hlog⟩ h
    have hs := sendAppendEntriesToSomeone_stranded (hch ▸ hwho) (hls' ▸ hls) h
    unfold Stranded at hs
    rw [hch, hls', hlog] at hs
    exact hno hs
  · intro nd₁ who nd₂ ⟨hch, hls', hlog⟩ h
    obtain ⟨h1, h2⟩ := sendAppendEntriesToSomeone_frame h
    exact ⟨h1.trans hch, h2.trans hls', (sendAppendEntriesToSomeone_log h).trans hlog⟩

/-- A new leader's indices are next to the end of its log. -/
theorem becomeLeader_ne_error (hlog : 0 < nd.log.length) : nd.becomeLeader ≠ .error e := by
  intro h
  obtain ⟨ls, hls, f, hf, hastray⟩ := sendAppendEntriesToAll_stranded rfl h
  cases hls
  have hnext : (nd.emit (.becameLeader nd.currentTerm nd.log)).initialLeaderState.nextIndex.at f =
      nd.log.length - 1 + 1 := initialLeaderState_nextIndex _ hf
  dsimp only at hastray
  rw [hnext] at hastray
  change _ ∨ nd.log.length < _ at hastray
  omega

/-! ## The parts of a tick -/

/-- A query fails only if something is committed past the log. -/
theorem handleGetPersistentCommandRequests_past
    (h : nd.handleGetPersistentCommandRequests = .error e) : nd.log.length ≤ nd.commitIndex := by
  by_contra hlt
  rw [handleGetPersistentCommandRequests_eq (Nat.lt_of_not_le hlt)] at h
  cases h

/-- A tick fails to begin only if something is committed past the log. -/
theorem beginTick_past {ids : Finset NodeId} (hrole : RoleNode ids nd)
    (h : nd.beginTick = .error e) : e = .logOutOfRange ∧ nd.log.length ≤ nd.commitIndex := by
  have hne := beginTick_ne_emptyOptional hrole
  rcases bind_eq_error.1 h with h' | ⟨nd₁, -, h'⟩
  · exact ⟨handleGetPersistentCommandRequests_error h',
      handleGetPersistentCommandRequests_past h'⟩
  · split at h'
    · rw [h, (commitIfPossible_error h').1] at hne
      exact absurd rfl hne
    · cases h'

/-- A member with a log handles every RequestVoteResponse. -/
theorem handleRequestVoteResponse_ne_error {ids : Finset NodeId} (hrole : RoleNode ids nd)
    (hlog : 0 < nd.log.length) {resp : RequestVoteResponse} {sender : NodeId} :
    nd.handleRequestVoteResponse resp sender ≠ .error e := by
  intro h
  have hlog' : (nd.observeTerm resp.currentTerm).log = nd.log := observeTerm_log nd _
  have hcandidate := (hrole.observeTerm resp.currentTerm).candidate
  unfold handleRequestVoteResponse at h
  generalize nd.observeTerm resp.currentTerm = nd₁ at h hlog' hcandidate
  dsimp only at h
  split at h
  · cases h
  next hr =>
  split at h
  · cases h
  split at h
  · cases h
  split at h
  · next hnone =>
    have hsome := hcandidate.2 (not_not.1 hr)
    rw [hnone] at hsome
    cases hsome
  split at h
  · refine becomeLeader_ne_error ?_ h
    exact hlog' ▸ hlog
  · cases h

/-- A member with a log handles every message from a member, if successful replies carry an index.
-/
theorem handleMessage_ne_error {ids : Finset NodeId} (hrole : RoleNode ids nd) {sender : NodeId}
    {msg : Message} (hsender : sender ∈ nd.channels) (hlog : 0 < nd.log.length)
    (hmsg : ∀ resp, msg = .appendEntriesResponse resp → resp.success = true →
      resp.matchedUntil.isSome) :
    nd.handleMessage sender msg ≠ .error e := by
  intro h
  have hne : nd.handleMessage sender msg ≠ .error .emptyOptional :=
    handleMessage_ne_emptyOptional hrole hmsg
  cases msg with
  | appendEntriesRequest req =>
    rw [handleMessage, if_neg (not_not.2 hsender)] at h
    cases h
  | requestVoteRequest req =>
    rw [handleMessage, if_neg (not_not.2 hsender)] at h
    cases h
  | appendEntriesResponse resp =>
    obtain ⟨rfl, -⟩ := handleAppendEntriesResponse_error h
    exact hne h
  | requestVoteResponse resp =>
    exact handleRequestVoteResponse_ne_error hrole hlog h

/-- A tick fails to end only for a stranded leader. -/
theorem endTick_stranded {ids : Finset NodeId} (hrole : RoleNode ids nd) {asLeader expired : Bool}
    (h : nd.endTick asLeader expired = .error e) :
    e = .logOutOfRange ∧ nd.role = .kLeader ∧ nd.Stranded := by
  unfold endTick at h
  split at h
  · unfold finishTickLeader at h
    split at h
    · next hr =>
      rcases bind_eq_error.1 h with h | ⟨nd₁, -, h⟩
      · have hls := hrole.leader.2 hr
        refine ⟨?_, hr, sendAppendEntriesToAll_stranded hls h⟩
        rcases sendAppendEntriesToAll_error h with ⟨-, hnone⟩ | he
        · rw [hnone] at hls
          cases hls
        · exact he
      · cases h
    · cases h
  · cases h

end Node

/-! ## Runs -/

open Node

/-- The logs are well formed after every run. -/
theorem wellFormed_run {members : Members} {ops : List Op} {s : Cluster}
    (hrun : exec step ops (init members) = some s) :
    ∀ i ∈ members.ids, WellFormedNode (s.node i) :=
  invariant_run (z := {}) (I := fun nodes => ∀ i ∈ members.ids, WellFormedNode (nodes i))
    (fun _ _ _ => wellFormed_move) (wellFormed_init members) hrun
    (avoids_of_forall marks_empty ops _)

/-- A process fails at nothing but an index past the log: when it begins a tick, if something is
committed past the log, and when it ends one, if it leads with a `next_index` astray. -/
theorem Process.runs_error {ids : Finset NodeId} {p : Process} {a : Action} {e : Fault}
    (hrole : RoleNode ids p.node) (hlog : 0 < p.node.log.length)
    (hpending : ∀ m ∈ p.pending, m.1 ∈ p.node.channels ∧
      ∀ resp, m.2 = .appendEntriesResponse resp → resp.success = true → resp.matchedUntil.isSome)
    (h : p.runs a = some (.error e)) :
    e = .logOutOfRange ∧ (a = .beginTick ∧ p.node.log.length ≤ p.node.commitIndex ∨
      (∃ expired, a = .endTick expired) ∧ p.node.role = .kLeader ∧ p.node.Stranded) := by
  cases a with
  | addCommand command => cases h
  | getPersistentCommands start maxCount => cases h
  | beginTick =>
    simp only [runs] at h
    split at h
    · obtain ⟨he, hle⟩ := beginTick_past hrole (Option.some.inj h)
      exact ⟨he, .inl ⟨rfl, hle⟩⟩
    · cases h
  | handle =>
    simp only [runs] at h
    split at h
    · next m rest htick =>
      obtain ⟨hsender, hmsg⟩ := hpending m (by simp [pending, htick])
      exact absurd (Option.some.inj h) (handleMessage_ne_error hrole hsender hlog hmsg)
    · cases h
  | endTick expired =>
    simp only [runs] at h
    split at h
    · obtain ⟨he, hr, hstranded⟩ := endTick_stranded hrole (Option.some.inj h)
      exact ⟨he, .inr ⟨⟨expired, rfl⟩, hr, hstranded⟩⟩
    · cases h

/-- In a run without unsafe steps every commit index is in the log. -/
theorem commitIndex_lt_run {members : Members} {ops : List Op} {s : Cluster}
    (hrun : exec step ops (init members) = some s)
    (havoid : Avoids step (marks (outOfRange.or unsafeStep)) ops (init members) = true) :
    ∀ i ∈ members.ids, (s.node i).commitIndex < (s.node i).log.length := by
  have hU := (elections_run (Hazard.Le.refl _).or_left.or_right hrun havoid).uniqueLeaders
  obtain ⟨b, -, hK⟩ := safe_run (Hazard.Le.refl _).or_left.or_right.or_right
    (Hazard.Le.refl _).or_right.or_right.or_right hrun havoid hU
  exact fun i hi => (hK i hi).commit.lt

/-- **No step fails.** In every run a member's step fails only where it indexes past the log: if it
looks a query up, when something is committed past the log, or if it sends as the leader, when some
`next_index` is astray. In a run without unsafe steps and without those that lead there no step
fails. -/
theorem no_step_fails (members : Members) (ops : List Op) (s : Cluster)
    (hrun : exec step ops (init members) = some s) :
    (∀ i ∈ members.ids, ∀ a e, (s.procs i).runs a = some (.error e) → e = .logOutOfRange ∧
      (a = .beginTick ∧ (s.node i).log.length ≤ (s.node i).commitIndex ∨
        (∃ expired, a = .endTick expired) ∧ (s.node i).role = .kLeader ∧ (s.node i).Stranded)) ∧
    (Avoids step (marks (outOfRange.or unsafeStep)) ops (init members) = true →
      ∀ i ∈ members.ids, ∀ a e, (s.procs i).runs a ≠ some (.error e)) := by
  have hc := conserved_run hrun
  have hmem := members_run hrun
  have hroles := roles_run hrun
  have hwf := wellFormed_run hrun
  have hfail : ∀ i ∈ members.ids, ∀ a e, (s.procs i).runs a = some (.error e) →
      e = .logOutOfRange ∧ (a = .beginTick ∧ (s.node i).log.length ≤ (s.node i).commitIndex ∨
        (∃ expired, a = .endTick expired) ∧ (s.node i).role = .kLeader ∧ (s.node i).Stranded) := by
    intro i hi a e h
    refine Process.runs_error (hroles i hi) ?_ (fun m hm => ?_) h
    · exact List.length_pos_iff.2 (hwf i hi).node.nonempty
    · have hs := hc.pending i m hm
      rw [hmem] at hs
      refine ⟨hc.channels i (hmem ▸ hi) ▸ hmem ▸ hs.1, fun resp hresp hsucc => ?_⟩
      exact hroles.matchedUntil (hresp ▸ hs) hsucc
  refine ⟨hfail, fun havoid i hi a e h => ?_⟩
  obtain ⟨-, ⟨-, hpast⟩ | ⟨-, hr, ls, hls, f, hf, hastray⟩⟩ := hfail i hi a e h
  · have hlt := commitIndex_lt_run hrun havoid i hi
    omega
  · obtain ⟨-, hrange⟩ := indicesInRange_run (Hazard.Le.refl outOfRange).or_left hrun havoid
    rw [hc.channels i (hmem ▸ hi), hmem] at hf
    obtain ⟨hge, hle⟩ := (hrange i hi).leader hr ls hls f hf
    omega

/-- In the run that commits the first command, the leader is about to end a tick. -/
theorem no_step_fails_firstCommitRun :
    ∃ s, exec step firstCommitRun (init threeMembers) = some s ∧ (s.node 1).commitIndex = 1 ∧
      ∀ a e, (s.procs 1).runs a ≠ some (.error e) := by
  obtain ⟨s, hrun, hs⟩ : ∃ s, exec step firstCommitRun (init threeMembers) = some s ∧
      decide ((s.node 1).commitIndex = 1) = true := exists_of_any (by decide +kernel)
  obtain ⟨-, hnone⟩ := no_step_fails threeMembers firstCommitRun s hrun
  exact ⟨s, hrun, of_decide_eq_true hs, hnone (by decide +kernel) 1 (by decide)⟩

end ToFTDS.Consensus
