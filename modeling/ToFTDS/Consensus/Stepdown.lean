import ToFTDS.Consensus.Roles

/-!
# Stepping down before another leader

A node that gets an `AppendEntriesRequest` of its own term from another node knows the leader of the
term. `HandleAppendEntriesRequest` calls `BecomeFollower` for a larger term only (`node.cpp:94`); a
candidate of the same term takes the entries over and stays one, with a line `UNEXPECTED` in the log
(`node.cpp:109`). `acknowledgesInOffice` marks these steps. In the runs without them, who has
acknowledged the entries of another leader does not lead in the same term any more.
-/

namespace ToFTDS.Consensus

open Run Node Cluster

/-- The node follows the leader of `term`. -/
structure Node.Follows (nd : Node) (term : Nat) : Prop where
  role : nd.role = .kFollower
  currentTerm : nd.currentTerm = term
  candidateState : nd.candidateState = none
  leaderState : nd.leaderState = none

/-- A node follows the sender of a request that is not stale if the term is new to it, or if it was
a follower already. -/
theorem RoleNode.follows_iff {ids : Finset NodeId} {nd : Node} (h : RoleNode ids nd)
    {req : AppendEntriesRequest} (hle : nd.currentTerm ≤ req.leaderTerm) :
    (nd.handleAppendEntriesRequest req).2.Follows req.leaderTerm ↔
      nd.currentTerm < req.leaderTerm ∨ nd.role = .kFollower := by
  obtain ⟨hr, ht, hcs, hls⟩ := nd.handleAppendEntriesRequest_roles req
  rcases nd.observeTerm_cases req.leaderTerm with ⟨hge, heq⟩ | ⟨hlt, heq⟩ <;>
    rw [heq] at hr ht hcs hls
  · constructor
    · intro hf
      exact .inr (hr ▸ hf.role)
    · rintro (hlt | hrole)
      · omega
      · refine ⟨hr.trans hrole, ht.trans (Nat.le_antisymm hle hge), hcs.trans ?_, hls.trans ?_⟩
        · exact h.candidateState_eq_none (by simp [hrole])
        · exact h.leaderState_eq_none (by simp [hrole])
  · exact iff_of_true ⟨hr, ht, hcs, hls⟩ (.inl hlt)

/-! ## After an acknowledgement -/

/-- A candidate or a leader handles a request of its own term that comes from another node. -/
def acknowledgesInOffice : Hazard where
  handles nd sender msg :=
    match msg with
    | .appendEntriesRequest req =>
      sender ≠ nd.myId && req.leaderTerm = nd.currentTerm && nd.role ≠ .kFollower
    | _ => false

/-- In the event, node `i` has acknowledged entries that another node sent in term `t`. -/
def Event.acknowledges (i : NodeId) (t : Nat) : Event → Bool
  | .answered sender req resp => sender ≠ i && req.leaderTerm = t && resp.success
  | _ => false

/-- Node `i` has not entered `BecomeLeader` in a term in which it had acknowledged another node's
entries before. -/
def StandsDown (i : NodeId) (history : List Event) : Prop :=
  history.Pairwise fun e e' => ∀ t log, e.acknowledges i t = true → e' ≠ .becameLeader t log

/-- The events that `StandsDown` is about. -/
def Event.decisive : Event → Bool
  | .answered _ _ resp => resp.success
  | .becameLeader .. => true
  | _ => false

/-- Quiet events are not decisive. -/
theorem Event.not_decisive_of_quiet (e : Event) (h : e.quiet = true) : e.decisive = false := by
  cases e <;> first | rfl | cases h

/-- An acknowledgement is decisive. -/
theorem Event.decisive_of_acknowledges {i : NodeId} {t : Nat} {e : Event}
    (h : e.acknowledges i t = true) : e.decisive = true := by
  cases e with
  | answered sender req resp => exact (Bool.and_eq_true_iff.1 h).2
  | _ => cases h

/-- Events in which the node becomes no leader keep it standing down. -/
theorem StandsDown.append {i : NodeId} {history evs : List Event} (h : StandsDown i history)
    (hevs : ∀ e ∈ evs, ∀ t log, e ≠ .becameLeader t log) : StandsDown i (history ++ evs) := by
  refine List.pairwise_append.2 ⟨h, ?_, fun e he e' he' t log _ => hevs e' he' t log⟩
  exact (List.pairwise_of_forall fun _ _ => trivial).imp_of_mem
    fun he he' _ t log _ => hevs _ he' t log

/-- A change without decisive events keeps the node standing down. -/
theorem StandsDown.of_noNew {i : NodeId} {nd nd' : Node} (h : StandsDown i nd.history)
    (hev : NoNew Event.decisive nd nd') : StandsDown i nd'.history := by
  obtain ⟨evs, heq, hevs⟩ := hev
  rw [heq]
  refine h.append fun e he t log hbec => ?_
  have := hevs e he
  rw [hbec] at this
  cases this

/-- Whoever has acknowledged entries in its current term is a follower. -/
structure DeposedNode (i : NodeId) (nd : Node) : Prop where
  follower : ∀ e ∈ nd.history, ∀ t, e.acknowledges i t = true →
    t < nd.currentTerm ∨ t = nd.currentTerm ∧ nd.role = .kFollower
  standsDown : StandsDown i nd.history

namespace DeposedNode

variable {i : NodeId} {nd nd' : Node}

/-- The invariant survives a change that keeps term and role and is not decisive. -/
theorem frame (h : DeposedNode i nd) (ht : nd'.currentTerm = nd.currentTerm)
    (hr : nd'.role = nd.role) (hev : NoNew Event.decisive nd nd') : DeposedNode i nd' where
  follower e he t ha := by
    rw [ht, hr]
    exact h.follower e (hev.mem he (Event.decisive_of_acknowledges ha)) t ha
  standsDown := h.standsDown.of_noNew hev

/-- In a larger term nothing has been acknowledged yet. -/
theorem raise (h : DeposedNode i nd) (ht : nd.currentTerm < nd'.currentTerm)
    (hev : NoNew Event.decisive nd nd') : DeposedNode i nd' where
  follower e he t ha := by
    rcases h.follower e (hev.mem he (Event.decisive_of_acknowledges ha)) t ha with hlt | ⟨rfl, -⟩
    · exact .inl (hlt.trans ht)
    · exact .inl ht
  standsDown := h.standsDown.of_noNew hev

/-- A follower acknowledges the entries of a request of its term. -/
theorem acknowledge (h : DeposedNode i nd) {sender : NodeId} {req : AppendEntriesRequest}
    {resp : AppendEntriesResponse} (ht : req.leaderTerm = nd.currentTerm)
    (hr : sender ≠ i → nd.role = .kFollower) :
    DeposedNode i (nd.note
      [.answered sender req resp, .send sender (.appendEntriesResponse resp)]) where
  follower e he t ha := by
    simp only [note, List.mem_append, List.mem_cons, List.not_mem_nil, or_false] at he
    rcases he with he | rfl | rfl
    · exact h.follower e he t ha
    · simp only [Event.acknowledges, Bool.and_eq_true, decide_eq_true_eq] at ha
      exact .inr ⟨ha.1.2.symm.trans ht, hr ha.1.1⟩
    · cases ha
  standsDown := h.standsDown.append (by simp)

/-- A candidate has acknowledged nothing in its term. -/
theorem becomeLeader (h : DeposedNode i nd) (hr : nd.role = .kCandidate) {ls : LeaderState} :
    DeposedNode i ({ nd with
      votedFor := none
      candidateState := none
      leaderState := some ls
      role := .kLeader }.note [.becameLeader nd.currentTerm nd.log]) := by
  have hearlier : ∀ e ∈ nd.history, ∀ t, e.acknowledges i t = true → t < nd.currentTerm := by
    intro e he t ha
    refine (h.follower e he t ha).resolve_right fun hf => ?_
    rw [hr] at hf
    cases hf.2
  refine ⟨fun e he t ha => .inl ?_, ?_⟩
  · rcases List.mem_append.1 he with he | he
    · exact hearlier e he t ha
    · cases List.mem_singleton.1 he
      cases ha
  · refine List.pairwise_append.2 ⟨h.standsDown, List.pairwise_singleton _ _, ?_⟩
    intro e he e' he' t log ha hbec
    cases List.mem_singleton.1 he'
    cases hbec
    exact Nat.lt_irrefl _ (hearlier e he _ ha)

end DeposedNode

/-- Every move keeps it, if nobody acknowledges entries while a candidate or a leader. -/
theorem deposed_move {z : Hazard} (hz : acknowledgesInOffice.Le z) {ids : List NodeId}
    {nodes : NodeId → Node} {i : NodeId} {nd : Node}
    (hI : ∀ i ∈ ids, DeposedNode i (nodes i)) (h : MemberMove z ids nodes i nd) :
    ∀ j ∈ ids, DeposedNode j (Function.update nodes i nd j) := by
  obtain ⟨hi, hme, -, hm⟩ := h
  refine forall_update ?_ hI
  have hN := hI i hi
  have hq := Event.not_decisive_of_quiet
  generalize nodes i = nd₀ at hm hN hme
  cases hm with
  | chore h =>
    have h := h.quiet
    exact hN.frame h.currentTerm h.role (h.noNew hq)
  | observe term ht => exact hN.raise ht (noNew_of_history_eq rfl)
  | commit ls id =>
    have h := quiet_foldl_resolve (List.range' (nd₀.commitIndex + 1) (id - nd₀.commitIndex)) nd₀
    exact hN.frame h.currentTerm h.role (noNew_commit (fun _ => rfl) (fun _ _ _ => rfl) _ _ _ _ _)
  | refuseEntries sender req resp hg hs ht hresp =>
    rw [hresp]
    exact hN.frame rfl rfl
      (noNew_note (by simp [Event.decisive, appendEntriesUnsuccessfull]))
  | acceptEntries sender req resp hg hs ht hprev hzz =>
    have haccept : DeposedNode i (nd₀.accept req) :=
      hN.frame rfl rfl (noNew_accept (fun _ => rfl) nd₀ req)
    refine haccept.acknowledge ht fun hne => ?_
    by_contra hr
    have hmark :
        acknowledgesInOffice.handles nd₀.core sender (.appendEntriesRequest req) = true := by
      change (decide (sender ≠ nd₀.myId) && decide (req.leaderTerm = nd₀.currentTerm) &&
        decide (nd₀.role ≠ .kFollower)) = true
      simp only [hme, ht, decide_true, Bool.and_true, Bool.and_eq_true, decide_eq_true_eq]
      exact ⟨hne, hr⟩
    rw [hz.handles hzz] at hmark
    cases hmark
  | refuseVote | grantVote | sendEntries =>
    exact hN.frame rfl rfl (noNew_note (by simp [Event.decisive]))
  | refused | matched | countVote => exact hN.frame rfl rfl (noNew_of_history_eq rfl)
  | becomeLeader cs hr => exact hN.becomeLeader hr
  | append command rest =>
    exact hN.frame rfl rfl (noNew_addNewCommand (fun _ => rfl) (fun _ _ _ => rfl) _ command)
  | stand => exact hN.raise (Nat.lt_succ_self _) (noNew_note (by simp [Event.decisive]))

/-- Every member follows the other node that sends it a request that is not stale, and leads in no
term in which it has acknowledged another node's entries. -/
structure Cluster.RecognisesLeaders (s : Cluster) : Prop where
  follows : ∀ i ∈ s.members.ids, ∀ req : AppendEntriesRequest, req.leaderId ≠ i →
    (s.node i).currentTerm ≤ req.leaderTerm →
    ((s.node i).handleAppendEntriesRequest req).2.Follows req.leaderTerm
  standsDown : ∀ i ∈ s.members.ids, StandsDown i (s.node i).history

/-- **Recognising a leader.** In every state of every run, a member follows the sender of a request
that is not stale exactly if the term is new to it or it is a follower. In a run in which no
candidate and no leader handles such a request of its own term, who has acknowledged another node's
entries does not lead in that term afterwards. -/
theorem recognises_leaders (members : Members) (ops : List Op) (s : Cluster)
    (hrun : exec step ops (init members) = some s) :
    (∀ i ∈ members.ids, ∀ req : AppendEntriesRequest, (s.node i).currentTerm ≤ req.leaderTerm →
      (((s.node i).handleAppendEntriesRequest req).2.Follows req.leaderTerm ↔
        (s.node i).currentTerm < req.leaderTerm ∨ (s.node i).role = .kFollower)) ∧
    (Avoids step (marks acknowledgesInOffice) ops (init members) = true →
      ∀ i ∈ members.ids, StandsDown i (s.node i).history) := by
  refine ⟨fun i hi req hle => (roles_run hrun i hi).follows_iff hle, fun havoid i hi => ?_⟩
  have hinit : ∀ i ∈ members.ids, DeposedNode i (initialNode members i) :=
    fun i _ => ⟨nofun, List.Pairwise.nil⟩
  exact (invariant_run (I := fun nodes => ∀ i ∈ members.ids, DeposedNode i (nodes i))
    (fun _ _ _ => deposed_move (Hazard.Le.refl _)) hinit hrun havoid i hi).standsDown

/-- Node 2 has acknowledged the entry of the leader of term 1. -/
theorem recognises_leaders_firstEntryRun :
    ∃ s, exec step firstEntryRun (init threeMembers) = some s ∧ (s.node 1).role = .kLeader ∧
      (s.node 2).history.any (Event.acknowledges 2 1) = true ∧
      ∀ i ∈ threeMembers.ids, StandsDown i (s.node i).history := by
  obtain ⟨s, hrun, hs⟩ : ∃ s, exec step firstEntryRun (init threeMembers) = some s ∧
      ((s.node 1).role = .kLeader && (s.node 2).history.any (Event.acknowledges 2 1) : Bool)
        = true := exists_of_any (by decide +kernel)
  obtain ⟨hlead, hack⟩ := Bool.and_eq_true_iff.1 hs
  exact ⟨s, hrun, of_decide_eq_true hlead, hack,
    (recognises_leaders threeMembers firstEntryRun s hrun).2 (by decide +kernel)⟩

/-- The nodes 1 and 2 stand in term 1. Node 1 is elected, and its first request has
reached node 2. -/
def heartbeatAtCandidateRun : List Op :=
  tickOps 1 0 true ++ tickOps 2 0 true ++
  .deliver 1 :: tickOps 3 1 ++ tickOps 1 1 ++ .deliver 3 :: tickOps 1 2 ++ [.deliver 3]

/-- Node 2 acknowledges the request and stays a candidate. Then the leader votes for it, and it
leads the same term. -/
def leaderAfterAcknowledgingRun : List Op :=
  heartbeatAtCandidateRun ++ tickOps 2 2 ++ .deliver 1 :: tickOps 1 2 ++ .deliver 4 :: tickOps 2 2

/-- A candidate that gets a request of the leader of its term stays a candidate, and it can become
the leader of this term after it has acknowledged the leader's entries. -/
theorem not_recognises_leaders :
    (¬ ∀ s, exec step heartbeatAtCandidateRun (init threeMembers) = some s →
      s.RecognisesLeaders) ∧
    ¬ ∀ s, exec step leaderAfterAcknowledgingRun (init threeMembers) = some s →
      StandsDown 2 (s.node 2).history := by
  constructor
  · obtain ⟨s, hrun, hs⟩ : ∃ s, exec step heartbeatAtCandidateRun (init threeMembers) = some s ∧
        (s.node 2).incoming.appendEntriesRequests.any (fun m =>
          m.2.leaderId ≠ 2 && (s.node 2).currentTerm ≤ m.2.leaderTerm &&
            ((s.node 2).handleAppendEntriesRequest m.2).2.role = .kCandidate) = true :=
      exists_of_any (by decide +kernel)
    intro h
    obtain ⟨m, -, hm⟩ := List.any_eq_true.1 hs
    simp only [Bool.and_eq_true, decide_eq_true_eq] at hm
    have hf := ((h s hrun).follows 2 (by simp [ids_threeMembers hrun]) m.2 hm.1.1 hm.1.2).role
    rw [hm.2] at hf
    cases hf
  · obtain ⟨s, hrun, hs⟩ : ∃ s, exec step leaderAfterAcknowledgingRun (init threeMembers) = some s ∧
        (((s.node 2).history.take 9).any (Event.acknowledges 2 1) &&
          .becameLeader 1 [sentinel] ∈ (s.node 2).history.drop 9 : Bool) = true :=
      exists_of_any (by decide +kernel)
    intro h
    obtain ⟨hack, hled⟩ := Bool.and_eq_true_iff.1 hs
    obtain ⟨e, he, hack⟩ := List.any_eq_true.1 hack
    have hstands := h s hrun
    rw [StandsDown, ← List.take_append_drop 9 (s.node 2).history] at hstands
    exact (List.pairwise_append.1 hstands).2.2 e he _ (of_decide_eq_true hled) 1 _ hack rfl

end ToFTDS.Consensus
