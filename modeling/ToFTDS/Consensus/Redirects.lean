import ToFTDS.Consensus.Replies

/-!
# Redirected clients

A node that is not the leader answers the commands queued at it with the `leader_id` of the next
request that it does not reject (`node.cpp:112`). `LeaderNode` says that a leader has entered
`BecomeLeader` in its term and sends requests in its own name only; with what `ReplyNode` says of
the node's requests to itself, a client is only ever sent to another member that has led the term of
the answering node (`redirects_to_leaders`).
-/

namespace ToFTDS.Consensus

open Run Node Cluster

/-- The leader that a client is sent to in the event. -/
def Event.potentialLeader : Event → Option NodeId
  | .setValue _ result => result.leaderId
  | _ => none

/-! ## Who sends clients on -/

namespace Node

/-- What has been added to the history sends clients only to nodes for which `P` holds. -/
def SendsTo (P : NodeId → Prop) (nd nd' : Node) : Prop :=
  ∃ evs, nd'.history = nd.history ++ evs ∧ ∀ e ∈ evs, ∀ id, e.potentialLeader = some id → P id

section
variable {P : NodeId → Prop} {nd nd₁ nd' : Node}

/-- Two changes send clients only to such nodes if both do. -/
theorem SendsTo.trans (h : SendsTo P nd nd₁) (h' : SendsTo P nd₁ nd') : SendsTo P nd nd' := by
  obtain ⟨evs, h1, h2⟩ := h
  obtain ⟨evs', h1', h2'⟩ := h'
  refine ⟨evs ++ evs', by rw [h1', h1, List.append_assoc], fun e he => ?_⟩
  rcases List.mem_append.1 he with he | he
  · exact h2 e he
  · exact h2' e he

/-- Nobody is sent anywhere where nothing is answered with a leader. -/
theorem sendsTo_of_noNew (h : NoNew (fun e => e.potentialLeader.isSome) nd nd') :
    SendsTo P nd nd' := by
  obtain ⟨evs, heq, hevs⟩ := h
  refine ⟨evs, heq, fun e he id hid => ?_⟩
  have hnone : e.potentialLeader.isSome = false := hevs e he
  rw [hid] at hnone
  cases hnone

/-- A history that is the same sends nobody anywhere. -/
theorem sendsTo_of_history_eq (h : nd'.history = nd.history) : SendsTo P nd nd' :=
  sendsTo_of_noNew (noNew_of_history_eq h)

/-- An event that names no leader sends nobody anywhere. -/
theorem sendsTo_emit {e : Event} (he : e.potentialLeader = none) : SendsTo P nd (nd.emit e) :=
  sendsTo_of_noNew (show NoNew _ nd (nd.note [e]) from noNew_note (by simp [he]))

/-- Observing a term sends nobody anywhere. -/
theorem sendsTo_observeTerm (nd : Node) (term : Nat) : SendsTo P nd (nd.observeTerm term) := by
  rcases nd.observeTerm_cases term with ⟨-, heq⟩ | ⟨-, heq⟩ <;> rw [heq]
  · exact sendsTo_of_history_eq rfl
  · exact ⟨[.resetTimer], rfl, by simp [Event.potentialLeader]⟩

/-- Sending a message sends no client anywhere. -/
theorem sendsTo_send (nd : Node) (whom : NodeId) (msg : Message) :
    SendsTo P nd (nd.send whom msg) := ⟨[_], rfl, by simp [Event.potentialLeader]⟩

/-- Sending several messages sends no client anywhere. -/
theorem sendsTo_sendEach (l : List (NodeId × Message)) (nd : Node) :
    SendsTo P nd (nd.sendEach l) := by
  induction l generalizing nd with
  | nil => exact sendsTo_of_history_eq rfl
  | cons x l ih => exact (sendsTo_send nd x.1 x.2).trans (ih _)

/-- A node that does not lead sends its clients to the leader of the request. -/
theorem sendsTo_redirectCommands {leaderId : NodeId} (h : nd.role ≠ .kLeader → P leaderId) :
    SendsTo P nd (nd.redirectCommands leaderId) := by
  unfold redirectCommands
  split
  · next hr =>
    refine ⟨_, rfl, fun e he id hid => ?_⟩
    obtain ⟨c, -, rfl⟩ := List.mem_map.1 he
    cases hid
    exact h hr
  · exact sendsTo_of_history_eq rfl

/-- An AppendEntriesRequest sends clients to the leader that it names, if it is of the current term
and the node does not lead. -/
theorem sendsTo_handleAppendEntriesRequest {req : AppendEntriesRequest}
    (h : req.leaderTerm = (nd.observeTerm req.leaderTerm).currentTerm →
      (nd.observeTerm req.leaderTerm).role ≠ .kLeader → P req.leaderId) :
    SendsTo P nd (nd.handleAppendEntriesRequest req).2 := by
  have hbefore : SendsTo P nd (nd.beforeEntries req) :=
    (sendsTo_observeTerm nd _).trans (sendsTo_emit rfl)
  rcases nd.handleAppendEntriesRequest_cases req with
    ⟨-, heq⟩ | ⟨ht, -, heq⟩ | ⟨ht, -, heq⟩ <;> rw [heq]
  · exact hbefore
  · exact hbefore.trans (sendsTo_redirectCommands (h ht))
  · refine (hbefore.trans (sendsTo_redirectCommands (h ht))).trans (sendsTo_of_noNew ?_)
    exact noNew_accept (fun _ => rfl) _ req

/-- A RequestVoteRequest sends nobody anywhere. -/
theorem sendsTo_handleRequestVoteRequest (nd : Node) (req : RequestVoteRequest) :
    SendsTo P nd (nd.handleRequestVoteRequest req).2 := by
  have hobs : SendsTo P nd _ := sendsTo_observeTerm nd req.candidateTerm
  rcases nd.handleRequestVoteRequest_cases req with
    ⟨-, heq⟩ | ⟨-, -, heq⟩ | ⟨-, -, heq⟩ <;> rw [heq]
  · exact hobs
  · exact hobs.trans ⟨[_], rfl, by simp [Event.potentialLeader]⟩
  · exact hobs

/-- An AppendEntriesResponse sends nobody anywhere. -/
theorem sendsTo_handleAppendEntriesResponse {resp : AppendEntriesResponse} {fromWho : NodeId}
    (h : nd.handleAppendEntriesResponse resp fromWho = .ok nd') : SendsTo P nd nd' := by
  have hobs : SendsTo P nd _ := sendsTo_observeTerm nd resp.currentTerm
  rcases handleAppendEntriesResponse_ok h with
    ⟨-, rfl⟩ | ⟨-, ls, -, ⟨-, rfl⟩ | ⟨-, m, -, rfl⟩⟩
  · exact hobs
  all_goals exact hobs.trans (sendsTo_of_history_eq rfl)

/-- Becoming the leader sends nobody anywhere. -/
theorem sendsTo_becomeLeader (h : nd.becomeLeader = .ok nd') : SendsTo P nd nd' := by
  obtain ⟨l, rfl, -⟩ := becomeLeader_ok h
  refine SendsTo.trans ?_ (sendsTo_sendEach l _)
  exact ⟨[_], rfl, by simp [Event.potentialLeader]⟩

/-- A RequestVoteResponse sends nobody anywhere. -/
theorem sendsTo_handleRequestVoteResponse {resp : RequestVoteResponse} {fromWho : NodeId}
    (h : nd.handleRequestVoteResponse resp fromWho = .ok nd') : SendsTo P nd nd' := by
  have hobs : SendsTo P nd _ := sendsTo_observeTerm nd resp.currentTerm
  rcases handleRequestVoteResponse_ok h with rfl | ⟨-, -, -, cs, -, rfl | ⟨-, hlead⟩⟩
  · exact hobs
  · exact hobs.trans (sendsTo_of_history_eq rfl)
  · exact (hobs.trans (sendsTo_of_history_eq rfl)).trans (sendsTo_becomeLeader hlead)

/-- The handling of a request ends in the term that it has observed. -/
theorem handleMessage_currentTerm {sender : NodeId} {req : AppendEntriesRequest}
    (h : nd.handleMessage sender (.appendEntriesRequest req) = .ok nd') :
    nd'.currentTerm = (nd.observeTerm req.leaderTerm).currentTerm := by
  simp only [handleMessage] at h
  split at h
  · cases h
  · cases h
    exact (nd.handleAppendEntriesRequest_roles req).2.1

/-- Clients are sent to the leader that a request of the node's term names, by a node that is not
the leader. -/
theorem sendsTo_handleMessage {sender : NodeId} {msg : Message}
    (hP : ∀ req, msg = .appendEntriesRequest req →
      req.leaderTerm = (nd.observeTerm req.leaderTerm).currentTerm →
      (nd.observeTerm req.leaderTerm).role ≠ .kLeader → P req.leaderId)
    (h : nd.handleMessage sender msg = .ok nd') : SendsTo P nd nd' := by
  rcases handleMessage_ok h with
    ⟨req, resp, rfl, -, -, rfl⟩ | ⟨req, rfl, -, rfl⟩ | ⟨resp, rfl, h⟩ | ⟨resp, rfl, h⟩
  · exact ((sendsTo_handleAppendEntriesRequest (hP req rfl)).trans (sendsTo_emit rfl)).trans
      (sendsTo_send _ _ _)
  · exact (sendsTo_handleRequestVoteRequest nd req).trans (sendsTo_send _ _ _)
  · exact sendsTo_handleAppendEntriesResponse h
  · exact sendsTo_handleRequestVoteResponse h

/-- Answering the queries sends nobody anywhere. -/
theorem sendsTo_handleGetPersistentCommandRequests
    (h : nd.handleGetPersistentCommandRequests = .ok nd') : SendsTo P nd nd' := by
  have loop : ∀ (reqs : List (QueryId × UInt64 × UInt64)) (nd : Node),
      reqs.foldlM (fun nd req => do
        let result ← nd.persistentCommands req.2.1 req.2.2
        return nd.emit (.setCommands req.1 req.2.1 req.2.2 result)) nd = .ok nd' →
      SendsTo P nd nd' := by
    intro reqs
    induction reqs with
    | nil =>
      intro nd h
      cases h
      exact sendsTo_of_history_eq rfl
    | cons req reqs ih =>
      intro nd h
      rw [List.foldlM_cons] at h
      obtain ⟨nd₁, h1, h2⟩ := bind_eq_ok.1 h
      obtain ⟨result, -, h1⟩ := bind_eq_ok.1 h1
      cases h1
      exact (sendsTo_emit rfl).trans (ih _ h2)
  have hclear : SendsTo P nd { nd with getPersistentCommandsReqs := [] } :=
    sendsTo_of_history_eq rfl
  exact hclear.trans (loop _ _ h)

/-- Beginning a tick sends nobody anywhere. -/
theorem sendsTo_beginTick (h : nd.beginTick = .ok nd') : SendsTo P nd nd' := by
  obtain ⟨nd₁, h1, h2⟩ := bind_eq_ok.1 h
  have hqueries : SendsTo P nd nd₁ := sendsTo_handleGetPersistentCommandRequests h1
  split at h2
  · rcases commitIfPossible_ok h2 with rfl | ⟨ls, id, -, -, rfl⟩
    · exact hqueries
    · exact hqueries.trans
        (sendsTo_of_noNew (noNew_commit (fun _ => rfl) (fun _ _ _ => rfl) _ _ _ _ _))
  · cases h2
    exact hqueries

/-- Appending commands sends nobody anywhere. -/
theorem sendsTo_foldl_addNewCommand (commands : List (Command × PromiseId)) (nd : Node) :
    SendsTo P nd (commands.foldl addNewCommand nd) := by
  induction commands generalizing nd with
  | nil => exact sendsTo_of_history_eq rfl
  | cons command commands ih =>
    exact (sendsTo_of_noNew
      (noNew_addNewCommand (fun _ => rfl) (fun _ _ _ => rfl) nd command)).trans (ih _)

/-- Ending a tick sends nobody anywhere. -/
theorem sendsTo_endTick {asLeader expired : Bool} (h : nd.endTick asLeader expired = .ok nd') :
    SendsTo P nd nd' := by
  unfold endTick at h
  split at h
  · unfold finishTickLeader at h
    split at h
    · next hr =>
      obtain ⟨nd₁, h1, h2⟩ := bind_eq_ok.1 h
      cases h2
      obtain ⟨l, rfl, -⟩ := sendAppendEntriesToAll_ok hr h1
      have hqueue : SendsTo P (nd.sendEach l) { nd.sendEach l with incomingCommands := [] } :=
        sendsTo_of_history_eq rfl
      exact ((sendsTo_sendEach l nd).trans hqueue).trans (sendsTo_foldl_addNewCommand _ _)
    · cases h
      exact sendsTo_of_history_eq rfl
  · cases h
    cases expired with
    | false => exact sendsTo_of_history_eq rfl
    | true =>
      change SendsTo P nd nd.becomeCandidate
      have hstand : SendsTo P nd { nd with
          currentTerm := nd.currentTerm + 1
          votedFor := some nd.myId
          history := nd.history ++ [.resetTimer] } :=
        ⟨[_], rfl, by simp [Event.potentialLeader]⟩
      rw [becomeCandidate_eq]
      exact (hstand.trans (sendsTo_sendEach _ _)).trans (sendsTo_of_history_eq rfl)

end

end Node

/-- In a step of a process clients are sent to the leader that a pending request names. -/
theorem Process.sendsTo_step {P : NodeId → Prop} {p p' : Process} {a : Action}
    (hP : ∀ sender req, (sender, .appendEntriesRequest req) ∈ p.pending →
      req.leaderTerm = p'.node.currentTerm →
      (p.node.observeTerm req.leaderTerm).role ≠ .kLeader → P req.leaderId)
    (h : p.step (.act a) = some p') : SendsTo P p.node p'.node := by
  cases a with
  | addCommand command =>
    cases h
    exact sendsTo_emit (e := .addCommand p.node.promises command) rfl
  | getPersistentCommands start maxCount =>
    cases h
    exact sendsTo_of_history_eq rfl
  | beginTick =>
    obtain ⟨nd, -, hnode, rfl⟩ := step_beginTick h
    exact (sendsTo_beginTick hnode).trans (sendsTo_of_history_eq rfl)
  | handle =>
    obtain ⟨asLeader, m, rest, nd, htick, hnode, rfl⟩ := step_handle h
    refine sendsTo_handleMessage (fun req hreq ht hr => ?_) hnode
    refine hP m.1 req (by rw [← hreq]; simp [pending, htick]) (ht.trans ?_) hr
    rw [hreq] at hnode
    exact (handleMessage_currentTerm hnode).symm
  | endTick expired =>
    obtain ⟨asLeader, nd, -, hnode, rfl⟩ := step_endTick h
    exact sendsTo_endTick hnode

/-! ## Whom a request names -/

/-- The events in which a node takes or uses the office of the leader. -/
def Event.official : Event → Bool
  | .becameLeader .. => true
  | .send _ (.appendEntriesRequest _) => true
  | _ => false

/-- Quiet events neither take nor use the office. -/
theorem Event.not_official_of_quiet (e : Event) (h : e.quiet = true) : e.official = false := by
  cases e <;> first | rfl | cases h

/-- Node `i` leads only terms in which it has entered `BecomeLeader`, and its requests say so. -/
structure LeaderNode (i : NodeId) (nd : Node) : Prop where
  became : nd.role = .kLeader → ∃ log, .becameLeader nd.currentTerm log ∈ nd.history
  request : ∀ {w req}, .send w (.appendEntriesRequest req) ∈ nd.history →
    req.leaderId = i ∧ ∃ log, .becameLeader req.leaderTerm log ∈ nd.history

namespace LeaderNode

variable {i : NodeId} {nd nd' : Node}

/-- The invariant survives a change that neither takes nor uses the office. -/
theorem frame (h : LeaderNode i nd)
    (hr : nd'.role = .kLeader → nd.role = .kLeader ∧ nd'.currentTerm = nd.currentTerm)
    (hev : NoNew Event.official nd nd') : LeaderNode i nd' where
  became hr' := by
    obtain ⟨hrole, ht⟩ := hr hr'
    obtain ⟨log, hlog⟩ := h.became hrole
    exact ⟨log, ht ▸ hev.isPrefix.subset hlog⟩
  request hs := by
    obtain ⟨hid, log, hlog⟩ := h.request (hev.mem hs rfl)
    exact ⟨hid, log, hev.isPrefix.subset hlog⟩

/-- Entering `BecomeLeader` keeps the invariant. -/
theorem becomeLeader (h : LeaderNode i nd) {ls : LeaderState} :
    LeaderNode i ({ nd with
      votedFor := none
      candidateState := none
      leaderState := some ls
      role := .kLeader }.note [.becameLeader nd.currentTerm nd.log]) where
  became _ := ⟨nd.log, List.mem_append_right _ List.mem_cons_self⟩
  request {w req} hs := by
    have hs : .send w (.appendEntriesRequest req) ∈ nd.history := by simpa [note] using hs
    obtain ⟨hid, log, hlog⟩ := h.request hs
    exact ⟨hid, log, List.mem_append_left _ hlog⟩

/-- A request that a leader sends keeps the invariant. -/
theorem sendEntries (h : LeaderNode i nd) (hme : nd.myId = i) (hr : nd.role = .kLeader)
    {whom : NodeId} {req : AppendEntriesRequest} (hb : nd.Builds req) :
    LeaderNode i (nd.note [.send whom (.appendEntriesRequest req)]) where
  became _ := by
    obtain ⟨log, hlog⟩ := h.became hr
    exact ⟨log, List.mem_append_left _ hlog⟩
  request {w req'} hs := by
    simp only [note, List.mem_append, List.mem_singleton, Event.send.injEq,
      Message.appendEntriesRequest.injEq] at hs
    rcases hs with hs | ⟨-, rfl⟩
    · obtain ⟨hid, log, hlog⟩ := h.request hs
      exact ⟨hid, log, List.mem_append_left _ hlog⟩
    · obtain ⟨log, hlog⟩ := h.became hr
      exact ⟨hb.leaderId.trans hme, log, List.mem_append_left _ (hb.leaderTerm ▸ hlog)⟩

end LeaderNode

/-- Every move keeps it. -/
theorem leaderNode_move {z : Hazard} {ids : List NodeId} {nodes : NodeId → Node} {i : NodeId}
    {nd : Node} (hI : ∀ i ∈ ids, LeaderNode i (nodes i)) (h : MemberMove z ids nodes i nd) :
    ∀ j ∈ ids, LeaderNode j (Function.update nodes i nd j) := by
  obtain ⟨hi, hme, -, hm⟩ := h
  refine forall_update ?_ hI
  have hN := hI i hi
  have hq := Event.not_official_of_quiet
  generalize nodes i = nd₀ at hm hN hme
  cases hm with
  | chore h =>
    have h := h.quiet
    exact hN.frame (fun hr => ⟨h.role ▸ hr, h.currentTerm⟩) (h.noNew hq)
  | observe term ht => exact hN.frame nofun (noNew_of_history_eq rfl)
  | commit ls id hr =>
    have h := quiet_foldl_resolve (List.range' (nd₀.commitIndex + 1) (id - nd₀.commitIndex)) nd₀
    exact hN.frame (fun _ => ⟨hr, h.currentTerm⟩)
      (noNew_commit (fun _ => rfl) (fun _ _ _ => rfl) _ _ _ _ _)
  | acceptEntries sender req =>
    exact hN.frame (fun hr => ⟨hr, rfl⟩)
      ((noNew_accept (fun _ => rfl) nd₀ req).trans (noNew_note (by simp [Event.official])))
  | refuseEntries | refuseVote | grantVote =>
    exact hN.frame (fun hr => ⟨hr, rfl⟩) (noNew_note (by simp [Event.official]))
  | refused | matched | countVote =>
    exact hN.frame (fun hr => ⟨hr, rfl⟩) (noNew_of_history_eq rfl)
  | becomeLeader => exact hN.becomeLeader
  | sendEntries whom req hr hw hb => exact hN.sendEntries hme hr hb
  | append command rest hr =>
    exact hN.frame (fun _ => ⟨hr, rfl⟩)
      (noNew_addNewCommand (fun _ => rfl) (fun _ _ _ => rfl) _ command)
  | stand => exact hN.frame nofun (noNew_note (by simp [Event.official]))

/-- Whenever a member answers an `AddCommand` with a leader in the step from `s` to `s'`, it is
another member, which had entered `BecomeLeader` in the term that the answering member has. -/
def Cluster.RedirectsToLeaders (s s' : Cluster) : Prop :=
  ∀ i ∈ s.members.ids, ∀ evs p result, (s'.node i).history = (s.node i).history ++ evs →
    .setValue p result ∈ evs → result.commandPersisted = false →
    ∃ leader ∈ s.members.ids, result.leaderId = some leader ∧ leader ≠ i ∧
      ∃ log, .becameLeader (s'.node i).currentTerm log ∈ (s.node leader).history

/-- A node that handles its own request of its term, or a later one, still leads that term. -/
theorem Replies.observe_own_request {ids : List NodeId} {nodes : NodeId → Node}
    (h : Replies ids nodes)
    {i j : NodeId} (hi : i ∈ ids) {req : AppendEntriesRequest}
    (hsent : Sent ids nodes j i (.appendEntriesRequest req))
    (ht : (nodes i).currentTerm ≤ req.leaderTerm) :
    ((nodes i).observeTerm req.leaderTerm).role = .kLeader := by
  have hle := (h i hi).requestTerm hsent.2
  have hrole := (h i hi).requestRole hsent.2 (Nat.le_antisymm hle ht)
  rw [observeTerm_eq_self hle]
  exact hrole

/-- **Redirects name a real leader**, in every step of every run. -/
theorem redirects_to_leaders (members : Members) (ops : List Op) (op : Op) (s s' : Cluster)
    (hrun : exec step ops (init members) = some s) (hstep : s.step op = some s') :
    s.RedirectsToLeaders s' := by
  have hc := conserved_run hrun
  have havoid : Avoids step (fun s op => s.marks {} op) ops (init members) = true :=
    avoids_of_forall (fun s op => marks_empty s op) ops (init members)
  have hreplies : Replies members.ids s.node :=
    invariant_run (z := {}) (fun _ _ _ => replies_move) (replies_init members) hrun havoid
  have hleaders : ∀ i ∈ members.ids, LeaderNode i (s.node i) :=
    invariant_run (z := {}) (I := fun nodes => ∀ i ∈ members.ids, LeaderNode i (nodes i))
      (fun _ _ _ => leaderNode_move) (fun i _ => ⟨nofun, nofun⟩) hrun havoid
  rw [← members_run hrun] at hreplies hleaders
  intro i hi evs p result hx hp hres
  obtain ⟨leader, hleader⟩ : ∃ leader, result.leaderId = some leader :=
    Option.isSome_iff_exists.1 (Option.isNone_eq_false_iff.1 hres)
  suffices hsends : SendsTo (fun leader => leader ∈ s.members.ids ∧ leader ≠ i ∧
      ∃ log, .becameLeader (s'.node i).currentTerm log ∈ (s.node leader).history)
      (s.node i) (s'.node i) by
    obtain ⟨evs', hx', hall⟩ := hsends
    rw [hx'] at hx
    obtain rfl := List.append_cancel_left hx
    obtain ⟨h1, h2, h3⟩ := hall _ hp leader hleader
    exact ⟨leader, h1, hleader, h2, h3⟩
  rcases step_cases hstep with ⟨j, a, q, rfl, -, hq, rfl⟩ | ⟨k, pkt, rfl, -, rfl⟩ | ⟨k, rfl, rfl⟩
  · rw [update_node]
    rcases eq_or_ne i j with rfl | hne
    · rw [Function.update_self]
      refine Process.sendsTo_step (fun sender req hmem ht hr => ?_) hq
      have hsent := hc.pending i _ hmem
      obtain ⟨rfl, hlog⟩ := (hleaders sender hsent.1).request hsent.2
      refine ⟨hsent.1, ?_, ht ▸ hlog⟩
      rintro rfl
      exact hr (hreplies.observe_own_request hi hsent (ht ▸ (Process.step_later hq).currentTerm))
    · rw [Function.update_of_ne hne]
      exact sendsTo_of_history_eq rfl
  · refine sendsTo_of_history_eq ?_
    rcases eq_or_ne i pkt.dst with rfl | hne
    · simp [node, addMessage]
    · simp [node, Function.update_of_ne hne]
  · exact sendsTo_of_history_eq rfl

/-- Node 3, which follows the leader of term 1, has a command queued when it handles its
heartbeat. -/
theorem redirects_to_leaders_firstLeaderRun :
    ∃ s s', exec step (firstLeaderRun ++
        [.act 3 (.addCommand "x"), .deliver 2, .act 3 .beginTick]) (init threeMembers) = some s ∧
      s.step (.act 3 .handle) = some s' ∧ .setValue 0 ⟨some 1⟩ ∈ (s'.node 3).history ∧
      s.RedirectsToLeaders s' := by
  obtain ⟨s, hrun, hs⟩ : ∃ s, exec step (firstLeaderRun ++
        [.act 3 (.addCommand "x"), .deliver 2, .act 3 .beginTick]) (init threeMembers) = some s ∧
      (s.step (.act 3 .handle)).any (fun s' => .setValue 0 ⟨some 1⟩ ∈ (s'.node 3).history) = true :=
    exists_of_any (by decide +kernel)
  obtain ⟨s', hstep, hs'⟩ := (Option.any_eq_true _ _).1 hs
  exact ⟨s, s', hrun, hstep, of_decide_eq_true hs',
    redirects_to_leaders threeMembers _ _ s s' hrun hstep⟩

end ToFTDS.Consensus
