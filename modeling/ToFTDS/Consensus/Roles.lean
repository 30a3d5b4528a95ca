import ToFTDS.Consensus.Replies

/-!
# Roles and volatile state

`leader_state_` and `candidate_state_` are optionals that half a dozen places dereference behind a
check of `role_`, some of them after a batch of messages has been handled in between. The three
functions that set the role set them too (`node.cpp:486`), and `RoleNode` is what they keep up: each
has a value in its own role only, and a leader's two maps have the members as keys. Together with
the `matched_until` that every successful reply carries, this means that no step of a process in a
cluster dereferences an empty optional (`roles_agree`).
-/

namespace ToFTDS.Consensus

open Run Node Cluster

/-- A successful reply without `matched_until` is sent. -/
def Event.dangling : Event → Bool
  | .send _ (.appendEntriesResponse resp) => resp.success && resp.matchedUntil.isNone
  | _ => false

/-- Quiet events are no replies. -/
theorem Event.not_dangling_of_quiet (e : Event) (h : e.quiet = true) : e.dangling = false := by
  cases e <;> first | rfl | cases h

/-- The volatile state of a node among the members `ids` is that of its role, and it has sent no
reply that its receiver cannot use. -/
structure RoleNode (ids : Finset NodeId) (nd : Node) : Prop where
  leader : nd.leaderState.isSome ↔ nd.role = .kLeader
  candidate : nd.candidateState.isSome ↔ nd.role = .kCandidate
  keys : ∀ {ls}, nd.leaderState = some ls → ls.nextIndex.keys = ids ∧ ls.matchIndex.keys = ids
  replies : ∀ e ∈ nd.history, e.dangling = false

namespace RoleNode

variable {ids : Finset NodeId} {nd nd' : Node}

/-- Where no such reply is added, there is none. -/
theorem replies_of_noNew (h : RoleNode ids nd) (hev : NoNew Event.dangling nd nd') :
    ∀ e ∈ nd'.history, e.dangling = false := by
  obtain ⟨evs, heq, hevs⟩ := hev
  rw [heq]
  intro e he
  rcases List.mem_append.1 he with he | he
  · exact h.replies e he
  · exact hevs e he

/-- The invariant survives a change that keeps role and volatile state. -/
theorem frame (h : RoleNode ids nd) (hr : nd'.role = nd.role)
    (hls : nd'.leaderState = nd.leaderState) (hcs : nd'.candidateState = nd.candidateState)
    (hev : NoNew Event.dangling nd nd') : RoleNode ids nd' where
  leader := by rw [hls, hr]; exact h.leader
  candidate := by rw [hcs, hr]; exact h.candidate
  keys hls' := h.keys (hls ▸ hls')
  replies := h.replies_of_noNew hev

/-- A node without either state is a follower. -/
theorem follower (h : RoleNode ids nd) (hr : nd'.role = .kFollower) (hls : nd'.leaderState = none)
    (hcs : nd'.candidateState = none) (hev : NoNew Event.dangling nd nd') : RoleNode ids nd' where
  leader := by simp [hls, hr]
  candidate := by simp [hcs, hr]
  keys hls' := by rw [hls] at hls'; cases hls'
  replies := h.replies_of_noNew hev

/-- A node with a candidate state only is a candidate. -/
theorem candidacy (h : RoleNode ids nd) (hr : nd'.role = .kCandidate)
    (hls : nd'.leaderState = none) (hcs : nd'.candidateState.isSome)
    (hev : NoNew Event.dangling nd nd') : RoleNode ids nd' where
  leader := by simp [hls, hr]
  candidate := by simp [hcs, hr]
  keys hls' := by rw [hls] at hls'; cases hls'
  replies := h.replies_of_noNew hev

/-- A node with a leader state only is a leader. -/
theorem leadership (h : RoleNode ids nd) (hr : nd'.role = .kLeader)
    (hcs : nd'.candidateState = none) {ls : LeaderState} (hls : nd'.leaderState = some ls)
    (hnext : ls.nextIndex.keys = ids) (hmatch : ls.matchIndex.keys = ids)
    (hev : NoNew Event.dangling nd nd') : RoleNode ids nd' where
  leader := by simp [hls, hr]
  candidate := by simp [hcs, hr]
  keys hls' := by
    rw [hls] at hls'
    cases hls'
    exact ⟨hnext, hmatch⟩
  replies := h.replies_of_noNew hev

/-- A leader is no candidate. -/
theorem candidateState_eq_none (h : RoleNode ids nd) (hr : nd.role ≠ .kCandidate) :
    nd.candidateState = none :=
  Option.not_isSome_iff_eq_none.1 fun hs => hr (h.candidate.1 hs)

/-- Whoever does not lead has no leader state. -/
theorem leaderState_eq_none (h : RoleNode ids nd) (hr : nd.role ≠ .kLeader) :
    nd.leaderState = none :=
  Option.not_isSome_iff_eq_none.1 fun hs => hr (h.leader.1 hs)

/-- Observing a term keeps it. -/
theorem observeTerm (h : RoleNode ids nd) (term : Nat) : RoleNode ids (nd.observeTerm term) := by
  rcases nd.observeTerm_cases term with ⟨-, heq⟩ | ⟨-, heq⟩ <;> rw [heq]
  · exact h
  · have hev : NoNew Event.dangling nd (nd.note [.resetTimer]) :=
      noNew_note (by simp [Event.dangling])
    exact h.follower rfl rfl rfl hev

end RoleNode

/-- The volatile state of every member is that of its role. -/
def Roles (ids : List NodeId) (nodes : NodeId → Node) : Prop :=
  ∀ i ∈ ids, RoleNode ids.toFinset (nodes i)

/-- Every move keeps it. -/
theorem roles_move {z : Hazard} {ids : List NodeId} {nodes : NodeId → Node} {i : NodeId}
    {nd : Node} (hI : Roles ids nodes) (h : MemberMove z ids nodes i nd) :
    Roles ids (Function.update nodes i nd) := by
  obtain ⟨hi, -, hch, hm⟩ := h
  refine forall_update ?_ hI
  have hN := hI i hi
  have hq := Event.not_dangling_of_quiet
  have hsender : ∀ {j msg}, Sent ids nodes i j msg → insert j ids.toFinset = ids.toFinset :=
    fun hs => Finset.insert_eq_of_mem (List.mem_toFinset.2 hs.1)
  generalize nodes i = nd₀ at hm hN hch
  cases hm with
  | chore h =>
    have h := h.quiet
    exact hN.frame h.role h.leaderState h.candidateState (h.noNew hq)
  | observe term ht => exact hN.follower rfl rfl rfl (noNew_of_history_eq rfl)
  | commit ls id =>
    have h := quiet_foldl_resolve (List.range' (nd₀.commitIndex + 1) (id - nd₀.commitIndex)) nd₀
    exact hN.frame h.role h.leaderState h.candidateState
      (noNew_commit (fun _ => rfl) (fun _ _ _ => rfl) _ _ _ _ _)
  | refuseEntries sender req resp hg hs ht hresp =>
    rw [hresp]
    exact hN.frame rfl rfl rfl
      (noNew_note (by simp [Event.dangling, appendEntriesUnsuccessfull]))
  | acceptEntries sender req resp hg hs ht hprev hz hresp =>
    rw [hresp]
    exact hN.frame rfl rfl rfl ((noNew_accept (fun _ => rfl) nd₀ req).trans
      (noNew_note (by simp [Event.dangling, appendEntriesSuccessfull])))
  | refuseVote | grantVote | sendEntries =>
    exact hN.frame rfl rfl rfl (noNew_note (by simp [Event.dangling]))
  | refused sender resp ls hg ht hr hls =>
    obtain ⟨h1, h2⟩ := hN.keys hls
    refine hN.leadership hr (hN.candidateState_eq_none (by simp [hr])) rfl ?_ h2
      (noNew_of_history_eq rfl)
    rw [IndexMap.keys_set, h1, hsender hg]
  | matched sender resp ls m hg ht hr hls =>
    obtain ⟨h1, h2⟩ := hN.keys hls
    refine hN.leadership hr (hN.candidateState_eq_none (by simp [hr])) rfl ?_ ?_
      (noNew_of_history_eq rfl)
    · rw [IndexMap.keys_set, h1, hsender hg]
    · rw [IndexMap.keys_set, h2, hsender hg]
  | countVote sender resp cs hg hr =>
    exact hN.candidacy hr (hN.leaderState_eq_none (by simp [hr])) rfl (noNew_of_history_eq rfl)
  | becomeLeader cs hr =>
    obtain ⟨h1, h2⟩ := initialLeaderState_keys nd₀
    rw [hch] at h1 h2
    exact hN.leadership rfl rfl rfl h1 h2 (noNew_note (by simp [Event.dangling]))
  | append command rest =>
    exact hN.frame rfl rfl rfl (noNew_addNewCommand (fun _ => rfl) (fun _ _ _ => rfl) _ command)
  | stand => exact hN.candidacy rfl rfl rfl (noNew_note (by simp [Event.dangling]))

/-- At the start every node is a follower without volatile state. -/
theorem roles_init (members : Members) : Roles members.ids (initialNode members) := by
  intro i hi
  exact ⟨by simp [initialNode, Node.new], by simp [initialNode, Node.new], nofun, nofun⟩

/-- The roles agree after every run. -/
theorem roles_run {members : Members} {ops : List Op} {s : Cluster}
    (hrun : exec step ops (init members) = some s) : Roles members.ids s.node :=
  invariant_run (z := {}) (fun _ _ _ => roles_move) (roles_init members) hrun
    (avoids_of_forall (fun s op => marks_empty s op) _ _)

/-! ## No empty optional is dereferenced -/

namespace Node

variable {ids : Finset NodeId} {nd nd' : Node}

/-- A leader with its state reads no empty optional from a reply that carries its index. -/
theorem handleAppendEntriesResponse_ne_emptyOptional {resp : AppendEntriesResponse}
    {sender : NodeId} (h : (nd.observeTerm resp.currentTerm).leaderState.isSome ↔
      (nd.observeTerm resp.currentTerm).role = .kLeader)
    (hresp : resp.success = true → resp.matchedUntil.isSome) :
    nd.handleAppendEntriesResponse resp sender ≠ .error .emptyOptional := by
  intro heq
  obtain ⟨-, hrole, hls | ⟨hs, hm⟩⟩ := handleAppendEntriesResponse_error heq
  · exact Option.isSome_iff_ne_none.1 (h.2 hrole) hls
  · exact Option.isSome_iff_ne_none.1 (hresp hs) hm

/-- A candidate with its state reads no empty optional from a vote. -/
theorem handleRequestVoteResponse_ne_emptyOptional {resp : RequestVoteResponse}
    {sender : NodeId} (h : (nd.observeTerm resp.currentTerm).candidateState.isSome ↔
      (nd.observeTerm resp.currentTerm).role = .kCandidate) :
    nd.handleRequestVoteResponse resp sender ≠ .error .emptyOptional := by
  intro heq
  rcases handleRequestVoteResponse_error heq with ⟨-, hrole, hcs⟩ | he
  · exact Option.isSome_iff_ne_none.1 (h.2 hrole) hcs
  · cases he

/-- No message is handled with an empty optional, if successful replies carry an index. -/
theorem handleMessage_ne_emptyOptional (h : RoleNode ids nd) {sender : NodeId} {msg : Message}
    (hmsg : ∀ resp, msg = .appendEntriesResponse resp → resp.success = true →
      resp.matchedUntil.isSome) :
    nd.handleMessage sender msg ≠ .error .emptyOptional := by
  have hobs := fun term => h.observeTerm term
  intro heq
  cases msg with
  | appendEntriesRequest req =>
    simp only [handleMessage] at heq
    split at heq <;> cases heq
  | requestVoteRequest req =>
    simp only [handleMessage] at heq
    split at heq <;> cases heq
  | appendEntriesResponse resp =>
    exact handleAppendEntriesResponse_ne_emptyOptional (hobs _).leader (hmsg resp rfl) heq
  | requestVoteResponse resp =>
    exact handleRequestVoteResponse_ne_emptyOptional (hobs _).candidate heq

/-- No tick begins with an empty optional. -/
theorem beginTick_ne_emptyOptional (h : RoleNode ids nd) :
    nd.beginTick ≠ .error .emptyOptional := by
  intro heq
  rcases bind_eq_error.1 heq with heq | ⟨nd₁, h1, heq⟩
  · exact nomatch handleGetPersistentCommandRequests_error heq
  · obtain ⟨-, hcore, -⟩ := moves_handleGetPersistentCommandRequests
      (z := {}) (g := fun _ _ => True) h1
    have hrole : nd₁.core.role = nd.core.role := by rw [hcore]
    have hls : nd₁.core.leaderState = nd.core.leaderState := by rw [hcore]
    split at heq
    · next hr =>
      have hsome : nd.core.leaderState.isSome := h.leader.2 (hrole ▸ hr)
      exact Option.isSome_iff_ne_none.1 (hls ▸ hsome) (commitIfPossible_error heq).2
    · cases heq

/-- No tick ends with an empty optional. -/
theorem endTick_ne_emptyOptional (h : RoleNode ids nd) (asLeader expired : Bool) :
    nd.endTick asLeader expired ≠ .error .emptyOptional := by
  intro heq
  unfold endTick at heq
  split at heq
  · unfold finishTickLeader at heq
    split at heq
    · next hr =>
      rcases bind_eq_error.1 heq with heq | ⟨nd₁, -, heq⟩
      · rcases sendAppendEntriesToAll_error heq with ⟨-, hls⟩ | he
        · exact Option.isSome_iff_ne_none.1 (h.leader.2 hr) hls
        · cases he
      · cases heq
    · cases heq
  · cases heq

end Node

/-- What an action of a process makes of its node, if the thread is at the point of the action. -/
def Process.runs (p : Process) : Action → Option (Except Fault Node)
  | .addCommand command => some (.ok (p.node.addCommand command))
  | .getPersistentCommands start maxCount =>
    some (.ok (p.node.getPersistentCommands start maxCount))
  | .beginTick => if p.ticking.isNone then some p.node.beginTick else none
  | .handle =>
    match p.ticking with
    | some { todo := m :: _, .. } => some (p.node.handleMessage m.1 m.2)
    | _ => none
  | .endTick expired =>
    match p.ticking with
    | some { asLeader, todo := [] } => some (p.node.endTick asLeader expired)
    | _ => none

/-- A process has a step for an action if the action has a result. -/
theorem Process.isSome_step_iff (p : Process) (a : Action) :
    (p.step (.act a)).isSome ↔ ∃ nd, p.runs a = some (.ok nd) := by
  obtain ⟨nd, ticking⟩ := p
  cases a with
  | addCommand command => simp [step, runs]
  | getPersistentCommands start maxCount => simp [step, runs]
  | beginTick =>
    simp only [step, runs]
    cases ticking <;> cases nd.beginTick <;> simp
  | handle =>
    rcases ticking with _ | ⟨asLeader, _ | ⟨m, rest⟩⟩ <;> simp only [step, runs]
    · simp
    · simp
    · cases nd.handleMessage m.1 m.2 <;> simp
  | endTick expired =>
    rcases ticking with _ | ⟨asLeader, _ | ⟨m, rest⟩⟩ <;> simp only [step, runs]
    · simp
    · cases nd.endTick asLeader expired <;> simp
    · simp

/-- Role and volatile state agree, the successful replies in flight and in the inboxes have their
`matched_until`, and no process is about to dereference an empty optional. -/
structure Cluster.RolesAgree (s : Cluster) : Prop where
  leader : ∀ i ∈ s.members.ids,
    ((s.node i).leaderState.isSome ↔ (s.node i).role = .kLeader) ∧
    ∀ ls, (s.node i).leaderState = some ls →
      ls.nextIndex.keys = s.members.ids.toFinset ∧ ls.matchIndex.keys = s.members.ids.toFinset
  candidate : ∀ i ∈ s.members.ids,
    (s.node i).candidateState.isSome ↔ (s.node i).role = .kCandidate
  inFlight : ∀ pkt ∈ s.network, ∀ resp, pkt.msg = .appendEntriesResponse resp →
    resp.success = true → resp.matchedUntil.isSome
  pending : ∀ i, ∀ m ∈ (s.procs i).pending, ∀ resp, m.2 = .appendEntriesResponse resp →
    resp.success = true → resp.matchedUntil.isSome
  defined : ∀ i ∈ s.members.ids, ∀ a, (s.procs i).runs a ≠ some (.error .emptyOptional)

/-- A successful reply that a member has sent can be used. -/
theorem Roles.matchedUntil {ids : List NodeId} {nodes : NodeId → Node} (h : Roles ids nodes)
    {i j : NodeId} {resp : AppendEntriesResponse}
    (hs : Sent ids nodes i j (.appendEntriesResponse resp)) (hsucc : resp.success = true) :
    resp.matchedUntil.isSome := by
  have := (h j hs.1).replies _ hs.2
  rw [Event.dangling, hsucc, Bool.true_and] at this
  exact Option.isNone_eq_false_iff.1 this

/-- An action dereferences no empty optional where role and state agree and the replies
can be used. -/
theorem Process.runs_ne_emptyOptional {ids : Finset NodeId} {p : Process} (h : RoleNode ids p.node)
    (hpending : ∀ m ∈ p.pending, ∀ resp, m.2 = .appendEntriesResponse resp → resp.success = true →
      resp.matchedUntil.isSome)
    (a : Action) : p.runs a ≠ some (.error .emptyOptional) := by
  intro heq
  cases a with
  | addCommand command => cases heq
  | getPersistentCommands start maxCount => cases heq
  | beginTick =>
    simp only [runs] at heq
    split at heq
    · exact beginTick_ne_emptyOptional h (Option.some.inj heq)
    · cases heq
  | handle =>
    simp only [runs] at heq
    split at heq
    · next m rest htick =>
      refine handleMessage_ne_emptyOptional h (hpending m ?_) (Option.some.inj heq)
      simp [pending, htick]
    · cases heq
  | endTick expired =>
    simp only [runs] at heq
    split at heq
    · exact endTick_ne_emptyOptional h _ _ (Option.some.inj heq)
    · cases heq

/-- **Role and volatile state agree** in every state of every run. -/
theorem roles_agree (members : Members) (ops : List Op) (s : Cluster)
    (hrun : exec step ops (init members) = some s) : s.RolesAgree := by
  have hroles := roles_run hrun
  have hc := conserved_run hrun
  rw [← members_run hrun] at hroles
  have hpending : ∀ i, ∀ m ∈ (s.procs i).pending, ∀ resp, m.2 = .appendEntriesResponse resp →
      resp.success = true → resp.matchedUntil.isSome := by
    intro i m hm resp hresp
    have hs := hc.pending i m hm
    rw [hresp] at hs
    exact hroles.matchedUntil hs
  refine ⟨fun i hi => ⟨(hroles i hi).leader, fun ls hls => (hroles i hi).keys hls⟩,
    fun i hi => (hroles i hi).candidate, fun pkt hpkt resp hresp => ?_, hpending,
    fun i hi a => Process.runs_ne_emptyOptional (hroles i hi) (hpending i) a⟩
  have hs := hc.network pkt hpkt
  rw [hresp] at hs
  exact hroles.matchedUntil hs

/-- A leader has its state in the run that elects node 1. -/
theorem roles_agree_firstLeaderRun :
    ∃ s, exec step firstLeaderRun (init threeMembers) = some s ∧
      (s.node 1).leaderState.isSome = true ∧ s.RolesAgree := by
  obtain ⟨s, hrun, hs⟩ : ∃ s, exec step firstLeaderRun (init threeMembers) = some s ∧
      (s.node 1).leaderState.isSome = true := exists_of_any (by decide +kernel)
  exact ⟨s, hrun, hs, roles_agree threeMembers firstLeaderRun s hrun⟩

end ToFTDS.Consensus
