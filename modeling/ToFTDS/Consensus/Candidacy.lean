import Mathlib.Data.Prod.Lex
import ToFTDS.Consensus.Election

/-!
# Who elects a leader

A vote reply names the term it was granted in but says nothing about the voter's log, and it may
reach its candidate in any later term. `CandidacyNode` says that each member asks for the votes of a
term with one request, and that a candidate counts only grants of its present candidacy. So each
leader was elected by a majority whose members, in its term, found its log no less up to date than
their own (`leaders_elected_up_to_date`). No run is left out here: that a leader may vote again
(`votesAsLeader`) does no harm to this.
-/

namespace ToFTDS.Consensus

open Run Node Cluster

/-- The pair by which `HandleRequestVoteRequest` compares logs (`node.cpp:205`): the term of the
last item, then its index. -/
def Node.lastItem (nd : Node) : Nat ×ₗ Nat := toLex (nd.getLastLogTerm, nd.getLastLogIndex)

/-- The pair that a candidate puts into its request. -/
def RequestVoteRequest.lastItem (req : RequestVoteRequest) : Nat ×ₗ Nat :=
  toLex (req.candidateLastLogTerm, req.candidateLastLogIndex)

/-- A vote goes only to a log that is at least as up to date as the voter's. -/
theorem Node.lastItem_le_of_canVoteFor {nd : Node} {req : RequestVoteRequest}
    (h : nd.canVoteFor req = true) : nd.lastItem ≤ req.lastItem := by
  simp only [canVoteFor, Bool.decide_and, Bool.decide_or, Bool.and_eq_true, Bool.or_eq_true,
    decide_eq_true_eq] at h
  exact Prod.Lex.toLex_le_toLex.2 h.2

/-- What member `i` keeps to when it votes and when it stands, with `S c req` the requests sent so
far and `G v t c` the votes given so far. -/
structure CandidacyNode (ids : List NodeId) (S : NodeId → RequestVoteRequest → Prop)
    (G : NodeId → Nat → NodeId → Prop) (i : NodeId) (nd : Node) : Prop where
  /-- It asks in its own name, and for no later term. -/
  request : ∀ {w req}, .send w (.requestVoteRequest req) ∈ nd.history →
    req.candidateId = i ∧ req.candidateTerm ≤ nd.currentTerm
  /-- It asks with one request a term. -/
  once : ∀ {w req w' req'}, .send w (.requestVoteRequest req) ∈ nd.history →
    .send w' (.requestVoteRequest req') ∈ nd.history → req.candidateTerm = req'.candidateTerm →
    req = req'
  /-- It grants what it was asked for. -/
  granted : ∀ {req log}, .voteGranted req log ∈ nd.history → S req.candidateId req
  reply : ∀ {w resp}, .send w (.requestVoteResponse resp) ∈ nd.history →
    resp.voteGranted = true → G i resp.candidateTerm w
  votes : ∀ {cs}, nd.role = .kCandidate → nd.candidateState = some cs →
    ∀ v ∈ cs.votes, v ∈ ids ∧ G v nd.currentTerm i
  leader : ∀ {t l}, .becameLeader t l ∈ nd.history →
    ∃ q, Majority ids.toFinset q ∧ ∀ v ∈ q, G v t i

namespace CandidacyNode

variable {ids : List NodeId} {S S' : NodeId → RequestVoteRequest → Prop}
  {G G' : NodeId → Nat → NodeId → Prop} {i : NodeId} {nd nd' : Node}

/-- The invariant survives more requests sent and more votes granted. -/
theorem mono (hS : ∀ c req, S c req → S' c req) (hG : ∀ v t c, G v t c → G' v t c)
    (h : CandidacyNode ids S G i nd) : CandidacyNode ids S' G' i nd :=
  { h with
    granted := fun hg => hS _ _ (h.granted hg)
    reply := fun hs hg => hG _ _ _ (h.reply hs hg)
    votes := fun hr hcs v hv => ⟨(h.votes hr hcs v hv).1, hG _ _ _ (h.votes hr hcs v hv).2⟩
    leader := fun hl => by
      obtain ⟨q, hq, hall⟩ := h.leader hl
      exact ⟨q, hq, fun v hv => hG _ _ _ (hall v hv)⟩ }

/-- What has nothing to do with elections keeps it. -/
theorem frame (h : CandidacyNode ids S G i nd) (ht : nd'.currentTerm = nd.currentTerm)
    (hr : nd'.role = nd.role) (hc : nd'.candidateState = nd.candidateState)
    (hev : NoNew Event.electoral nd nd') : CandidacyNode ids S G i nd' where
  request hs := ht ▸ h.request (hev.mem hs rfl)
  once hs hs' := h.once (hev.mem hs rfl) (hev.mem hs' rfl)
  granted hg := h.granted (hev.mem hg rfl)
  reply hs hg := h.reply (hev.mem hs hg) hg
  votes hr' hcs := by
    rw [ht]
    exact h.votes (hr ▸ hr') (hc ▸ hcs)
  leader hl := h.leader (hev.mem hl rfl)

/-- A new term has no votes yet. -/
theorem observe (h : CandidacyNode ids S G i nd) {term : Nat} (ht : nd.currentTerm < term) :
    CandidacyNode ids S G i { nd with
      currentTerm := term
      role := .kFollower
      votedFor := none
      candidateState := none
      leaderState := none } where
  request hs := ⟨(h.request hs).1, Nat.le_of_lt (Nat.lt_of_le_of_lt (h.request hs).2 ht)⟩
  once := h.once
  granted := h.granted
  reply := h.reply
  votes hr := by cases hr
  leader := h.leader

/-- A vote goes to the candidate that has asked for it. -/
theorem grantVote (h : CandidacyNode ids S G i nd) {req : RequestVoteRequest}
    (hS : S req.candidateId req) (hG : G i req.candidateTerm req.candidateId) :
    CandidacyNode ids S G i ({ nd with votedFor := some req.candidateId }.note
      [.voteGranted req nd.log, .send req.candidateId
        (.requestVoteResponse (nd.requestVoteSuccessfull req.candidateTerm))]) := by
  refine ⟨fun {w req'} hs => ?_, fun {w req₁ w' req₂} h1 h2 => ?_, fun {req' log} hg => ?_,
    fun {w resp} hs hgr => ?_, h.votes, fun {t l} hl => ?_⟩
  · refine h.request (w := w) ?_
    simpa [note] using hs
  · have h1 : .send w (.requestVoteRequest req₁) ∈ nd.history := by simpa [note] using h1
    have h2 : .send w' (.requestVoteRequest req₂) ∈ nd.history := by simpa [note] using h2
    exact h.once h1 h2
  · simp only [note, List.mem_append, List.mem_cons, Event.voteGranted.injEq, reduceCtorEq,
      List.not_mem_nil, or_false] at hg
    rcases hg with hg | ⟨rfl, -⟩
    · exact h.granted hg
    · exact hS
  · simp only [note, List.mem_append, List.mem_cons, reduceCtorEq, Event.send.injEq,
      Message.requestVoteResponse.injEq, List.not_mem_nil, or_false, false_or] at hs
    rcases hs with hs | ⟨rfl, rfl⟩
    · exact h.reply hs hgr
    · exact hG
  · refine h.leader (l := l) ?_
    simpa [note] using hl

/-- Counting a vote that was granted keeps the invariant. -/
theorem countVote (h : CandidacyNode ids S G i nd) {cs : CandidateState} {sender : NodeId}
    (hr : nd.role = .kCandidate) (hcs : nd.candidateState = some cs) (hs : sender ∈ ids)
    (hg : G sender nd.currentTerm i) :
    CandidacyNode ids S G i
      { nd with candidateState := some { votes := insert sender cs.votes } } :=
  { h with
    votes := by
      rintro cs' - hcs' v hv
      cases hcs'
      rcases Finset.mem_insert.1 hv with rfl | hv
      · exact ⟨hs, hg⟩
      · exact h.votes hr hcs v hv }

/-- Whoever becomes the leader has a majority of the votes. -/
theorem becomeLeader (h : CandidacyNode ids S G i nd) {cs : CandidateState} (hids : ids.Nodup)
    (hr : nd.role = .kCandidate) (hcs : nd.candidateState = some cs)
    (hmaj : ids.length + 1 ≤ cs.votes.card * 2) {ls : LeaderState} :
    CandidacyNode ids S G i ({ nd with
      votedFor := none
      candidateState := none
      leaderState := some ls
      role := .kLeader }.note [.becameLeader nd.currentTerm nd.log]) := by
  refine ⟨fun {w req} hs => ?_, fun {w req w' req'} h1 h2 => ?_, fun {req log} hg => ?_,
    fun {w resp} hs => ?_, nofun, fun {t l} hl => ?_⟩
  · refine h.request (w := w) ?_
    simpa [note] using hs
  · have h1 : .send w (.requestVoteRequest req) ∈ nd.history := by simpa [note] using h1
    have h2 : .send w' (.requestVoteRequest req') ∈ nd.history := by simpa [note] using h2
    exact h.once h1 h2
  · have hg : .voteGranted req log ∈ nd.history := by simpa [note] using hg
    exact h.granted hg
  · refine h.reply (w := w) ?_
    simpa [note] using hs
  · simp only [note, List.mem_append, List.mem_singleton, Event.becameLeader.injEq] at hl
    rcases hl with hl | ⟨rfl, -⟩
    · exact h.leader hl
    · refine ⟨cs.votes, ⟨fun v hv => ?_, ?_⟩, fun v hv => (h.votes hr hcs v hv).2⟩
      · exact List.mem_toFinset.2 (h.votes hr hcs v hv).1
      · rw [List.toFinset_card_of_nodup hids]
        omega

/-- A new candidacy begins without votes, and asks with a request of the new term. -/
theorem stand (h : CandidacyNode ids S G i nd) {req : RequestVoteRequest}
    (hreq : req.candidateId = i) (hterm : req.candidateTerm = nd.currentTerm + 1) :
    CandidacyNode ids S G i ({ nd with
      currentTerm := nd.currentTerm + 1
      votedFor := some nd.myId
      role := .kCandidate
      candidateState := some {}
      leaderState := none }.note
        (.resetTimer :: nd.channels.map fun id => .send id (.requestVoteRequest req))) := by
  have hold : ∀ e : Event, e.electoral = true → (∀ w, e ≠ .send w (.requestVoteRequest req)) →
      e ∈ nd.history ++ .resetTimer ::
        nd.channels.map (fun id => .send id (.requestVoteRequest req)) → e ∈ nd.history := by
    intro e he hne hmem
    simp only [List.mem_append, List.mem_cons, List.mem_map] at hmem
    rcases hmem with hmem | rfl | ⟨w, -, rfl⟩
    · exact hmem
    · cases he
    · exact absurd rfl (hne w)
  -- a request is an old one, of a term that has been reached, or the new one
  have hrequest : ∀ {w req'}, .send w (.requestVoteRequest req') ∈ nd.history ++ .resetTimer ::
        nd.channels.map (fun id => .send id (.requestVoteRequest req)) →
      .send w (.requestVoteRequest req') ∈ nd.history ∨ req' = req := by
    intro w req' hs
    rcases eq_or_ne req' req with rfl | hne
    · exact .inr rfl
    · refine .inl (hold _ rfl ?_ hs)
      rintro w' heq
      cases heq
      exact hne rfl
  refine ⟨?_, ?_, ?_, ?_, ?_, ?_⟩
  · intro w req' hs
    rcases hrequest hs with hs | rfl
    · exact ⟨(h.request hs).1, Nat.le_succ_of_le (h.request hs).2⟩
    · exact ⟨hreq, Nat.le_of_eq hterm⟩
  · intro w req₁ w' req₂ h1 h2 ht
    rcases hrequest h1 with g1 | rfl <;> rcases hrequest h2 with g2 | rfl
    · exact h.once g1 g2 ht
    · have := (h.request g1).2
      omega
    · have := (h.request g2).2
      omega
    · rfl
  · intro req' log hg
    exact h.granted (hold _ rfl nofun hg)
  · intro w resp hs hgr
    exact h.reply (w := w) (hold _ hgr nofun hs) hgr
  · rintro cs - hcs v hv
    cases hcs
    cases hv
  · intro t l hl
    exact h.leader (hold _ rfl nofun hl)

end CandidacyNode

/-- Node `c` has asked with `req`. -/
def Asked (nodes : NodeId → Node) (c : NodeId) (req : RequestVoteRequest) : Prop :=
  ∃ w, .send w (.requestVoteRequest req) ∈ (nodes c).history

/-- What all members keep to. -/
def Candidacies (ids : List NodeId) (nodes : NodeId → Node) : Prop :=
  ∀ i ∈ ids, CandidacyNode ids (Asked nodes) (Granted nodes) i (nodes i)

/-- One move of a member keeps the rules. -/
theorem candidacies_move {z : Hazard} {ids : List NodeId} (hids : ids.Nodup)
    {nodes : NodeId → Node} {i : NodeId} {nd : Node} (hI : Candidacies ids nodes)
    (h : MemberMove z ids nodes i nd) : Candidacies ids (Function.update nodes i nd) := by
  obtain ⟨hi, hme, hch, hm⟩ := h
  have hx := history_update (i := i) hm.later.history
  have hS : ∀ c req, Asked nodes c req → Asked (Function.update nodes i nd) c req := by
    rintro c req ⟨w, hw⟩
    exact ⟨w, (hx c).subset hw⟩
  have hG : ∀ v t c, Granted nodes v t c → Granted (Function.update nodes i nd) v t c := by
    rintro v t c ⟨req, log, hg, ht, hc⟩
    exact ⟨req, log, (hx v).subset hg, ht, hc⟩
  refine forall_update ?_ fun j hj => (hI j hj).mono hS hG
  have hE := (hI i hi).mono hS hG
  have hq := Event.not_electoral_of_quiet
  have hnew : ∀ {req log}, .voteGranted req log ∈ nd.history →
      Granted (Function.update nodes i nd) i req.candidateTerm req.candidateId := by
    intro req log hg
    exact ⟨req, log, by rwa [Function.update_self], rfl, rfl⟩
  generalize Asked (Function.update nodes i nd) = S at hS hE ⊢
  generalize Granted (Function.update nodes i nd) = G at hG hE hnew ⊢
  generalize nodes i = nd₀ at hm hE hme hch
  cases hm with
  | chore h =>
    have h := h.quiet
    exact hE.frame h.currentTerm h.role h.candidateState (h.noNew hq)
  | observe term ht => exact hE.observe ht
  | commit ls id =>
    have h := quiet_foldl_resolve (List.range' (nd₀.commitIndex + 1) (id - nd₀.commitIndex)) nd₀
    exact hE.frame h.currentTerm h.role h.candidateState
      (noNew_commit (fun _ => rfl) (fun _ _ _ => rfl) _ _ _ _ _)
  | refuseEntries | sendEntries =>
    exact hE.frame rfl rfl rfl (noNew_note (by simp [Event.electoral]))
  | acceptEntries sender req =>
    exact hE.frame rfl rfl rfl
      ((noNew_accept (fun _ => rfl) nd₀ req).trans (noNew_note (by simp [Event.electoral])))
  | refuseVote sender resp hs hresp =>
    exact hE.frame rfl rfl rfl (noNew_note (by simpa [Event.electoral] using hresp))
  | grantVote sender req hg hs ht hcan =>
    obtain ⟨rfl, -⟩ := (hI sender hg.1).request hg.2
    exact hE.grantVote (hS _ _ ⟨_, hg.2⟩) (hnew (List.mem_append_right _ List.mem_cons_self))
  | refused | matched => exact hE.frame rfl rfl rfl (noNew_of_history_eq rfl)
  | countVote sender resp cs hg hr hgr ht hcs =>
    refine hE.countVote hr hcs hg.1 ?_
    rw [← ht]
    exact hG _ _ _ ((hI sender hg.1).reply hg.2 hgr)
  | becomeLeader cs hr hcs hmaj => exact hE.becomeLeader hids hr hcs (hch ▸ hmaj)
  | append command rest =>
    exact hE.frame rfl rfl rfl (noNew_addNewCommand (fun _ => rfl) (fun _ _ _ => rfl) _ command)
  | stand => exact hE.stand hme rfl

/-- The candidacies are sound at the start. -/
theorem candidacies_init (members : Members) : Candidacies members.ids (initialNode members) := by
  intro i hi
  exact ⟨nofun, nofun, nofun, nofun, nofun, nofun⟩

/-- The candidacies are sound after every run. -/
theorem candidacies_run {members : Members} {ops : List Op} {s : Cluster}
    (hrun : exec step ops (init members) = some s) : Candidacies members.ids s.node :=
  invariant_run (z := {}) (fun _ _ _ => candidacies_move (nodup_ids members))
    (candidacies_init members) hrun (avoids_of_forall marks_empty ops _)

/-! ## The moment of a vote -/

/-- Marks the handling of vote requests. -/
def votes : Hazard where
  handles _ _ msg :=
    match msg with
    | .requestVoteRequest _ => true
    | _ => false

/-- The granting of a vote. -/
def Event.grant : Event → Bool
  | .voteGranted .. => true
  | _ => false

/-- Nothing else grants one. -/
theorem noNew_grant_move {g : NodeId → Message → Prop} {nd nd' : Node}
    (h : Move votes g nd nd') : NoNew Event.grant nd nd' := by
  cases h with
  | chore h => exact h.noNew rfl (fun _ _ _ _ => rfl) (fun _ _ => rfl) (fun _ _ => rfl)
  | observe | refused | matched | countVote => exact noNew_of_history_eq rfl
  | commit ls id => exact noNew_commit (fun _ => rfl) (fun _ _ _ => rfl) _ _ _ _ _
  | acceptEntries sender req =>
    exact (noNew_accept (fun _ => rfl) nd req).trans (noNew_note (by simp [Event.grant]))
  | grantVote sender req hg hs ht hcan hz => cases hz
  | append command rest =>
    exact noNew_addNewCommand (fun _ => rfl) (fun _ _ _ => rfl) _ command
  | refuseEntries | refuseVote | becomeLeader | sendEntries | stand =>
    exact noNew_note (by simp [Event.grant])

/-- Moves that grant no vote add no grant to the history. -/
theorem noNew_grant_moves {g : NodeId → Message → Prop} {nd nd' : Node}
    (h : Moves votes g nd nd') : NoNew Event.grant nd nd' := by
  induction h with
  | refl => exact noNew_of_history_eq rfl
  | tail _ hm ih => exact ih.trans (noNew_grant_move hm)

/-- In the step from `s` to `s'` member `v` handles `req`, and in the term of the request it grants
its vote to the candidate, whose last item is not before the last item of `v`. -/
structure Grants (v : NodeId) (req : RequestVoteRequest) (s s' : Cluster) : Prop where
  handled : ∃ asLeader rest, (s.procs v).ticking =
    some { asLeader, todo := (req.candidateId, .requestVoteRequest req) :: rest }
  log : (s'.node v).log = (s.node v).log
  term : (s'.node v).currentTerm = req.candidateTerm
  vote : (s'.node v).votedFor = some req.candidateId
  upToDate : (s'.node v).lastItem ≤ req.lastItem
  reply : .send req.candidateId (.requestVoteResponse
      { currentTerm := req.candidateTerm, voteGranted := true,
        candidateTerm := req.candidateTerm }) ∈
    (s'.node v).history.drop (s.node v).history.length

/-- The node after it has granted its vote. -/
def Node.grant (nd : Node) (req : RequestVoteRequest) : Node :=
  { nd with votedFor := some req.candidateId }.emit (.voteGranted req nd.log)

/-- The candidate is told of the vote, with its own term. -/
theorem Node.grant_reply {nd : Node} {req : RequestVoteRequest}
    (ht : req.candidateTerm = (nd.observeTerm req.candidateTerm).currentTerm) :
    let nd₁ := nd.observeTerm req.candidateTerm
    .send req.candidateId (.requestVoteResponse
        { currentTerm := req.candidateTerm, voteGranted := true,
          candidateTerm := req.candidateTerm }) ∈
      ((nd₁.grant req).send req.candidateId
        (.requestVoteResponse (nd₁.requestVoteSuccessfull req.candidateTerm))).history.drop
          nd.history.length := by
  intro nd₁
  obtain ⟨evs, hevs⟩ : nd.history <+: nd₁.history := by
    rcases nd.observeTerm_cases req.candidateTerm with ⟨-, heq⟩ | ⟨-, heq⟩ <;>
      simp only [nd₁, heq, List.prefix_append, List.prefix_refl]
  have hresp : nd₁.requestVoteSuccessfull req.candidateTerm =
      { currentTerm := req.candidateTerm, voteGranted := true,
        candidateTerm := req.candidateTerm } :=
    congrArg (fun term => RequestVoteResponse.mk term true req.candidateTerm) ht.symm
  rw [hresp]
  simp only [send, grant, emit, ← hevs, List.append_assoc, List.drop_left]
  simp

/-- What happens in the step of a process that grants a vote. -/
theorem Process.step_grants {p p' : Process} {a : Action} (h : p.step (.act a) = some p')
    {req : RequestVoteRequest} {log : Log} (hold : .voteGranted req log ∉ p.node.history)
    (hnew : .voteGranted req log ∈ p'.node.history) :
    a = .handle ∧ ∃ sender asLeader rest, p.ticking =
        some { asLeader, todo := (sender, .requestVoteRequest req) :: rest } ∧
      let nd := p.node.observeTerm req.candidateTerm
      req.candidateTerm = nd.currentTerm ∧ nd.canVoteFor req = true ∧
        p'.node = (nd.grant req).send sender
          (.requestVoteResponse (nd.requestVoteSuccessfull req.candidateTerm)) := by
  -- every other step is a sequence of moves none of which grants a vote
  have hmark : p.marks votes a = true := by
    by_contra hz
    have hm := step_moves (g := fun _ _ => True) (fun _ _ => trivial) (Bool.eq_false_iff.2 hz) h
    exact hold ((noNew_grant_moves hm).mem hnew rfl)
  cases a with
  | addCommand | getPersistentCommands => cases hmark
  | beginTick => simp [marks, votes] at hmark
  | endTick expired =>
    simp [marks, Hazard.marksAppends_eq_false (z := votes) (fun _ => rfl)] at hmark
  | handle =>
    obtain ⟨asLeader, ⟨sender, msg⟩, rest, nd, htick, hnode, rfl⟩ := step_handle h
    simp only [marks, htick] at hmark
    rcases handleMessage_ok hnode with
      ⟨_, _, rfl, -⟩ | ⟨req', rfl, -, rfl⟩ | ⟨_, rfl, -⟩ | ⟨_, rfl, -⟩
    · cases hmark
    · have hobs : .voteGranted req log ∉ (p.node.observeTerm req'.candidateTerm).history := by
        rcases p.node.observeTerm_cases req'.candidateTerm with ⟨-, heq⟩ | ⟨-, heq⟩ <;> rw [heq]
        · exact hold
        · simpa using hold
      rcases p.node.handleRequestVoteRequest_cases req' with
        ⟨-, heq⟩ | ⟨ht, hcan, heq⟩ | ⟨-, -, heq⟩
      · refine absurd hnew ?_
        rw [heq]
        simpa [send] using hobs
      · obtain rfl : req = req' := by
          rw [heq] at hnew
          simp only [send, List.mem_append, List.mem_singleton, Event.voteGranted.injEq,
            reduceCtorEq, or_false] at hnew
          rcases hnew with hnew | ⟨hreq, -⟩
          · exact absurd hnew hobs
          · exact hreq
        exact ⟨rfl, sender, asLeader, rest, htick, ht, hcan, by rw [heq]; rfl⟩
      · refine absurd hnew ?_
        rw [heq]
        simpa [send] using hobs
    · cases hmark
    · cases hmark

/-- One of the steps of the run grants the vote. -/
def GrantsDuring (members : Members) (ops : List Op) (s : Cluster) (v : NodeId)
    (req : RequestVoteRequest) : Prop :=
  ∃ before after t u, ops = before ++ .act v .handle :: after ∧
    exec Cluster.step before (init members) = some t ∧ t.step (.act v .handle) = some u ∧
    exec Cluster.step after u = some s ∧ Grants v req t u

/-- A vote in the history of a run was granted in one of its steps. -/
theorem grantsDuring_of_voteGranted {members : Members} {ops : List Op} {s : Cluster}
    (hrun : exec Cluster.step ops (init members) = some s) {v : NodeId} {req : RequestVoteRequest}
    {log : Log} (hg : .voteGranted req log ∈ (s.node v).history) :
    GrantsDuring members ops s v req := by
  obtain ⟨before, op, after, t, u, rfl, ht, hu, hs, hold, hnew⟩ :=
    exec_becomes (P := fun s : Cluster => .voteGranted req log ∈ (s.node v).history)
      List.not_mem_nil hg hrun
  obtain ⟨a, p, rfl, hv, hp, rfl⟩ : ∃ a p, op = .act v a ∧ v ∈ t.members.ids ∧
      (t.procs v).step (.act a) = some p ∧ u = t.update v p := by
    rcases step_cases hu with ⟨i, a, p, rfl, hi, hp, rfl⟩ | ⟨k, pkt, rfl, hpkt, rfl⟩ | ⟨k, rfl, rfl⟩
    · rcases eq_or_ne v i with rfl | hne
      · exact ⟨a, p, rfl, hi, hp, rfl⟩
      · rw [update_node, Function.update_of_ne hne] at hnew
        exact absurd hnew hold
    · refine absurd hnew ?_
      rcases eq_or_ne v pkt.dst with rfl | hne
      · simpa [node, addMessage] using hold
      · simpa [node, Function.update_of_ne hne] using hold
    · exact absurd hnew hold
  have hnode : (t.update v p).node v = p.node := by rw [update_node, Function.update_self]
  rw [hnode] at hnew
  obtain ⟨rfl, sender, asLeader, rest, htick, hterm, hcan, heq⟩ := Process.step_grants hp hold hnew
  -- the request comes from the candidate
  have hsent := (conserved_run ht).pending v (sender, .requestVoteRequest req)
    (List.mem_append_right _ (by rw [htick]; exact List.mem_cons_self))
  rw [members_run ht] at hsent
  obtain ⟨rfl, -⟩ := (candidacies_run ht sender hsent.1).request hsent.2
  refine ⟨before, after, t, _, rfl, ht, hu, hs,
    { handled := ⟨asLeader, rest, htick⟩
      log := ?_
      term := ?_
      vote := ?_
      upToDate := ?_
      reply := ?_ }⟩
  all_goals rw [hnode, heq]
  · exact observeTerm_log _ _
  · exact hterm.symm
  · rfl
  · exact (lastItem_le_of_canVoteFor hcan : Node.lastItem _ ≤ _)
  · exact grant_reply hterm

/-- A majority has elected `c` in `term`, each of them in its own `term`, on the one request with
which `c` asked for the votes of `term`, and with a last item not after that of `c`. -/
def ElectedUpToDate (members : Members) (ops : List Op) (s : Cluster) (c : NodeId) (term : Nat) :
    Prop :=
  ∃ req, Asked s.node c req ∧ req.candidateId = c ∧ req.candidateTerm = term ∧
    (∀ req', Asked s.node c req' → req'.candidateTerm = term → req' = req) ∧
    ∃ q : Finset NodeId, Majority members.ids.toFinset q ∧
      ∀ v ∈ q, GrantsDuring members ops s v req

/-- **Every leader was elected by an up-to-date quorum.** -/
theorem leaders_elected_up_to_date (members : Members) (ops : List Op) (s : Cluster)
    (hrun : exec Cluster.step ops (init members) = some s) (c : NodeId) (hc : c ∈ members.ids)
    (term : Nat) (log : Log) (hl : .becameLeader term log ∈ (s.node c).history) :
    ElectedUpToDate members ops s c term := by
  have hI := candidacies_run hrun
  obtain ⟨q, hq, hall⟩ := (hI c hc).leader hl
  have hgrants : ∀ v ∈ q, ∃ req, Asked s.node c req ∧ req.candidateId = c ∧
      req.candidateTerm = term ∧ GrantsDuring members ops s v req := by
    intro v hv
    obtain ⟨req, log, hg, hterm, rfl⟩ := hall v hv
    exact ⟨req, (hI v (List.mem_toFinset.1 (hq.1 hv))).granted hg, rfl, hterm,
      grantsDuring_of_voteGranted hrun hg⟩
  have honly : ∀ req req', Asked s.node c req → Asked s.node c req' →
      req.candidateTerm = req'.candidateTerm → req = req' := by
    rintro req req' ⟨w, hs⟩ ⟨w', hs'⟩ ht
    exact (hI c hc).once hs hs' ht
  obtain ⟨v, hv⟩ : q.Nonempty := by
    rw [← Finset.card_pos]
    have := hq.2
    omega
  obtain ⟨req, hasked, hreq, hterm, -⟩ := hgrants v hv
  refine ⟨req, hasked, hreq, hterm,
    fun req' h' ht' => honly req' req h' hasked (ht'.trans hterm.symm), q, hq, fun v hv => ?_⟩
  obtain ⟨req', hasked', -, hterm', hgrant⟩ := hgrants v hv
  obtain rfl := honly req' req hasked' hasked (hterm'.trans hterm.symm)
  exact hgrant

/-- Node 1 of three is elected with the votes of a majority. -/
theorem leaders_elected_up_to_date_firstLeaderRun :
    ∃ s, exec Cluster.step firstLeaderRun (init threeMembers) = some s ∧
      (s.node 1).role = .kLeader ∧ ElectedUpToDate threeMembers firstLeaderRun s 1 1 := by
  obtain ⟨s, hrun, hs⟩ : ∃ s, exec Cluster.step firstLeaderRun (init threeMembers) = some s ∧
      (decide ((s.node 1).role = .kLeader) &&
        decide (.becameLeader 1 [sentinel] ∈ (s.node 1).history)) = true :=
    exists_of_any (by decide +kernel)
  simp only [Bool.and_eq_true, decide_eq_true_eq] at hs
  exact ⟨s, hrun, hs.1, leaders_elected_up_to_date threeMembers firstLeaderRun s hrun 1
    (by decide) 1 [sentinel] hs.2⟩

end ToFTDS.Consensus
