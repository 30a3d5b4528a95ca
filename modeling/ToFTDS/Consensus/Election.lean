import ToFTDS.Lib.Ledger
import ToFTDS.Consensus.Runs

/-!
# Elections

A node votes once in a term as long as it is a follower or a candidate: `voted_for` keeps the vote
until the term changes. `BecomeLeader` resets `voted_for` (`node.cpp:508`), so a leader would vote
again in its own term; `votesAsLeader` marks the steps in which one does. In the runs without such
a step every leader has a majority of the votes of its term, given at most once, and so no term has
two leaders. A run with such a step can elect two (`secondLeaderRun`).
-/

namespace ToFTDS.Consensus

open Run Node Cluster

/-- A leader votes for another candidate of its own term. -/
def votesAsLeader : Hazard where
  handles nd _ msg :=
    match msg with
    | .requestVoteRequest req =>
      nd.role = .kLeader && req.candidateTerm = nd.currentTerm && req.candidateId ≠ nd.myId &&
        nd.canVoteFor req
    | _ => false

/-- No two of the nodes have entered `BecomeLeader` in the same term. -/
def UniqueLeaders (ids : List NodeId) (nodes : NodeId → Node) : Prop :=
  ∀ i ∈ ids, ∀ j ∈ ids, ∀ t l l', .becameLeader t l ∈ (nodes i).history →
    .becameLeader t l' ∈ (nodes j).history → i = j

/-- No two members have entered `BecomeLeader` in the same term. -/
def Cluster.OneLeaderPerTerm (s : Cluster) : Prop := UniqueLeaders s.members.ids s.node

/-- Node `v` has granted its vote in term `t` to `c`. -/
def Granted (nodes : NodeId → Node) (v : NodeId) (t : Nat) (c : NodeId) : Prop :=
  ∃ req log, .voteGranted req log ∈ (nodes v).history ∧ req.candidateTerm = t ∧ req.candidateId = c

/-- The events of elections. -/
def Event.electoral : Event → Bool
  | .voteGranted .. | .becameLeader .. => true
  | .send _ (.requestVoteRequest _) => true
  | .send _ (.requestVoteResponse resp) => resp.voteGranted
  | _ => false

/-- Quiet events are not about elections. -/
theorem Event.not_electoral_of_quiet (e : Event) (h : e.quiet = true) : e.electoral = false := by
  cases e <;> first | rfl | cases h

/-- What member `i` keeps to in elections, with `G v t c` the votes given so far. -/
structure ElectionNode (ids : List NodeId) (G : NodeId → Nat → NodeId → Prop) (i : NodeId)
    (nd : Node) : Prop where
  /-- It has voted in no later term. -/
  grantedTerm : ∀ {req log}, .voteGranted req log ∈ nd.history → req.candidateTerm ≤ nd.currentTerm
  /-- A follower's vote is in `voted_for`, and any other node's vote is its own. -/
  vote : ∀ {req log}, .voteGranted req log ∈ nd.history → req.candidateTerm = nd.currentTerm →
    (nd.role = .kFollower ∧ nd.votedFor = some req.candidateId) ∨
      (nd.role ≠ .kFollower ∧ req.candidateId = i)
  ownVote : nd.role = .kCandidate → nd.votedFor = some i
  /-- It votes for one candidate a term. -/
  once : ∀ {req log req' log'}, .voteGranted req log ∈ nd.history →
    .voteGranted req' log' ∈ nd.history → req.candidateTerm = req'.candidateTerm →
    req.candidateId = req'.candidateId
  request : ∀ {w req}, .send w (.requestVoteRequest req) ∈ nd.history → req.candidateId = i
  reply : ∀ {w resp}, .send w (.requestVoteResponse resp) ∈ nd.history →
    resp.voteGranted = true → G i resp.candidateTerm w
  votes : ∀ {cs}, nd.role = .kCandidate → nd.candidateState = some cs →
    ∀ v ∈ cs.votes, v ∈ ids ∧ G v nd.currentTerm i
  leader : ∀ {t l}, .becameLeader t l ∈ nd.history →
    ∃ q, Majority ids.toFinset q ∧ ∀ v ∈ q, G v t i

namespace ElectionNode

variable {ids : List NodeId} {G G' : NodeId → Nat → NodeId → Prop} {i : NodeId} {nd nd' : Node}

/-- The invariant survives more votes granted. -/
theorem mono (hG : ∀ v t c, G v t c → G' v t c) (h : ElectionNode ids G i nd) :
    ElectionNode ids G' i nd :=
  { h with
    reply := fun hs hg => hG _ _ _ (h.reply hs hg)
    votes := fun hr hcs v hv => ⟨(h.votes hr hcs v hv).1, hG _ _ _ (h.votes hr hcs v hv).2⟩
    leader := fun hl => by
      obtain ⟨q, hq, hall⟩ := h.leader hl
      exact ⟨q, hq, fun v hv => hG _ _ _ (hall v hv)⟩ }

/-- What has nothing to do with elections keeps it. -/
theorem frame (h : ElectionNode ids G i nd) (ht : nd'.currentTerm = nd.currentTerm)
    (hv : nd'.votedFor = nd.votedFor) (hr : nd'.role = nd.role)
    (hc : nd'.candidateState = nd.candidateState) (hev : NoNew Event.electoral nd nd') :
    ElectionNode ids G i nd' where
  grantedTerm hg := ht ▸ h.grantedTerm (hev.mem hg rfl)
  vote hg ht' := by
    rw [hr, hv]
    exact h.vote (hev.mem hg rfl) (ht ▸ ht')
  ownVote hr' := hv ▸ h.ownVote (hr ▸ hr')
  once hg hg' := h.once (hev.mem hg rfl) (hev.mem hg' rfl)
  request hs := h.request (hev.mem hs rfl)
  reply hs hg := h.reply (hev.mem hs hg) hg
  votes hr' hcs := by
    rw [ht]
    exact h.votes (hr ▸ hr') (hc ▸ hcs)
  leader hl := h.leader (hev.mem hl rfl)

/-- A new term has no votes yet. -/
theorem observe (h : ElectionNode ids G i nd) {term : Nat} (ht : nd.currentTerm < term) :
    ElectionNode ids G i { nd with
      currentTerm := term
      role := .kFollower
      votedFor := none
      candidateState := none
      leaderState := none } where
  grantedTerm hg := Nat.le_of_lt (Nat.lt_of_le_of_lt (h.grantedTerm hg) ht)
  vote hg ht' := absurd (h.grantedTerm hg) (by rw [ht']; exact Nat.not_le.2 ht)
  ownVote hr := by cases hr
  once := h.once
  request := h.request
  reply := h.reply
  votes hr := by cases hr
  leader := h.leader

/-- A node that has voted can vote for the same candidate only. -/
theorem eq_of_canVoteFor {req : RequestVoteRequest} {c : NodeId} (h : nd.canVoteFor req = true)
    (hv : nd.votedFor = some c) : c = req.candidateId := by
  simp only [canVoteFor, hv, Option.getD_some, Bool.decide_and, Bool.and_eq_true,
    decide_eq_true_eq] at h
  exact h.1

/-- A vote that is granted is the only one of the term. -/
theorem grantVote (h : ElectionNode ids G i nd) {req : RequestVoteRequest} {sender : NodeId}
    (hsender : req.candidateId = sender) (hcan : nd.canVoteFor req = true)
    (ht : req.candidateTerm = nd.currentTerm)
    (hleader : nd.role = .kLeader → req.candidateId = i) (hnew : G i req.candidateTerm sender) :
    ElectionNode ids G i ({ nd with votedFor := some req.candidateId }.note
      [.voteGranted req nd.log,
        .send sender (.requestVoteResponse (nd.requestVoteSuccessfull req.candidateTerm))]) := by
  have hself : nd.role ≠ .kFollower → req.candidateId = i := by
    intro hr
    cases hrole : nd.role with
    | kFollower => exact absurd hrole hr
    | kCandidate => exact (eq_of_canVoteFor hcan (h.ownVote hrole)).symm
    | kLeader => exact hleader hrole
  have hsame : ∀ {req' log}, .voteGranted req' log ∈ nd.history →
      req'.candidateTerm = nd.currentTerm → req'.candidateId = req.candidateId := by
    intro req' log hg ht'
    rcases h.vote hg ht' with ⟨-, hv⟩ | ⟨hr, hv⟩
    · exact eq_of_canVoteFor hcan hv
    · rw [hv, hself hr]
  have hgrant : ∀ {req' log}, .voteGranted req' log ∈ nd.history ++ [Event.voteGranted req nd.log,
      .send sender (.requestVoteResponse (nd.requestVoteSuccessfull req.candidateTerm))] →
      .voteGranted req' log ∈ nd.history ∨ req' = req := by
    intro req' log hg
    simp only [List.mem_append, List.mem_cons, Event.voteGranted.injEq, reduceCtorEq,
      List.not_mem_nil, or_false] at hg
    exact hg.imp id And.left
  refine ⟨?_, ?_, ?_, ?_, ?_, ?_, h.votes, ?_⟩
  · intro req' log hg
    rcases hgrant hg with hg | rfl
    · exact h.grantedTerm hg
    · exact Nat.le_of_eq ht
  · intro req' log hg ht'
    have hc : req'.candidateId = req.candidateId := by
      rcases hgrant hg with hg | rfl
      · exact hsame hg ht'
      · rfl
    rcases eq_or_ne nd.role .kFollower with hr | hr
    · exact .inl ⟨hr, congrArg some hc.symm⟩
    · exact .inr ⟨hr, hc.trans (hself hr)⟩
  · intro hr
    exact congrArg some (hself (by rw [show nd.role = .kCandidate from hr]; nofun))
  · intro req₁ log₁ req₂ log₂ h1 h2 hterm
    rcases hgrant h1 with g1 | g1 <;> rcases hgrant h2 with g2 | g2
    · exact h.once g1 g2 hterm
    · rw [hsame g1 (by rw [hterm, g2, ht]), g2]
    · rw [hsame g2 (by rw [← hterm, g1, ht]), g1]
    · rw [g1, g2]
  · intro w req' hs
    refine h.request (w := w) ?_
    simpa [note] using hs
  · intro w resp hs hgr
    simp only [note, List.mem_append, List.mem_cons, reduceCtorEq, Event.send.injEq,
      Message.requestVoteResponse.injEq, List.not_mem_nil, or_false, false_or] at hs
    rcases hs with hs | ⟨rfl, rfl⟩
    · exact h.reply hs hgr
    · exact hnew
  · intro t l hl
    refine h.leader (l := l) ?_
    simpa [note] using hl

/-- Counting a vote that was granted keeps the invariant. -/
theorem countVote (h : ElectionNode ids G i nd) {cs : CandidateState} {sender : NodeId}
    (hr : nd.role = .kCandidate) (hcs : nd.candidateState = some cs) (hs : sender ∈ ids)
    (hg : G sender nd.currentTerm i) :
    ElectionNode ids G i
      { nd with candidateState := some { votes := insert sender cs.votes } } :=
  { h with
    votes := by
      rintro cs' - hcs' v hv
      cases hcs'
      rcases Finset.mem_insert.1 hv with rfl | hv
      · exact ⟨hs, hg⟩
      · exact h.votes hr hcs v hv }

/-- Whoever becomes the leader has a majority of the votes. -/
theorem becomeLeader (h : ElectionNode ids G i nd) {cs : CandidateState} (hids : ids.Nodup)
    (hr : nd.role = .kCandidate) (hcs : nd.candidateState = some cs)
    (hmaj : ids.length + 1 ≤ cs.votes.card * 2) {ls : LeaderState} :
    ElectionNode ids G i ({ nd with
      votedFor := none
      candidateState := none
      leaderState := some ls
      role := .kLeader }.note [.becameLeader nd.currentTerm nd.log]) := by
  have hgrant : ∀ {req log}, .voteGranted req log ∈
      nd.history ++ [Event.becameLeader nd.currentTerm nd.log] →
      .voteGranted req log ∈ nd.history := by
    intro req log hg
    simpa using hg
  refine ⟨fun hg => h.grantedTerm (hgrant hg), ?_, nofun,
    fun h1 h2 => h.once (hgrant h1) (hgrant h2),
    ?_, ?_, nofun, ?_⟩
  · intro req log hg ht
    rcases h.vote (hgrant hg) ht with ⟨hr', -⟩ | ⟨-, hv⟩
    · rw [hr] at hr'
      cases hr'
    · exact .inr ⟨nofun, hv⟩
  · intro w req hs
    refine h.request (w := w) ?_
    simpa [note] using hs
  · intro w resp hs
    refine h.reply (w := w) ?_
    simpa [note] using hs
  · intro t l hl
    simp only [note, List.mem_append, List.mem_singleton, Event.becameLeader.injEq] at hl
    rcases hl with hl | ⟨rfl, -⟩
    · exact h.leader hl
    · refine ⟨cs.votes, ⟨fun v hv => ?_, ?_⟩, fun v hv => (h.votes hr hcs v hv).2⟩
      · exact List.mem_toFinset.2 (h.votes hr hcs v hv).1
      · rw [List.toFinset_card_of_nodup hids]
        omega

/-- A candidate votes for itself first, and asks the others in its own name. -/
theorem stand (h : ElectionNode ids G i nd) (hme : nd.myId = i) {req : RequestVoteRequest}
    (hreq : req.candidateId = nd.myId) :
    ElectionNode ids G i ({ nd with
      currentTerm := nd.currentTerm + 1
      votedFor := some nd.myId
      role := .kCandidate
      candidateState := some {}
      leaderState := none }.note
        (.resetTimer :: nd.channels.map fun id => .send id (.requestVoteRequest req))) := by
  have hold : ∀ e : Event, e.electoral = true → (∀ w, e ≠ .send w (.requestVoteRequest req)) →
      e ∈ nd.history ++ .resetTimer ::
        nd.channels.map (fun id => .send id (.requestVoteRequest req)) → e ∈ nd.history := by
    intro e he hne hmem
    simp only [List.mem_append, List.mem_cons, List.mem_map] at hmem
    rcases hmem with hmem | rfl | ⟨w, -, rfl⟩
    · exact hmem
    · cases he
    · exact absurd rfl (hne w)
  refine ⟨?_, ?_, ?_, ?_, ?_, ?_, ?_, ?_⟩
  · intro req' log hg
    exact Nat.le_succ_of_le (h.grantedTerm (hold _ rfl nofun hg))
  · intro req' log hg ht
    have := h.grantedTerm (hold _ rfl nofun hg)
    exact absurd (show req'.candidateTerm = nd.currentTerm + 1 from ht) (by omega)
  · rintro -
    exact congrArg some hme
  · intro req₁ log₁ req₂ log₂ h1 h2
    exact h.once (hold _ rfl nofun h1) (hold _ rfl nofun h2)
  · intro w req' hs
    rcases eq_or_ne req' req with rfl | hne
    · exact hreq.trans hme
    · refine h.request (w := w) (hold _ rfl ?_ hs)
      rintro w' heq
      cases heq
      exact hne rfl
  · intro w resp hs hgr
    exact h.reply (w := w) (hold _ hgr nofun hs) hgr
  · rintro cs - hcs v hv
    cases hcs
    cases hv
  · intro t l hl
    exact h.leader (hold _ rfl nofun hl)

end ElectionNode

/-- What all members keep to. -/
def Elections (ids : List NodeId) (nodes : NodeId → Node) : Prop :=
  ∀ i ∈ ids, ElectionNode ids (Granted nodes) i (nodes i)

/-- One move of a member keeps the rules of elections, if no leader votes. -/
theorem elections_move {z : Hazard} (hz : votesAsLeader.Le z) {ids : List NodeId} (hids : ids.Nodup)
    {nodes : NodeId → Node} {i : NodeId} {nd : Node} (hI : Elections ids nodes)
    (h : MemberMove z ids nodes i nd) : Elections ids (Function.update nodes i nd) := by
  obtain ⟨hi, hme, hch, hm⟩ := h
  have hx := history_update (i := i) hm.later.history
  have hG : ∀ v t c, Granted nodes v t c → Granted (Function.update nodes i nd) v t c := by
    rintro v t c ⟨req, log, hg, ht, hc⟩
    exact ⟨req, log, (hx v).subset hg, ht, hc⟩
  refine forall_update ?_ fun j hj => (hI j hj).mono hG
  have hE := (hI i hi).mono hG
  have hq := Event.not_electoral_of_quiet
  have hnew : ∀ {req log}, .voteGranted req log ∈ nd.history →
      Granted (Function.update nodes i nd) i req.candidateTerm req.candidateId := by
    intro req log hg
    exact ⟨req, log, by rwa [Function.update_self], rfl, rfl⟩
  generalize Granted (Function.update nodes i nd) = G at hG hE hnew ⊢
  generalize nodes i = nd₀ at hm hE hme hch
  cases hm with
  | chore h =>
    have h := h.quiet
    exact hE.frame h.currentTerm h.votedFor h.role h.candidateState (h.noNew hq)
  | observe term ht => exact hE.observe ht
  | commit ls id =>
    have h := quiet_foldl_resolve (List.range' (nd₀.commitIndex + 1) (id - nd₀.commitIndex)) nd₀
    exact hE.frame h.currentTerm h.votedFor h.role h.candidateState
      (noNew_commit (fun _ => rfl) (fun _ _ _ => rfl) _ _ _ _ _)
  | refuseEntries | sendEntries =>
    exact hE.frame rfl rfl rfl rfl (noNew_note (by simp [Event.electoral]))
  | acceptEntries sender req =>
    exact hE.frame rfl rfl rfl rfl
      ((noNew_accept (fun _ => rfl) nd₀ req).trans (noNew_note (by simp [Event.electoral])))
  | refuseVote sender resp hs hresp =>
    exact hE.frame rfl rfl rfl rfl (noNew_note (by simpa [Event.electoral] using hresp))
  | grantVote sender req hg hs ht hcan hzz =>
    have hsender : req.candidateId = sender := (hI sender hg.1).request hg.2
    refine hE.grantVote hsender hcan ht ?_ ?_
    · intro hr
      by_contra hne
      have hmark : votesAsLeader.handles nd₀.core sender (.requestVoteRequest req) = true := by
        change (decide (nd₀.role = .kLeader) && decide (req.candidateTerm = nd₀.currentTerm) &&
          decide (req.candidateId ≠ nd₀.myId) && nd₀.canVoteFor req) = true
        simp [hr, ht, hme, hne, hcan]
      rw [hz.handles hzz] at hmark
      cases hmark
    · rw [← hsender]
      exact hnew (List.mem_append_right _ List.mem_cons_self)
  | refused | matched =>
    exact hE.frame rfl rfl rfl rfl (noNew_of_history_eq rfl)
  | countVote sender resp cs hg hr hgr ht hcs =>
    refine hE.countVote hr hcs hg.1 ?_
    rw [← ht]
    exact hG _ _ _ ((hI sender hg.1).reply hg.2 hgr)
  | becomeLeader cs hr hcs hmaj => exact hE.becomeLeader hids hr hcs (hch ▸ hmaj)
  | append command rest =>
    exact hE.frame rfl rfl rfl rfl (noNew_addNewCommand (fun _ => rfl) (fun _ _ _ => rfl) _ command)
  | stand => exact hE.stand hme rfl

/-- The elections are sound at the start. -/
theorem elections_init (members : Members) : Elections members.ids (initialNode members) := by
  intro i hi
  refine ⟨nofun, nofun, nofun, nofun, nofun, nofun, nofun, nofun⟩

/-- Two leaders of a term share a voter, who has voted once. -/
theorem Elections.uniqueLeaders {ids : List NodeId} {nodes : NodeId → Node}
    (h : Elections ids nodes) : UniqueLeaders ids nodes := by
  intro i hi j hj t l l' hl hl'
  obtain ⟨q, hq, hall⟩ := (h i hi).leader hl
  obtain ⟨q', hq', hall'⟩ := (h j hj).leader hl'
  obtain ⟨v, hv, hv'⟩ := hq.inter hq'
  obtain ⟨req, log, hg, ht, rfl⟩ := hall v hv
  obtain ⟨req', log', hg', ht', rfl⟩ := hall' v hv'
  exact (h v (List.mem_toFinset.1 (hq.1 hv))).once hg hg' (ht.trans ht'.symm)

/-- The elections are sound after every run in which no leader grants a vote. -/
theorem elections_run {z : Hazard} (hz : votesAsLeader.Le z) {members : Members} {ops : List Op}
    {s : Cluster} (hrun : exec step ops (init members) = some s)
    (havoid : Avoids step (marks z) ops (init members) = true) :
    Elections members.ids s.node :=
  invariant_run (fun _ _ _ => elections_move hz (nodup_ids members)) (elections_init members)
    hrun havoid

/-- No term gets a second leader in a run in which no leader grants a vote. -/
theorem oneLeaderPerTerm_run {z : Hazard} (hz : votesAsLeader.Le z) {members : Members}
    {ops : List Op} {s : Cluster} (hrun : exec step ops (init members) = some s)
    (havoid : Avoids step (marks z) ops (init members) = true) : s.OneLeaderPerTerm := by
  rw [Cluster.OneLeaderPerTerm, members_run hrun]
  exact (elections_run hz hrun havoid).uniqueLeaders

/-- **Election safety.** In a run in which no leader votes for another candidate of its own term, no
two different nodes ever enter `BecomeLeader` in the same term. -/
theorem election_safety (members : Members) (ops : List Op) (s : Cluster)
    (hrun : exec step ops (init members) = some s)
    (havoid : Avoids step (marks votesAsLeader) ops (init members) = true) :
    s.OneLeaderPerTerm :=
  oneLeaderPerTerm_run (Hazard.Le.refl _) hrun havoid

/-- The nodes 1 and 2 stand in term 1. Node 1 is elected with the votes of itself and of 3, and
handles the vote request of node 2 only then: it grants it, and node 2 has the votes of itself
and of 1. -/
def secondLeaderRun : List Op :=
  tickOps 1 0 true ++ tickOps 2 0 true ++
  .deliver 1 :: tickOps 3 1 ++ tickOps 1 1 ++ .deliver 3 :: tickOps 1 2 ++
  .deliver 1 :: tickOps 1 2 ++ tickOps 2 1 ++ .deliver 4 :: tickOps 2 2

/-- Two nodes become the leader of term 1. -/
theorem not_election_safety :
    ¬ ∀ s, exec step secondLeaderRun (init threeMembers) = some s → s.OneLeaderPerTerm := by
  obtain ⟨s, hrun, hs⟩ : ∃ s, exec step secondLeaderRun (init threeMembers) = some s ∧
      (.becameLeader 1 [sentinel] ∈ (s.node 1).history &&
        .becameLeader 1 [sentinel] ∈ (s.node 2).history : Bool) = true :=
    exists_of_any (by decide +kernel)
  intro h
  simp only [Bool.and_eq_true, decide_eq_true_eq] at hs
  have hids := ids_threeMembers hrun
  have := h s hrun 1 (by simp [hids]) 2 (by simp [hids]) 1 _ _ hs.1 hs.2
  cases this

/-- Node 1 leads term 1, and nobody else does. -/
theorem election_safety_firstLeaderRun :
    ∃ s, exec step firstLeaderRun (init threeMembers) = some s ∧ (s.node 1).role = .kLeader ∧
      s.OneLeaderPerTerm := by
  obtain ⟨s, hrun, hs⟩ : ∃ s, exec step firstLeaderRun (init threeMembers) = some s ∧
      decide ((s.node 1).role = .kLeader) = true := exists_of_any (by decide +kernel)
  exact ⟨s, hrun, of_decide_eq_true hs,
    election_safety threeMembers firstLeaderRun s hrun (by decide +kernel)⟩

end ToFTDS.Consensus
