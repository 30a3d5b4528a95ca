import ToFTDS.Consensus.Candidacy
import ToFTDS.Consensus.Progress

/-!
# Ticks of a campaign

What a process does by itself, with no other input: `Process.Does`. Here are the ticks that an
election is made of, from a process whose thread is between two ticks and whose node has at most one
message to handle: a node that stands and votes for itself (`stands`), one that hears of a campaign
of a later term (`hears`), and a candidate that counts a vote (`counts`).
-/

namespace ToFTDS.Consensus

open Run

/-- A hazard that marks nothing about the votes of a node that does not lead. -/
structure Hazard.SparesVotes (z : Hazard) : Prop where
  request : ∀ {nd sender req}, nd.role ≠ .kLeader →
    z.handles nd sender (.requestVoteRequest req) = false
  response : ∀ {nd sender resp}, nd.role ≠ .kLeader →
    z.handles nd sender (.requestVoteResponse resp) = false

/-- The empty hazard concerns no vote. -/
theorem Hazard.sparesVotes_empty : ({} : Hazard).SparesVotes := ⟨fun _ => rfl, fun _ => rfl⟩

namespace Node

variable {nd nd' : Node} {ids : Finset NodeId}

/-- A later state of the node is past sending the message. -/
def Sends (nd nd' : Node) (whom : NodeId) (msg : Message) : Prop :=
  ∃ evs, nd'.history = nd.history ++ evs ∧ .send whom msg ∈ evs

/-- A message sent early in a step is sent by the whole step. -/
theorem Sends.trans_left {nd₁ : Node} {whom : NodeId} {msg : Message}
    (h : Sends nd nd₁ whom msg) (h' : nd₁.history <+: nd'.history) : Sends nd nd' whom msg := by
  obtain ⟨evs, heq, hmem⟩ := h
  obtain ⟨evs', heq'⟩ := h'
  exact ⟨evs ++ evs', by rw [← heq', heq, List.append_assoc], List.mem_append_left _ hmem⟩

/-- A message sent late in a step is sent by the whole step. -/
theorem Sends.trans_right {nd₁ : Node} {whom : NodeId} {msg : Message}
    (h : nd.history <+: nd₁.history) (h' : Sends nd₁ nd' whom msg) : Sends nd nd' whom msg := by
  obtain ⟨evs, heq⟩ := h
  obtain ⟨evs', heq', hmem⟩ := h'
  exact ⟨evs ++ evs', by rw [heq', ← heq, List.append_assoc], List.mem_append_right _ hmem⟩

/-! ## The beginning of a tick -/

/-- What an election depends on is the same, and the commit index is still in the log. -/
structure Steady (nd nd' : Node) : Prop where
  myId : nd'.myId = nd.myId
  channels : nd'.channels = nd.channels
  currentTerm : nd'.currentTerm = nd.currentTerm
  votedFor : nd'.votedFor = nd.votedFor
  log : nd'.log = nd.log
  candidateState : nd'.candidateState = nd.candidateState
  role : nd'.role = nd.role
  committed : nd'.commitIndex < nd'.log.length
  history : nd.history <+: nd'.history

/-- Steady steps compose. -/
theorem Steady.trans {nd₁ : Node} (h : Steady nd nd₁) (h' : Steady nd₁ nd') : Steady nd nd' where
  myId := h'.myId.trans h.myId
  channels := h'.channels.trans h.channels
  currentTerm := h'.currentTerm.trans h.currentTerm
  votedFor := h'.votedFor.trans h.votedFor
  log := h'.log.trans h.log
  candidateState := h'.candidateState.trans h.candidateState
  role := h'.role.trans h.role
  committed := h'.committed
  history := h.history.trans h'.history

/-- Committing is a steady step. -/
theorem commitIfPossible_steady (hc : nd.commitIndex < nd.log.length)
    (h : nd.commitIfPossible = .ok nd') : Steady nd nd' := by
  rcases commitIfPossible_ok h with rfl | ⟨ls, id, -, hid, rfl⟩
  · exact ⟨rfl, rfl, rfl, rfl, rfl, rfl, rfl, hc, List.prefix_refl _⟩
  have hq := quiet_foldl_resolve (List.range' (nd.commitIndex + 1) (id - nd.commitIndex)) nd
  generalize (List.range' (nd.commitIndex + 1) (id - nd.commitIndex)).foldl resolve nd = nd₀
    at hq
  obtain ⟨evs, hevs, -⟩ := hq.history
  obtain ⟨-, hle, -⟩ := scan_eq_some hid
  have hlast : nd.getLastLogIndex = nd.log.length - 1 := rfl
  refine ⟨hq.myId, hq.channels, hq.currentTerm, hq.votedFor, hq.log, hq.candidateState, hq.role,
    ?_, ?_⟩
  · change id < nd₀.log.length
    rw [hq.log]
    omega
  · change nd.history <+: nd₀.history ++ _
    rw [hevs, List.append_assoc]
    exact List.prefix_append _ _

/-- A tick begins: `nd'` has what `nd` found in its inboxes still to handle. -/
def Begins (nd nd' : Node) : Prop :=
  ∃ nd₁, nd.beginTick = .ok nd₁ ∧ nd₁.incoming = nd.incoming ∧ nd' = { nd₁ with incoming := {} }

/-- While the commit index is in the log, a tick can begin. -/
theorem exists_begins (hls : nd.role = .kLeader → nd.leaderState.isSome)
    (hc : nd.commitIndex < nd.log.length) :
    ∃ nd', Begins nd nd' ∧ Steady nd nd' ∧ nd'.incoming = {} := by
  have hsteady : Steady nd nd.answerAll :=
    ⟨rfl, rfl, rfl, rfl, rfl, rfl, rfl, hc, List.prefix_append _ _⟩
  have hbegin : nd.beginTick =
      if nd.role = .kLeader then nd.answerAll.commitIfPossible else .ok nd.answerAll := by
    rw [beginTick, handleGetPersistentCommandRequests_eq hc]
    rfl
  have hok : ∃ nd₁, nd.beginTick = .ok nd₁ ∧ Steady nd nd₁ := by
    rw [hbegin]
    split
    · next hr =>
      cases hcommit : nd.answerAll.commitIfPossible with
      | error e =>
        have hnone : nd.leaderState = none := (commitIfPossible_error hcommit).2
        have hsome := hls hr
        rw [hnone] at hsome
        cases hsome
      | ok nd₁ => exact ⟨nd₁, rfl, hsteady.trans (commitIfPossible_steady hc hcommit)⟩
    · exact ⟨_, rfl, hsteady⟩
  obtain ⟨nd₁, hok, hst⟩ := hok
  refine ⟨{ nd₁ with incoming := {} }, ⟨nd₁, hok, beginTick_incoming hok, rfl⟩, ?_, rfl⟩
  exact ⟨hst.myId, hst.channels, hst.currentTerm, hst.votedFor, hst.log, hst.candidateState,
    hst.role, hst.committed, hst.history⟩

/-! ## The messages of a campaign -/

/-- The request of a candidate. -/
def ballot (nd : Node) : RequestVoteRequest where
  candidateTerm := nd.currentTerm
  candidateId := nd.myId
  candidateLastLogIndex := nd.getLastLogIndex
  candidateLastLogTerm := nd.getLastLogTerm

/-- A steady step keeps the ballot. -/
theorem Steady.ballot (h : Steady nd nd') : nd'.ballot = nd.ballot := by
  simp only [Node.ballot, getLastLogIndex, getLastLogTerm, h.currentTerm, h.myId, h.log]

/-- The last item is read off the log. -/
theorem lastItem_congr (h : nd'.log = nd.log) : nd'.lastItem = nd.lastItem := by
  simp only [lastItem, getLastLogIndex, getLastLogTerm, h]

/-- The reply that grants the vote of a term. -/
def vote (term : Nat) : RequestVoteResponse where
  currentTerm := term
  voteGranted := true
  candidateTerm := term

/-- A message added to an empty queue is the only one in it. -/
theorem messages_add (id : NodeId) (msg : Message) :
    (({} : Incoming).add id msg).messages = [(id, msg)] := by cases msg <;> rfl

/-- Sending puts into the node's own inboxes what it sends to itself. -/
theorem sendEach_incoming (l : List (NodeId × Message)) (nd : Node) :
    (nd.sendEach l).incoming =
      (l.filter (·.1 = nd.myId)).foldl (fun inc x => inc.add nd.myId x.2) nd.incoming := by
  induction l generalizing nd with
  | nil => rfl
  | cons x l ih =>
    change ((nd.send x.1 x.2).sendEach l).incoming = _
    rw [ih]
    by_cases hx : x.1 = nd.myId
    · rw [List.filter_cons_of_pos (by simpa using hx), List.foldl_cons]
      simp only [send, if_pos hx]
    · rw [List.filter_cons_of_neg (by simpa using hx)]
      simp only [send, if_neg hx]

/-- A node that sends to all members sends to itself once. -/
theorem sendEach_channels_incoming (nd : Node) (hnodup : nd.channels.Nodup)
    (hme : nd.myId ∈ nd.channels) (msg : Message) :
    (nd.sendEach (nd.channels.map fun id => (id, msg))).incoming = nd.incoming.add nd.myId msg := by
  have hone : nd.channels.filter (fun id => decide (id = nd.myId)) = [nd.myId] := by
    rw [List.filter_eq, List.count_eq_one_of_mem hnodup hme]
    rfl
  rw [sendEach_incoming, List.filter_map]
  change List.foldl _ _ (List.map _ (nd.channels.filter fun id => decide (id = nd.myId))) = _
  rw [hone]
  rfl

/-- A candidate that has these votes. -/
structure Standing (nd : Node) (votes : Finset NodeId) : Prop where
  role : nd.role = .kCandidate
  votedFor : nd.votedFor = some nd.myId
  candidateState : nd.candidateState = some { votes := votes }
  committed : nd.commitIndex < nd.log.length

/-- A candidate still stands with its votes after a steady step. -/
theorem Steady.standing {votes : Finset NodeId} (h : Steady nd nd') (hs : Standing nd votes) :
    Standing nd' votes where
  role := h.role.trans hs.role
  votedFor := h.votedFor.trans (hs.votedFor.trans (congrArg some h.myId.symm))
  candidateState := h.candidateState.trans hs.candidateState
  committed := h.committed

/-- A node that stands asks all members, itself included. -/
theorem becomeCandidate_standing (hnodup : nd.channels.Nodup) (hme : nd.myId ∈ nd.channels)
    (hinc : nd.incoming = {}) (hc : nd.commitIndex < nd.log.length) :
    Standing nd.becomeCandidate ∅ ∧ nd.becomeCandidate.currentTerm = nd.currentTerm + 1 ∧
      nd.becomeCandidate.log = nd.log ∧ nd.becomeCandidate.myId = nd.myId ∧
      nd.becomeCandidate.incoming =
        ({} : Incoming).add nd.myId (.requestVoteRequest nd.becomeCandidate.ballot) ∧
      ∀ w ∈ nd.channels,
        Sends nd nd.becomeCandidate w (.requestVoteRequest nd.becomeCandidate.ballot) := by
  have hinc' := sendEach_channels_incoming { nd with
    currentTerm := nd.currentTerm + 1
    votedFor := some nd.myId
    history := nd.history ++ [Event.resetTimer] } hnodup hme (.requestVoteRequest
      { candidateTerm := nd.currentTerm + 1
        candidateId := nd.myId
        candidateLastLogIndex := nd.getLastLogIndex
        candidateLastLogTerm := nd.getLastLogTerm })
  have hballot : nd.becomeCandidate.ballot =
      { candidateTerm := nd.currentTerm + 1
        candidateId := nd.myId
        candidateLastLogIndex := nd.getLastLogIndex
        candidateLastLogTerm := nd.getLastLogTerm } := by
    rw [becomeCandidate_eq, sendEach_eq]
    rfl
  rw [hballot, becomeCandidate_eq]
  refine ⟨?_, ?_, ?_, ?_, ?_, fun w hw => ?_⟩
  · rw [sendEach_eq]
    exact ⟨rfl, rfl, rfl, hc⟩
  · rw [sendEach_eq]
  · rw [sendEach_eq]
  · rw [sendEach_eq]
  · change (sendEach _ _).incoming = _
    rw [hinc']
    change nd.incoming.add _ _ = _
    rw [hinc]
  · rw [sendEach_eq]
    refine ⟨_, List.append_assoc .., List.mem_append_right _ ?_⟩
    rw [List.map_map]
    exact List.mem_map.2 ⟨w, hw, rfl⟩

/-- A candidate votes for itself. -/
theorem handleMessage_ballot {votes : Finset NodeId} (hs : Standing nd votes)
    (hme : nd.myId ∈ nd.channels) (hinc : nd.incoming = {}) :
    ∃ nd', nd.handleMessage nd.myId (.requestVoteRequest nd.ballot) = .ok nd' ∧
      Standing nd' votes ∧ nd'.currentTerm = nd.currentTerm ∧ nd'.log = nd.log ∧
      nd'.channels = nd.channels ∧ nd.history <+: nd'.history ∧ nd'.incoming =
        ({} : Incoming).add nd.myId (.requestVoteResponse (vote nd.currentTerm)) := by
  have hobserve : nd.observeTerm nd.ballot.candidateTerm = nd :=
    observeTerm_eq_self (Nat.le_refl _)
  have hcan : nd.canVoteFor nd.ballot = true := by
    simp [canVoteFor, hs.votedFor, ballot]
  rcases nd.handleRequestVoteRequest_cases nd.ballot with ⟨hlt, -⟩ | ⟨-, -, heq⟩ | ⟨-, hno, -⟩
  · rw [hobserve] at hlt
    exact absurd hlt (Nat.lt_irrefl _)
  · rw [hobserve] at heq
    rw [handleMessage, if_neg (not_not.2 hme), heq]
    refine ⟨_, rfl, ⟨hs.role, rfl, hs.candidateState, hs.committed⟩, rfl, rfl, rfl, ?_, ?_⟩
    · simp only [send, List.append_assoc]
      exact List.prefix_append _ _
    · simp only [send, if_pos, hinc]
      rfl
  · rw [hobserve, hcan] at hno
    cases hno

/-- A node that hears of a campaign of a later term follows, and votes for the candidate if this
one's log is at least as up to date as its own. -/
theorem handleMessage_campaign {sender : NodeId} {req : RequestVoteRequest}
    (hsender : sender ∈ nd.channels) (hne : sender ≠ nd.myId)
    (ht : nd.currentTerm < req.candidateTerm) :
    ∃ nd', nd.handleMessage sender (.requestVoteRequest req) = .ok nd' ∧
      nd'.role = .kFollower ∧ nd'.currentTerm = req.candidateTerm ∧ nd'.log = nd.log ∧
      nd'.commitIndex = nd.commitIndex ∧ nd'.incoming = nd.incoming ∧
      nd.history <+: nd'.history ∧
      (nd.lastItem ≤ req.lastItem →
        Sends nd nd' sender (.requestVoteResponse (vote req.candidateTerm))) := by
  have hobserve : nd.observeTerm req.candidateTerm = { nd with
      currentTerm := req.candidateTerm
      role := .kFollower
      votedFor := none
      candidateState := none
      leaderState := none
      history := nd.history ++ [.resetTimer] } := by
    rcases nd.observeTerm_cases req.candidateTerm with ⟨hle, -⟩ | ⟨-, heq⟩
    · exact absurd ht (Nat.not_lt_of_le hle)
    · exact heq
  have hcan : nd.lastItem ≤ req.lastItem → (nd.observeTerm req.candidateTerm).canVoteFor req := by
    intro hle
    rw [hobserve]
    refine decide_eq_true ⟨rfl, ?_⟩
    exact Prod.Lex.toLex_le_toLex.1 hle
  rw [handleMessage, if_neg (not_not.2 hsender)]
  rcases nd.handleRequestVoteRequest_cases req with ⟨hlt, -⟩ | ⟨-, -, heq⟩ | ⟨-, hno, heq⟩
  · rw [hobserve] at hlt
    exact absurd hlt (Nat.lt_irrefl _)
  · rw [heq, hobserve]
    refine ⟨_, rfl, rfl, rfl, rfl, rfl, if_neg hne, ?_, fun _ => ?_⟩
    · simp only [send, List.append_assoc]
      exact List.prefix_append _ _
    · refine ⟨[.resetTimer, .voteGranted req nd.log,
        .send sender (.requestVoteResponse (vote req.candidateTerm))], ?_, by simp⟩
      simp only [send, List.append_assoc]
      rfl
  · rw [heq, hobserve]
    refine ⟨_, rfl, rfl, rfl, rfl, rfl, if_neg hne, ?_, fun hle => ?_⟩
    · simp only [send, List.append_assoc]
      exact List.prefix_append _ _
    · rw [hcan hle] at hno
      cases hno

/-- A candidate counts a vote. It leads if it has a majority then, and still stands if not. -/
theorem handleMessage_vote {votes : Finset NodeId} (sender : NodeId) (hs : Standing nd votes) :
    ∃ nd', nd.handleMessage sender (.requestVoteResponse (vote nd.currentTerm)) = .ok nd' ∧
      nd'.currentTerm = nd.currentTerm ∧ nd'.log = nd.log ∧ nd.history <+: nd'.history ∧
      (nd'.role = .kLeader ∨ Standing nd' (insert sender votes) ∧ nd'.incoming = nd.incoming ∧
        (insert sender votes).card * 2 ≤ nd.channels.length) := by
  have hobserve : nd.observeTerm (vote nd.currentTerm).currentTerm = nd :=
    observeTerm_eq_self (Nat.le_refl _)
  have hhandle : nd.handleMessage sender (.requestVoteResponse (vote nd.currentTerm)) =
      if nd.totalNodes + 1 ≤ (insert sender votes).card * 2 then
        { nd with candidateState := some { votes := insert sender votes } }.becomeLeader
      else .ok { nd with candidateState := some { votes := insert sender votes } } := by
    rw [handleMessage, handleRequestVoteResponse, hobserve]
    dsimp only
    rw [if_neg (not_not.2 hs.role), if_neg (by rw [vote]; exact Bool.noConfusion),
      if_neg (show ¬ (vote nd.currentTerm).candidateTerm ≠ nd.currentTerm from not_not.2 rfl),
      hs.candidateState]
    rfl
  rw [hhandle]
  split
  · cases hlead : { nd with
      candidateState := some { votes := insert sender votes } }.becomeLeader with
    | error e => exact absurd hlead (becomeLeader_ne_error (Nat.zero_lt_of_lt hs.committed))
    | ok nd' =>
      obtain ⟨l, rfl, -⟩ := becomeLeader_ok hlead
      refine ⟨_, rfl, ?_⟩
      rw [sendEach_eq]
      refine ⟨rfl, rfl, ?_, .inl rfl⟩
      rw [List.append_assoc]
      exact List.prefix_append _ _
  · next hfew =>
    refine ⟨_, rfl, rfl, rfl, List.prefix_refl _, .inr ⟨?_, rfl, ?_⟩⟩
    · exact ⟨hs.role, hs.votedFor, rfl, hs.committed⟩
    · rw [totalNodes] at hfew
      omega

end Node

/-! ## Whole ticks -/

namespace Process

open Node

variable {z : Hazard} {nd nd₁ nd₂ : Node}

/-- An action of the process. -/
def act (p : Process) (a : Action) : Option Process := p.step (.act a)

/-- By actions that the hazard does not mark the process becomes `p'`. -/
def Does (z : Hazard) (p p' : Process) : Prop := Reaches act (marks z) p p'

/-- The beginning of a tick. -/
theorem act_beginTick (h : Begins nd nd₁) : act { node := nd } .beginTick =
    some { node := nd₁
           ticking := some { asLeader := nd₁.role = .kLeader, todo := nd.incoming.messages } } := by
  obtain ⟨nd₀, hbegin, hinc, rfl⟩ := h
  simp only [act, step, hbegin, hinc]

/-- Beginning a tick is no hazard where the commit scan is none. -/
theorem marks_beginTick (hcommits : nd.role = .kLeader → z.commits nd.core = false) :
    marks z { node := nd } .beginTick = false := by
  rw [marks]
  by_cases hr : nd.role = .kLeader
  · rw [hcommits hr, Bool.and_false]
  · rw [decide_eq_false hr, Bool.false_and]

/-- A tick that has one message to handle. -/
theorem does_tick {m : NodeId × Message} (hbegins : Begins nd nd₁)
    (hm : nd.incoming.messages = [m]) (hhandle : nd₁.handleMessage m.1 m.2 = .ok nd₂)
    (hrole : nd₁.role ≠ .kLeader ∨ nd₂.role ≠ .kLeader)
    (hcommits : nd.role = .kLeader → z.commits nd.core = false)
    (hhandles : z.handles (nd₁.settle m.2).core m.1 m.2 = false) :
    Does z { node := nd } { node := nd₂ } := by
  have h1 := act_beginTick hbegins
  rw [hm] at h1
  have h2 : act { node := nd₁
                  ticking := some { asLeader := nd₁.role = .kLeader, todo := [m] } } .handle =
      some { node := nd₂, ticking := some { asLeader := nd₁.role = .kLeader, todo := [] } } := by
    simp only [act, step, hhandle]
  have hend : nd₂.endTick (nd₁.role = .kLeader) false = .ok nd₂ := by
    rcases hrole with hrole | hrole
    · rw [endTick, if_neg (by simpa using hrole)]
      rfl
    · rw [endTick, finishTickLeader, if_neg hrole]
      split <;> rfl
  have h3 : act { node := nd₂
                  ticking := some { asLeader := nd₁.role = .kLeader, todo := [] } }
      (.endTick false) = some { node := nd₂ } := by
    simp only [act, step, hend]
  refine (Reaches.single h1 (marks_beginTick hcommits)).trans
    ((Reaches.single h2 hhandles).trans (Reaches.single h3 ?_))
  rw [marks, Option.any_some]
  rcases hrole with hrole | hrole
  · rw [decide_eq_false hrole, Bool.false_and, Bool.false_and]
  · rw [decide_eq_false hrole, Bool.and_false, Bool.false_and]

/-- A tick of a node that does not lead, has nothing to handle and finds its timer expired. -/
theorem does_expire (hbegins : Begins nd nd₁) (hm : nd.incoming.messages = [])
    (hrole : nd.role ≠ .kLeader) (hrole₁ : nd₁.role ≠ .kLeader) :
    Does z { node := nd } { node := nd₁.becomeCandidate } := by
  have h1 := act_beginTick hbegins
  rw [hm] at h1
  have hend : nd₁.endTick (nd₁.role = .kLeader) true = .ok nd₁.becomeCandidate := by
    rw [endTick, if_neg (by simpa using hrole₁)]
    rfl
  have h2 : act { node := nd₁
                  ticking := some { asLeader := nd₁.role = .kLeader, todo := [] } }
      (.endTick true) = some { node := nd₁.becomeCandidate } := by
    simp only [act, step, hend]
  refine (Reaches.single h1 (marks_beginTick fun hr => absurd hr hrole)).trans
    (Reaches.single h2 ?_)
  rw [marks, Option.any_some, decide_eq_false hrole₁, Bool.false_and, Bool.false_and]

/-- A node that hears of a campaign of a later term follows, and votes for the candidate if this
one's log is at least as up to date as its own. -/
theorem hears (hz : z.SparesVotes) {sender : NodeId} {req : RequestVoteRequest}
    (hls : nd.role = .kLeader → nd.leaderState.isSome)
    (hcommits : nd.role = .kLeader → z.commits nd.core = false)
    (hsender : sender ∈ nd.channels) (hne : sender ≠ nd.myId) (hinc : nd.incoming = {})
    (hc : nd.commitIndex < nd.log.length) (ht : nd.currentTerm < req.candidateTerm) :
    ∃ nd', Does z { node := nd.addMessage sender (.requestVoteRequest req) } { node := nd' } ∧
      nd'.role = .kFollower ∧ nd'.currentTerm = req.candidateTerm ∧ nd'.log = nd.log ∧
      nd'.commitIndex < nd'.log.length ∧ nd'.incoming = {} ∧
      (nd.lastItem ≤ req.lastItem →
        Sends nd nd' sender (.requestVoteResponse (vote req.candidateTerm))) := by
  have hm : (nd.addMessage sender (.requestVoteRequest req)).incoming.messages =
      [(sender, .requestVoteRequest req)] := by
    rw [addMessage, hinc, messages_add]
  have hlast : ∀ {nd' : Node}, nd'.log = nd.log → nd'.lastItem = nd.lastItem := lastItem_congr
  obtain ⟨nd₁, hbegins, hst, hinc₁⟩ : ∃ nd₁,
      Begins (nd.addMessage sender (.requestVoteRequest req)) nd₁ ∧ Steady _ nd₁ ∧ _ :=
    exists_begins hls hc
  have ht₁ : nd₁.currentTerm < req.candidateTerm := hst.currentTerm ▸ ht
  obtain ⟨nd', hhandle, hr, hterm, hlog, hcommit, hinc', hhist, hvote⟩ :=
    handleMessage_campaign (hst.channels ▸ hsender) (hst.myId ▸ hne) ht₁
  have hsettle : (nd₁.settle (.requestVoteRequest req)).role = .kFollower := by
    rcases nd₁.observeTerm_cases req.candidateTerm with ⟨hle, -⟩ | ⟨-, heq⟩
    · exact absurd ht₁ (Nat.not_lt_of_le hle)
    · exact congrArg Node.role heq
  refine ⟨nd', does_tick hbegins hm hhandle (.inr (by rw [hr]; exact NodeState.noConfusion))
    hcommits (hz.request ?_), hr, hterm, hlog.trans hst.log, ?_, hinc'.trans hinc₁, fun hle => ?_⟩
  · exact hsettle ▸ NodeState.noConfusion
  · rw [hcommit, hlog]
    exact hst.committed
  · exact Sends.trans_right hst.history (hvote (hlast hst.log ▸ hle))

/-- A candidate counts a vote. -/
theorem counts (hz : z.SparesVotes) {sender : NodeId} {votes : Finset NodeId}
    (hs : Standing nd votes) (hm : nd.incoming.messages =
      [(sender, .requestVoteResponse (vote nd.currentTerm))]) :
    ∃ nd', Does z { node := nd } { node := nd' } ∧ nd'.currentTerm = nd.currentTerm ∧
      nd'.log = nd.log ∧ nd.history <+: nd'.history ∧
      (nd'.role = .kLeader ∨ Standing nd' (insert sender votes) ∧ nd'.incoming = {} ∧
        (insert sender votes).card * 2 ≤ nd.channels.length) := by
  have hr : nd.role ≠ .kLeader := hs.role ▸ NodeState.noConfusion
  obtain ⟨nd₁, hbegins, hst, hinc₁⟩ := exists_begins (fun h => absurd h hr) hs.committed
  have hs₁ : Standing nd₁ votes := hst.standing hs
  have hr₁ : nd₁.role ≠ .kLeader := hst.role ▸ hr
  obtain ⟨nd', hhandle, hterm, hlog, hhist, hends⟩ := handleMessage_vote sender hs₁
  rw [hst.currentTerm] at hhandle hterm
  have hsettle : nd₁.settle (.requestVoteResponse (vote nd.currentTerm)) = nd₁ :=
    observeTerm_eq_self (Nat.le_of_eq hst.currentTerm.symm)
  refine ⟨nd', does_tick hbegins hm hhandle (.inl hr₁) (fun h => absurd h hr) (hz.response ?_),
    hterm, hlog.trans hst.log, hst.history.trans hhist, ?_⟩
  · rw [hsettle]
    exact hr₁
  · exact hends.imp id fun h => ⟨h.1, h.2.1.trans hinc₁, hst.channels ▸ h.2.2⟩

/-- A node that does not lead stands for the next term, asks all members and votes for itself. -/
theorem stands (hz : z.SparesVotes) (hnodup : nd.channels.Nodup) (hme : nd.myId ∈ nd.channels)
    (hinc : nd.incoming = {}) (hc : nd.commitIndex < nd.log.length) (hrole : nd.role ≠ .kLeader) :
    ∃ nd' req, Does z { node := nd } { node := nd' } ∧ nd'.currentTerm = nd.currentTerm + 1 ∧
      nd'.log = nd.log ∧ req.candidateTerm = nd'.currentTerm ∧ req.lastItem = nd.lastItem ∧
      (∀ w ∈ nd.channels, Sends nd nd' w (.requestVoteRequest req)) ∧
      (nd'.role = .kLeader ∨ Standing nd' {nd.myId} ∧ nd'.incoming = {} ∧
        2 ≤ nd.channels.length) := by
  have hnot : ∀ {c : Node} {votes : Finset NodeId}, Standing c votes → c.role ≠ .kLeader :=
    fun hs => hs.role ▸ NodeState.noConfusion
  -- the timer expires
  obtain ⟨nd₁, hbegins, hst, hinc₁⟩ := exists_begins (fun h => absurd h hrole) hc
  have h₁ : Does z { node := nd } { node := nd₁.becomeCandidate } :=
    does_expire hbegins (by rw [hinc]; rfl) hrole (hst.role ▸ hrole)
  obtain ⟨hs, hterm, hlog, hmyId, hinc, hsends⟩ := becomeCandidate_standing
    (hst.channels ▸ hnodup) (by rw [hst.myId, hst.channels]; exact hme) hinc₁ hst.committed
  have hch : nd₁.becomeCandidate.channels = nd.channels := by
    rw [becomeCandidate_eq, sendEach_eq]
    exact hst.channels
  generalize nd₁.becomeCandidate = c at h₁ hs hterm hlog hmyId hinc hsends hch
  -- it handles its own request
  obtain ⟨c₁, hbegins₁, hst₁, hinc₁'⟩ := exists_begins (fun h => absurd h (hnot hs)) hs.committed
  obtain ⟨c₂, hhandle, hs₂, hterm₂, hlog₂, hch₂, hhist₂, hinc₂⟩ :=
    handleMessage_ballot (hst₁.standing hs)
      (by rw [hst₁.myId, hst₁.channels, hmyId, hst.myId, hch]; exact hme) hinc₁'
  have hm : c.incoming.messages = [(c₁.myId, .requestVoteRequest c₁.ballot)] := by
    rw [hinc, messages_add, hst₁.ballot, hst₁.myId, hmyId]
  have h₂ : Does z { node := c } { node := c₂ } := by
    refine does_tick hbegins₁ hm hhandle (.inl (hnot (hst₁.standing hs)))
      (fun h => absurd h (hnot hs)) (hz.request ?_)
    have hsettle : c₁.settle (.requestVoteRequest c₁.ballot) = c₁ :=
      observeTerm_eq_self (Nat.le_refl _)
    rw [hsettle]
    exact (hnot (hst₁.standing hs) : c₁.role ≠ .kLeader)
  -- and its own vote
  obtain ⟨nd', h₃, hterm', hlog', hhist', hends⟩ := counts hz hs₂
    (by rw [hinc₂, messages_add, hterm₂])
  have hsame : nd'.log = nd.log := by rw [hlog', hlog₂, hst₁.log, hlog, hst.log]
  have hballot : c.ballot.lastItem = nd.lastItem := by
    change c.lastItem = nd.lastItem
    exact lastItem_congr (hlog.trans hst.log)
  refine ⟨nd', c.ballot, h₁.trans (h₂.trans h₃), ?_, hsame, ?_, hballot, fun w hw => ?_, ?_⟩
  · rw [hterm', hterm₂, hst₁.currentTerm, hterm, hst.currentTerm]
  · change c.currentTerm = nd'.currentTerm
    rw [hterm', hterm₂, hst₁.currentTerm]
  · have hsent : Sends nd c w (.requestVoteRequest c.ballot) :=
      Sends.trans_right hst.history (hsends w (hst.channels ▸ hw))
    exact hsent.trans_left (hst₁.history.trans (hhist₂.trans hhist'))
  · have hid : c₁.myId = nd.myId := by rw [hst₁.myId, hmyId, hst.myId]
    have hone : insert c₁.myId (∅ : Finset NodeId) = {nd.myId} := by rw [hid, insert_empty_eq]
    rw [hone] at hends
    have hch₂ : c₂.channels = nd.channels := by
      rw [hch₂, hst₁.channels, hch]
    rw [hch₂] at hends
    exact hends

end Process

end ToFTDS.Consensus
