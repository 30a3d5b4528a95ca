import Mathlib.Logic.Relation
import ToFTDS.Consensus.NodeSteps

/-!
# The moves of a node

Everything a node does is a sequence of a few moves (`Node.Move`): it serves its clients and its
timer (`Node.Chore`), observes a larger term, commits, answers a request, counts a reply, stands for
election, is elected, sends entries, appends a command. Each handler and each end of a tick is such
a sequence, and so is each step of a process (`Process.step_moves`). A statement about all runs
is proved for one move; that the moves interleave with those of the other threads and nodes in more
ways than the code can do does no harm.

A move that handles a message says which one. `g` is what is known of the messages that the node
may handle, and a `Hazard` marks the moves that a statement has to leave out.
-/

namespace ToFTDS.Consensus

/-- The part of a node that its next move depends on, apart from its inboxes and queues. -/
def Node.core (nd : Node) : Node :=
  { nd with
    incoming := {}
    incomingCommands := []
    getPersistentCommandsReqs := []
    promises := 0
    queries := 0
    history := [] }

/-- The moves that a statement leaves out: the handling of a message, a commit, or the appending of
a command, by the state of the node. A hazard sees the node's `core` only. -/
structure Hazard where
  handles : Node → NodeId → Message → Bool := fun _ _ _ => false
  commits : Node → Bool := fun _ => false
  appends : Node → Bool := fun _ => false

namespace Hazard

/-- What either of two hazards marks. -/
def or (z z' : Hazard) : Hazard where
  handles nd sender msg := z.handles nd sender msg || z'.handles nd sender msg
  commits nd := z.commits nd || z'.commits nd
  appends nd := z.appends nd || z'.appends nd

/-- `z` marks no more than `z'`. -/
structure Le (z z' : Hazard) : Prop where
  handles : ∀ {nd sender msg}, z'.handles nd sender msg = false → z.handles nd sender msg = false
  commits : ∀ {nd}, z'.commits nd = false → z.commits nd = false
  appends : ∀ {nd}, z'.appends nd = false → z.appends nd = false

/-- The appending of one of the commands is marked. -/
def marksAppends (z : Hazard) : Node → List (Command × PromiseId) → Bool
  | _, [] => false
  | nd, command :: rest => z.appends nd.core || z.marksAppends (nd.addNewCommand command) rest

/-- The marks on a list of commands are read off the core. -/
theorem marksAppends_core (z : Hazard) (commands : List (Command × PromiseId)) {nd nd' : Node}
    (h : nd'.core = nd.core) : z.marksAppends nd' commands = z.marksAppends nd commands := by
  induction commands generalizing nd nd' with
  | nil => rfl
  | cons command commands ih =>
    simp only [marksAppends]
    rw [h, @ih (nd.addNewCommand command)]
    change (nd'.core.addNewCommand command).core = (nd.core.addNewCommand command).core
    rw [h]

/-- A hazard that concerns no append marks no list of commands. -/
theorem marksAppends_eq_false {z : Hazard} (hz : ∀ nd, z.appends nd = false) (nd : Node)
    (commands : List (Command × PromiseId)) : z.marksAppends nd commands = false := by
  induction commands generalizing nd with
  | nil => rfl
  | cons command commands ih => rw [marksAppends, hz, ih, Bool.or_false]

/-- A hazard marks no more than itself. -/
theorem Le.refl (z : Hazard) : Le z z := ⟨id, id, id⟩

/-- What is covered by the first of two hazards is covered by both together. -/
theorem Le.or_left {z z₁ z₂ : Hazard} (h : Le z z₁) : Le z (z₁.or z₂) :=
  ⟨fun h' => h.handles (Bool.or_eq_false_iff.1 h').1,
    fun h' => h.commits (Bool.or_eq_false_iff.1 h').1,
    fun h' => h.appends (Bool.or_eq_false_iff.1 h').1⟩

/-- What is covered by the second of two hazards is covered by both together. -/
theorem Le.or_right {z z₁ z₂ : Hazard} (h : Le z z₂) : Le z (z₁.or z₂) :=
  ⟨fun h' => h.handles (Bool.or_eq_false_iff.1 h').2,
    fun h' => h.commits (Bool.or_eq_false_iff.1 h').2,
    fun h' => h.appends (Bool.or_eq_false_iff.1 h').2⟩

end Hazard

/-- The term that a handler observes before anything else. -/
def Message.term : Message → Nat
  | .appendEntriesRequest req => req.leaderTerm
  | .appendEntriesResponse resp => resp.currentTerm
  | .requestVoteRequest req => req.candidateTerm
  | .requestVoteResponse resp => resp.currentTerm

namespace Node

/-- Notes what happened. -/
def note (nd : Node) (evs : List Event) : Node := { nd with history := nd.history ++ evs }

/-- What a node does for its clients, its timer and its inboxes. -/
inductive Chore : Node → Node → Prop
  | idle (nd : Node) (inc : Incoming) (reqs : List (QueryId × UInt64 × UInt64)) (queries : Nat)
      (evs : List Event) (h : ∀ e ∈ evs, e = .resetTimer) :
      Chore nd { nd with
        incoming := inc
        getPersistentCommandsReqs := reqs
        queries := queries
        history := nd.history ++ evs }
  | answer (nd : Node) (q : QueryId) (start maxCount : UInt64) (result : List Command)
      (h : nd.persistentCommands start maxCount = .ok result) :
      Chore nd (nd.emit (.setCommands q start maxCount result))
  | addCommand (nd : Node) (command : Command) : Chore nd (nd.addCommand command)
  | redirect (nd : Node) (leaderId : NodeId) : Chore nd (nd.redirectCommands leaderId)

/-- A chore is quiet. -/
theorem Chore.quiet {nd nd' : Node} (h : Chore nd nd') : Quiet nd nd' := by
  cases h with
  | idle inc reqs queries evs h =>
    refine { Quiet.refl nd with history := ⟨evs, rfl, fun e he => ?_⟩ }
    rw [h e he]
    rfl
  | answer q start maxCount result h => exact quiet_emit nd rfl
  | addCommand command => exact quiet_addCommand nd command
  | redirect leaderId => exact quiet_redirectCommands nd leaderId

/-- One move of a node that may handle the messages in `g`, unless `z` marks it. -/
inductive Move (z : Hazard) (g : NodeId → Message → Prop) : Node → Node → Prop
  | chore {nd nd' : Node} (h : Chore nd nd') : Move z g nd nd'
  | observe (nd : Node) (term : Nat) (h : nd.currentTerm < term) :
      Move z g nd { nd with
        currentTerm := term
        role := .kFollower
        votedFor := none
        candidateState := none
        leaderState := none }
  | commit (nd : Node) (ls : LeaderState) (id : Nat) (hr : nd.role = .kLeader)
      (hls : nd.leaderState = some ls) (hid : nd.idToCommit ls = some id)
      (hz : z.commits nd.core = false) :
      Move z g nd ({ (List.range' (nd.commitIndex + 1) (id - nd.commitIndex)).foldl resolve nd with
        commitIndex := id }.emit (.committed nd.currentTerm id nd.log))
  | refuseEntries (nd : Node) (sender : NodeId) (req : AppendEntriesRequest)
      (resp : AppendEntriesResponse) (hg : g sender (.appendEntriesRequest req))
      (hs : sender ∈ nd.channels) (ht : req.leaderTerm ≤ nd.currentTerm)
      (hresp : resp = { nd.appendEntriesUnsuccessfull with answers := req.leaderTerm }) :
      Move z g nd (nd.note
        [.answered sender req resp, .send sender (.appendEntriesResponse resp)])
  | acceptEntries (nd : Node) (sender : NodeId) (req : AppendEntriesRequest)
      (resp : AppendEntriesResponse) (hg : g sender (.appendEntriesRequest req))
      (hs : sender ∈ nd.channels) (ht : req.leaderTerm = nd.currentTerm)
      (hprev : ∃ item, nd.log[req.prevLogIndex]? = some item ∧ item.leaderTerm = req.prevLogTerm)
      (hz : z.handles nd.core sender (.appendEntriesRequest req) = false)
      (hresp : resp = { nd.appendEntriesSuccessfull (req.prevLogIndex + req.entries.length) with
        answers := req.leaderTerm }) :
      Move z g nd ((nd.accept req).note
        [.answered sender req resp, .send sender (.appendEntriesResponse resp)])
  | refuseVote (nd : Node) (sender : NodeId) (resp : RequestVoteResponse)
      (hs : sender ∈ nd.channels) (hresp : resp.voteGranted = false) :
      Move z g nd (nd.note [.send sender (.requestVoteResponse resp)])
  | grantVote (nd : Node) (sender : NodeId) (req : RequestVoteRequest)
      (hg : g sender (.requestVoteRequest req)) (hs : sender ∈ nd.channels)
      (ht : req.candidateTerm = nd.currentTerm) (hcan : nd.canVoteFor req = true)
      (hz : z.handles nd.core sender (.requestVoteRequest req) = false) :
      Move z g nd ({ nd with votedFor := some req.candidateId }.note [.voteGranted req nd.log,
        .send sender (.requestVoteResponse (nd.requestVoteSuccessfull req.candidateTerm))])
  | refused (nd : Node) (sender : NodeId) (resp : AppendEntriesResponse) (ls : LeaderState)
      (hg : g sender (.appendEntriesResponse resp)) (ht : resp.currentTerm ≤ nd.currentTerm)
      (hr : nd.role = .kLeader) (hls : nd.leaderState = some ls) (hs : resp.success = false)
      (hz : z.handles nd.core sender (.appendEntriesResponse resp) = false) :
      Move z g nd { nd with
        leaderState := some { ls with
          nextIndex := ls.nextIndex.set sender (decrement (ls.nextIndex.at sender)) } }
  | matched (nd : Node) (sender : NodeId) (resp : AppendEntriesResponse) (ls : LeaderState)
      (m : Nat) (hg : g sender (.appendEntriesResponse resp))
      (ht : resp.currentTerm ≤ nd.currentTerm) (hr : nd.role = .kLeader)
      (hls : nd.leaderState = some ls) (hs : resp.success = true)
      (hm : resp.matchedUntil = some m)
      (hz : z.handles nd.core sender (.appendEntriesResponse resp) = false) :
      Move z g nd { nd with
        leaderState := some
          { nextIndex := ls.nextIndex.set sender
              (max (ls.nextIndex.at sender) (max (ls.matchIndex.at sender) m + 1))
            matchIndex := ls.matchIndex.set sender (max (ls.matchIndex.at sender) m) } }
  | countVote (nd : Node) (sender : NodeId) (resp : RequestVoteResponse) (cs : CandidateState)
      (hg : g sender (.requestVoteResponse resp)) (hr : nd.role = .kCandidate)
      (hgr : resp.voteGranted = true) (ht : resp.candidateTerm = nd.currentTerm)
      (hcs : nd.candidateState = some cs) :
      Move z g nd { nd with candidateState := some { votes := insert sender cs.votes } }
  | becomeLeader (nd : Node) (cs : CandidateState) (hr : nd.role = .kCandidate)
      (hcs : nd.candidateState = some cs) (hmaj : nd.channels.length + 1 ≤ cs.votes.card * 2) :
      Move z g nd ({ nd with
        votedFor := none
        candidateState := none
        leaderState := some nd.initialLeaderState
        role := .kLeader }.note [.becameLeader nd.currentTerm nd.log])
  | sendEntries (nd : Node) (whom : NodeId) (req : AppendEntriesRequest) (hr : nd.role = .kLeader)
      (hw : whom ∈ nd.channels) (hb : nd.Builds req) :
      Move z g nd (nd.note [.send whom (.appendEntriesRequest req)])
  | append (nd : Node) (command : Command × PromiseId) (rest : List (Command × PromiseId))
      (hr : nd.role = .kLeader) (hc : nd.incomingCommands = command :: rest)
      (hz : z.appends nd.core = false) :
      Move z g nd ({ nd with incomingCommands := rest }.addNewCommand command)
  | stand (nd : Node) :
      Move z g nd ({ nd with
        currentTerm := nd.currentTerm + 1
        votedFor := some nd.myId
        role := .kCandidate
        candidateState := some {}
        leaderState := none }.note (.resetTimer :: nd.channels.map fun id => .send id
          (.requestVoteRequest
            { candidateTerm := nd.currentTerm + 1
              candidateId := nd.myId
              candidateLastLogIndex := nd.getLastLogIndex
              candidateLastLogTerm := nd.getLastLogTerm })))

/-- A sequence of moves. -/
def Moves (z : Hazard) (g : NodeId → Message → Prop) : Node → Node → Prop :=
  Relation.ReflTransGen (Move z g)

section
variable {z : Hazard} {g : NodeId → Message → Prop} {nd nd₁ nd' : Node}

/-- Every node is reached from itself, without a move. -/
theorem Moves.refl : Moves z g nd nd := Relation.ReflTransGen.refl

/-- Sequences of moves compose. -/
theorem Moves.trans (h : Moves z g nd nd₁) (h' : Moves z g nd₁ nd') : Moves z g nd nd' :=
  Relation.ReflTransGen.trans h h'

/-- One move is a sequence of moves. -/
theorem Move.moves (h : Move z g nd nd') : Moves z g nd nd' := Relation.ReflTransGen.single h

/-- One chore is a sequence of moves. -/
theorem Chore.moves (h : Chore nd nd') : Moves z g nd nd' := (Move.chore h).moves

/-- Whatever happens to the inboxes is a chore. -/
theorem moves_incoming (nd : Node) (inc : Incoming) : Moves z g nd { nd with incoming := inc } := by
  have h := Chore.idle nd inc nd.getPersistentCommandsReqs nd.queries [] (by simp)
  rw [List.append_nil] at h
  exact h.moves

/-- Resetting the timer is a chore. -/
theorem moves_resetElectionTimer (nd : Node) : Moves z g nd nd.resetElectionTimer :=
  (Chore.idle nd nd.incoming nd.getPersistentCommandsReqs nd.queries [.resetTimer] (by simp)).moves

/-- Sending is noting it, and a chore. -/
theorem moves_send {nd₁ : Node} {whom : NodeId} {msg : Message}
    (h : Move z g nd (nd₁.note [.send whom msg])) : Moves z g nd (nd₁.send whom msg) :=
  h.moves.trans (moves_incoming _ _)

/-- Sending after an event is noting both, and a chore. -/
theorem moves_emit_send {nd₁ : Node} {e : Event} {whom : NodeId} {msg : Message}
    (h : Move z g nd (nd₁.note [e, .send whom msg])) :
    Moves z g nd ((nd₁.emit e).send whom msg) := by
  have heq : (nd₁.emit e).send whom msg =
      { nd₁.note [e, .send whom msg] with incoming := ((nd₁.emit e).send whom msg).incoming } := by
    simp [note, send, emit]
  rw [heq]
  exact h.moves.trans (moves_incoming _ _)

/-- Observing a term is a move if the term is higher, and nothing otherwise. -/
theorem moves_observeTerm (nd : Node) (term : Nat) : Moves z g nd (nd.observeTerm term) := by
  rcases nd.observeTerm_cases term with ⟨-, heq⟩ | ⟨hlt, heq⟩ <;> rw [heq]
  · exact Moves.refl
  · exact (Move.observe nd term hlt).moves.trans (moves_resetElectionTimer _)

/-- A leader sends requests that it builds from its log one by one. -/
theorem moves_sendEach (l : List (NodeId × Message)) (nd : Node) (hr : nd.role = .kLeader)
    (h : ∀ x ∈ l, x.1 ∈ nd.channels ∧ ∃ req, nd.Builds req ∧ x.2 = .appendEntriesRequest req) :
    Moves z g nd (nd.sendEach l) := by
  induction l generalizing nd with
  | nil => exact Moves.refl
  | cons x l ih =>
    obtain ⟨⟨whom, msg⟩, rfl⟩ : ∃ y, y = x := ⟨x, rfl⟩
    obtain ⟨hw, req, hb, rfl⟩ := h _ List.mem_cons_self
    refine (moves_send (Move.sendEntries nd whom req hr hw hb)).trans (ih _ hr ?_)
    intro x hx
    obtain ⟨hw', req', hb', heq⟩ := h x (List.mem_cons_of_mem _ hx)
    exact ⟨hw', req', ⟨hb'.1, hb'.2, hb'.3, hb'.4, hb'.5⟩, heq⟩

/-- Becoming the leader is one move, and a move for each heartbeat. -/
theorem moves_becomeLeader {cs : CandidateState} (hr : nd.role = .kCandidate)
    (hcs : nd.candidateState = some cs) (hmaj : nd.channels.length + 1 ≤ cs.votes.card * 2)
    (h : nd.becomeLeader = .ok nd') : Moves z g nd nd' := by
  obtain ⟨l, rfl, hl⟩ := becomeLeader_ok h
  refine (Move.becomeLeader nd cs hr hcs hmaj).moves.trans (moves_sendEach l _ rfl ?_)
  intro x hx
  obtain ⟨hm, req, hb, heq⟩ := hl x hx
  exact ⟨hm, req, ⟨hb.1, hb.2, hb.3, hb.4, hb.5⟩, heq⟩

/-- Becoming a candidate is one move. -/
theorem moves_becomeCandidate (nd : Node) : Moves z g nd nd.becomeCandidate := by
  have h := (Move.stand (z := z) (g := g) nd).moves.trans
    (moves_incoming _ nd.becomeCandidate.incoming)
  convert h using 1
  rw [becomeCandidate_eq, sendEach_eq]
  simp [note, List.map_map, Function.comp_def]

/-! ## What every move keeps -/

/-- A node later in its life: it is the same one, its term has not gone down, and it has forgotten
nothing. -/
structure Later (nd nd' : Node) : Prop where
  myId : nd'.myId = nd.myId
  channels : nd'.channels = nd.channels
  currentTerm : nd.currentTerm ≤ nd'.currentTerm
  history : nd.history <+: nd'.history

/-- A node is as late as itself. -/
theorem Later.refl (nd : Node) : Later nd nd := ⟨rfl, rfl, Nat.le_refl _, List.prefix_refl _⟩

/-- What is later than a later node is later. -/
theorem Later.trans (h : Later nd nd₁) (h' : Later nd₁ nd') : Later nd nd' :=
  ⟨h'.myId.trans h.myId, h'.channels.trans h.channels, Nat.le_trans h.currentTerm h'.currentTerm,
    h.history.trans h'.history⟩

/-- A quiet change leads to a later node. -/
theorem Quiet.later (h : Quiet nd nd') : Later nd nd' where
  myId := h.myId
  channels := h.channels
  currentTerm := Nat.le_of_eq h.currentTerm.symm
  history := by
    obtain ⟨evs, heq, -⟩ := h.history
    exact ⟨evs, heq.symm⟩

/-- A move leads to a later node. -/
theorem Move.later (h : Move z g nd nd') : Later nd nd' := by
  cases h with
  | chore h => exact h.quiet.later
  | observe term h => exact ⟨rfl, rfl, Nat.le_of_lt h, List.prefix_refl _⟩
  | commit ls id =>
    have hq := (quiet_foldl_resolve
      (List.range' (nd.commitIndex + 1) (id - nd.commitIndex)) nd).later
    exact ⟨hq.myId, hq.channels, hq.currentTerm, hq.history.trans (List.prefix_append _ _)⟩
  | acceptEntries sender req resp =>
    exact ⟨rfl, rfl, Nat.le_refl _, (List.prefix_append _ _).trans (List.prefix_append _ _)⟩
  | refused | matched | countVote => exact ⟨rfl, rfl, Nat.le_refl _, List.prefix_refl _⟩
  | append command rest =>
    exact ⟨rfl, rfl, Nat.le_refl _, (List.prefix_append _ _).trans (List.prefix_append _ _)⟩
  | stand => exact ⟨rfl, rfl, Nat.le_succ _, List.prefix_append _ _⟩
  | _ => exact ⟨rfl, rfl, Nat.le_refl _, List.prefix_append _ _⟩

/-- A sequence of moves leads to a later node. -/
theorem Moves.later (h : Moves z g nd nd') : Later nd nd' := by
  induction h with
  | refl => exact Later.refl nd
  | tail _ h ih => exact ih.trans h.later

/-- What has been added to the history is not of the kind `p`. -/
def NoNew (p : Event → Bool) (nd nd' : Node) : Prop :=
  ∃ evs, nd'.history = nd.history ++ evs ∧ ∀ e ∈ evs, p e = false

section
variable {p : Event → Bool}

/-- An event of the kind was in the history before. -/
theorem NoNew.mem (h : NoNew p nd nd') {e : Event} (he : e ∈ nd'.history) (hp : p e = true) :
    e ∈ nd.history := by
  obtain ⟨evs, heq, hevs⟩ := h
  rw [heq, List.mem_append] at he
  rcases he with he | he
  · exact he
  · rw [hevs e he] at hp
    cases hp

/-- Nothing of the kind has been added, so there is as much of it as before. -/
theorem NoNew.countP {r : Event → Bool} (h : NoNew p nd nd')
    (hr : ∀ e, r e = true → p e = true) : nd'.history.countP r = nd.history.countP r := by
  obtain ⟨evs, heq, hevs⟩ := h
  have hzero : evs.countP r = 0 := by
    refine List.countP_eq_zero.2 fun e he hre => ?_
    have := hr e hre
    rw [hevs e he] at this
    cases this
  rw [heq, List.countP_append, hzero, Nat.add_zero]

/-- The history has only grown. -/
theorem NoNew.isPrefix (h : NoNew p nd nd') : nd.history <+: nd'.history := by
  obtain ⟨evs, heq, -⟩ := h
  exact ⟨evs, heq.symm⟩

/-- Adding nothing of the kind twice adds nothing of the kind. -/
theorem NoNew.trans (h : NoNew p nd nd₁) (h' : NoNew p nd₁ nd') : NoNew p nd nd' := by
  obtain ⟨evs, h1, h2⟩ := h
  obtain ⟨evs', h1', h2'⟩ := h'
  refine ⟨evs ++ evs', by rw [h1', h1, List.append_assoc], fun e he => ?_⟩
  rcases List.mem_append.1 he with he | he
  · exact h2 e he
  · exact h2' e he

/-- A history that is the same has nothing new. -/
theorem noNew_of_history_eq (h : nd'.history = nd.history) : NoNew p nd nd' :=
  ⟨[], by rw [h, List.append_nil], by simp⟩

/-- Noting events of other kinds adds nothing of the kind. -/
theorem noNew_note {evs : List Event} (h : ∀ e ∈ evs, p e = false) : NoNew p nd (nd.note evs) :=
  ⟨evs, rfl, h⟩

/-- What is quiet is of no kind that the protocol cares for. -/
theorem Quiet.noNew (hp : ∀ e : Event, e.quiet = true → p e = false) (h : Quiet nd nd') :
    NoNew p nd nd' := by
  obtain ⟨evs, heq, hevs⟩ := h.history
  exact ⟨evs, heq, fun e he => hp e (hevs e he)⟩

/-- Redirecting commands answers promises with a leader, and no more. -/
theorem noNew_redirectCommands (h : ∀ q id, p (.setValue q { leaderId := some id }) = false)
    (nd : Node) (leaderId : NodeId) : NoNew p nd (nd.redirectCommands leaderId) := by
  unfold redirectCommands
  split
  · refine ⟨_, rfl, fun e he => ?_⟩
    obtain ⟨c, -, rfl⟩ := List.mem_map.1 he
    exact h _ _
  · exact noNew_of_history_eq rfl

/-- What happens in a chore: a timer is reset, a query answered, a command queued, or answered with
the id of a leader. -/
theorem Chore.noNew (h : Chore nd nd') (ht : p .resetTimer = false)
    (hc : ∀ q start count result, p (.setCommands q start count result) = false)
    (ha : ∀ q command, p (.addCommand q command) = false)
    (hr : ∀ q id, p (.setValue q { leaderId := some id }) = false) : NoNew p nd nd' := by
  cases h with
  | idle inc reqs queries evs h =>
    refine ⟨evs, rfl, fun e he => ?_⟩
    rw [h e he, ht]
  | answer => exact ⟨[_], rfl, by simp [hc]⟩
  | addCommand command => exact ⟨[_], rfl, by simp [ha]⟩
  | redirect leaderId => exact noNew_redirectCommands hr nd leaderId

/-- Resolving indices answers promises as persisted, and no more. -/
theorem noNew_foldl_resolve (hs : ∀ q, p (.setValue q {}) = false) (l : List Nat) (nd : Node) :
    NoNew p nd (l.foldl resolve nd) := by
  induction l generalizing nd with
  | nil => exact noNew_of_history_eq rfl
  | cons i l ih =>
    refine NoNew.trans ?_ (ih (nd.resolve i))
    unfold resolve
    split
    · exact noNew_note (by simp [hs])
    · exact noNew_of_history_eq rfl

/-- A commit answers promises and records itself, and no more. -/
theorem noNew_commit (hs : ∀ q, p (.setValue q {}) = false)
    (hp : ∀ t i l, p (.committed t i l) = false) (l : List Nat) (nd : Node) (t i : Nat)
    (log : Log) :
    NoNew p nd ({ l.foldl resolve nd with commitIndex := i }.emit (.committed t i log)) :=
  (noNew_foldl_resolve hs l nd).trans
    (noNew_note (by simpa using hp t i log) : NoNew p _ (Node.note _ [.committed t i log]))

/-- Accepting entries records at most that the log was cut. -/
theorem noNew_accept (hp : ∀ n, p (.resized n) = false) (nd : Node) (req : AppendEntriesRequest) :
    NoNew p nd (nd.accept req) := by
  refine ⟨_, rfl, fun e he => ?_⟩
  obtain ⟨n, -, rfl⟩ := List.mem_map.1 he
  exact hp n

/-- Appending a command may destroy a promise. -/
theorem noNew_addNewCommand (hb : ∀ q, p (.brokenPromise q) = false)
    (hp : ∀ q i item, p (.appended q i item) = false) (nd : Node)
    (command : Command × PromiseId) : NoNew p nd (nd.addNewCommand command) := by
  refine ⟨_, List.append_assoc _ _ _, fun e he => ?_⟩
  rcases List.mem_append.1 he with he | he
  · split at he
    · cases List.mem_singleton.1 he
      exact hb _
    · cases he
  · cases List.mem_singleton.1 he
    exact hp _ _ _

end

/-- What a move sends goes to a channel of the node. -/
theorem Move.targets (h : Move z g nd nd') {whom : NodeId} {msg : Message}
    (hm : .send whom msg ∈ nd'.history) : .send whom msg ∈ nd.history ∨ whom ∈ nd.channels := by
  cases h with
  | chore h => exact .inl ((h.quiet.mem_history rfl).1 hm)
  | observe | refused | matched | countVote => exact .inl hm
  | commit ls id =>
    have hq := quiet_foldl_resolve (List.range' (nd.commitIndex + 1) (id - nd.commitIndex)) nd
    left
    simpa [emit, hq.mem_history (e := .send whom msg) rfl] using hm
  | refuseEntries sender req resp hg hs =>
    simp only [note, List.mem_append, List.mem_cons, reduceCtorEq, false_or, Event.send.injEq,
      List.not_mem_nil, or_false] at hm
    rcases hm with hm | ⟨rfl, -⟩
    · exact .inl hm
    · exact .inr hs
  | acceptEntries sender req resp hg hs =>
    simp only [note, accept, List.mem_append, List.mem_map, reduceCtorEq, and_false, exists_false,
      or_false, List.mem_cons, false_or, Event.send.injEq, List.not_mem_nil] at hm
    rcases hm with hm | ⟨rfl, -⟩
    · exact .inl hm
    · exact .inr hs
  | refuseVote sender resp hs =>
    simp only [note, List.mem_append, List.mem_singleton, Event.send.injEq] at hm
    rcases hm with hm | ⟨rfl, -⟩
    · exact .inl hm
    · exact .inr hs
  | grantVote sender req hg hs =>
    simp only [note, List.mem_append, List.mem_cons, reduceCtorEq, false_or, Event.send.injEq,
      List.not_mem_nil, or_false] at hm
    rcases hm with hm | ⟨rfl, -⟩
    · exact .inl hm
    · exact .inr hs
  | becomeLeader cs =>
    left
    simpa [note] using hm
  | sendEntries whom' req hr hw =>
    simp only [note, List.mem_append, List.mem_singleton, Event.send.injEq] at hm
    rcases hm with hm | ⟨rfl, -⟩
    · exact .inl hm
    · exact .inr hw
  | append command rest =>
    left
    simp only [addNewCommand, List.mem_append, List.mem_singleton, reduceCtorEq, or_false] at hm
    rcases hm with hm | hm
    · exact hm
    · split at hm <;> simp at hm
  | stand =>
    simp only [note, List.mem_append, List.mem_cons, reduceCtorEq, false_or, List.mem_map,
      Event.send.injEq] at hm
    rcases hm with hm | ⟨id, hid, rfl, -⟩
    · exact .inl hm
    · exact .inr hid

/-- More messages to handle allow more moves. -/
theorem Move.mono {g' : NodeId → Message → Prop} (hmono : ∀ j msg, g j msg → g' j msg)
    (h : Move z g nd nd') : Move z g' nd nd' := by
  cases h with
  | chore h => exact .chore h
  | observe term h => exact .observe nd term h
  | commit ls id hr hls hid hz => exact .commit nd ls id hr hls hid hz
  | refuseEntries sender req resp hg hs ht hresp =>
    exact .refuseEntries nd sender req resp (hmono _ _ hg) hs ht hresp
  | acceptEntries sender req resp hg hs ht hprev hz hresp =>
    exact .acceptEntries nd sender req resp (hmono _ _ hg) hs ht hprev hz hresp
  | refuseVote sender resp hs hresp => exact .refuseVote nd sender resp hs hresp
  | grantVote sender req hg hs ht hcan hz =>
    exact .grantVote nd sender req (hmono _ _ hg) hs ht hcan hz
  | refused sender resp ls hg ht hr hls hs hz =>
    exact .refused nd sender resp ls (hmono _ _ hg) ht hr hls hs hz
  | matched sender resp ls m hg ht hr hls hs hm hz =>
    exact .matched nd sender resp ls m (hmono _ _ hg) ht hr hls hs hm hz
  | countVote sender resp cs hg hr hgr ht hcs =>
    exact .countVote nd sender resp cs (hmono _ _ hg) hr hgr ht hcs
  | becomeLeader cs hr hcs hmaj => exact .becomeLeader nd cs hr hcs hmaj
  | sendEntries whom req hr hw hb => exact .sendEntries nd whom req hr hw hb
  | append command rest hr hc hz => exact .append nd command rest hr hc hz
  | stand => exact .stand nd

/-! ## Handlers -/

/-- The node when a handler has observed the term of its message. -/
def settle (nd : Node) (msg : Message) : Node := nd.observeTerm msg.term

/-- Handling an AppendEntriesRequest and answering it is a sequence of moves. -/
theorem moves_appendEntriesRequest {sender : NodeId} {req : AppendEntriesRequest}
    (hg : g sender (.appendEntriesRequest req)) (hs : sender ∈ nd.channels)
    (hz : z.handles (nd.observeTerm req.leaderTerm).core sender (.appendEntriesRequest req) = false)
    {resp : AppendEntriesResponse}
    (hresp : resp = { (nd.handleAppendEntriesRequest req).1 with answers := req.leaderTerm }) :
    Moves z g nd (((nd.handleAppendEntriesRequest req).2.emit (.answered sender req resp)).send
      sender (.appendEntriesResponse resp)) := by
  have hbefore : Moves z g nd (nd.beforeEntries req) :=
    (moves_observeTerm nd _).trans (moves_resetElectionTimer _)
  have hredirect := hbefore.trans (Chore.redirect _ req.leaderId).moves
  have hq := quiet_redirectCommands (nd.beforeEntries req) req.leaderId
  have hch : (nd.beforeEntries req).channels = nd.channels :=
    (grows_observeTerm nd req.leaderTerm).channels
  rw [← hch] at hs
  rcases nd.handleAppendEntriesRequest_cases req with
    ⟨hlt, heq⟩ | ⟨ht, -, heq⟩ | ⟨ht, hprev, heq⟩ <;> rw [heq] at hresp ⊢
  · exact hbefore.trans
      (moves_emit_send (.refuseEntries _ sender req resp hg hs (Nat.le_of_lt hlt) hresp))
  · refine hredirect.trans
      (moves_emit_send (.refuseEntries _ sender req resp hg (hq.channels ▸ hs) ?_ hresp))
    rw [hq.currentTerm]
    exact Nat.le_of_eq ht
  · refine hredirect.trans (moves_emit_send (.acceptEntries _ sender req resp hg (hq.channels ▸ hs)
      (hq.currentTerm ▸ ht) (hq.log ▸ hprev) ?_ hresp))
    convert hz using 2
    unfold redirectCommands
    split <;> rfl

/-- Handling a RequestVoteRequest and answering it is a sequence of moves. -/
theorem moves_requestVoteRequest {sender : NodeId} {req : RequestVoteRequest}
    (hg : g sender (.requestVoteRequest req)) (hs : sender ∈ nd.channels)
    (hz : z.handles (nd.observeTerm req.candidateTerm).core sender (.requestVoteRequest req)
      = false) :
    Moves z g nd ((nd.handleRequestVoteRequest req).2.send sender
      (.requestVoteResponse (nd.handleRequestVoteRequest req).1)) := by
  have hobs : Moves z g nd (nd.observeTerm req.candidateTerm) := moves_observeTerm nd _
  rw [← (grows_observeTerm nd req.candidateTerm).channels] at hs
  rcases nd.handleRequestVoteRequest_cases req with
    ⟨-, heq⟩ | ⟨ht, hcan, heq⟩ | ⟨-, -, heq⟩ <;> rw [heq]
  · exact hobs.trans (moves_send (.refuseVote _ sender _ hs rfl))
  · exact hobs.trans (moves_emit_send (.grantVote _ sender req hg hs ht hcan hz))
  · exact hobs.trans (moves_send (.refuseVote _ sender _ hs rfl))

/-- Handling an AppendEntriesResponse is a sequence of moves. -/
theorem moves_appendEntriesResponse {sender : NodeId} {resp : AppendEntriesResponse}
    (hg : g sender (.appendEntriesResponse resp))
    (hz : z.handles (nd.observeTerm resp.currentTerm).core sender (.appendEntriesResponse resp)
      = false)
    (h : nd.handleAppendEntriesResponse resp sender = .ok nd') : Moves z g nd nd' := by
  have hobs : Moves z g nd (nd.observeTerm resp.currentTerm) := moves_observeTerm nd _
  have hle := nd.le_observeTerm resp.currentTerm
  rcases handleAppendEntriesResponse_ok h with
    ⟨-, rfl⟩ | ⟨hr, ls, hls, ⟨hs, rfl⟩ | ⟨hs, m, hm, rfl⟩⟩
  · exact hobs
  · exact hobs.trans (Move.refused _ sender resp ls hg hle hr hls hs hz).moves
  · exact hobs.trans (Move.matched _ sender resp ls m hg hle hr hls hs hm hz).moves

/-- Handling a RequestVoteResponse is a sequence of moves. -/
theorem moves_requestVoteResponse {sender : NodeId} {resp : RequestVoteResponse}
    (hg : g sender (.requestVoteResponse resp))
    (h : nd.handleRequestVoteResponse resp sender = .ok nd') : Moves z g nd nd' := by
  have hobs : Moves z g nd (nd.observeTerm resp.currentTerm) := moves_observeTerm nd _
  rcases handleRequestVoteResponse_ok h with
    rfl | ⟨hr, hgr, ht, cs, hcs, rfl | ⟨hmaj, hlead⟩⟩
  · exact hobs
  · exact hobs.trans (Move.countVote _ sender resp cs hg hr hgr ht hcs).moves
  · exact (hobs.trans (Move.countVote _ sender resp cs hg hr hgr ht hcs).moves).trans
      (moves_becomeLeader hr rfl hmaj hlead)

/-- The handling of a message is a sequence of moves. -/
theorem moves_handleMessage {sender : NodeId} {msg : Message} (hg : g sender msg)
    (hz : z.handles (nd.settle msg).core sender msg = false)
    (h : nd.handleMessage sender msg = .ok nd') : Moves z g nd nd' := by
  rcases handleMessage_ok h with
    ⟨req, resp, rfl, hs, hresp, rfl⟩ | ⟨req, rfl, hs, rfl⟩ | ⟨resp, rfl, h⟩ | ⟨resp, rfl, h⟩
  · exact moves_appendEntriesRequest hg hs hz hresp
  · exact moves_requestVoteRequest hg hs hz
  · exact moves_appendEntriesResponse hg hz h
  · exact moves_requestVoteResponse hg h

/-! ## The beginning and the end of a tick -/

/-- Answering the queries is a sequence of moves that touches neither the core nor the inboxes. -/
theorem moves_handleGetPersistentCommandRequests
    (h : nd.handleGetPersistentCommandRequests = .ok nd') :
    Moves z g nd nd' ∧ nd'.core = nd.core ∧ nd'.incoming = nd.incoming := by
  have loop : ∀ (reqs : List (QueryId × UInt64 × UInt64)) (nd nd' : Node),
      reqs.foldlM (fun nd req => do
        let result ← nd.persistentCommands req.2.1 req.2.2
        return nd.emit (.setCommands req.1 req.2.1 req.2.2 result)) nd = .ok nd' →
      Moves z g nd nd' ∧ nd'.core = nd.core ∧ nd'.incoming = nd.incoming := by
    intro reqs
    induction reqs with
    | nil =>
      intro nd nd' h
      cases h
      exact ⟨Moves.refl, rfl, rfl⟩
    | cons req reqs ih =>
      intro nd nd' h
      rw [List.foldlM_cons] at h
      obtain ⟨nd₁, h1, h2⟩ := bind_eq_ok.1 h
      obtain ⟨result, hr, h1⟩ := bind_eq_ok.1 h1
      cases h1
      obtain ⟨hm, hc, hi⟩ := ih _ _ h2
      exact ⟨(Chore.answer nd _ _ _ result hr).moves.trans hm, hc, hi⟩
  obtain ⟨hm, hc, hi⟩ := loop _ _ _ h
  have hq := Chore.idle nd nd.incoming [] nd.queries [] (by simp)
  rw [List.append_nil] at hq
  exact ⟨hq.moves.trans hm, hc, hi⟩

/-- Beginning a tick is a sequence of moves. -/
theorem moves_beginTick (hz : nd.role = .kLeader → z.commits nd.core = false)
    (h : nd.beginTick = .ok nd') : Moves z g nd nd' := by
  obtain ⟨nd₁, h1, h2⟩ := bind_eq_ok.1 h
  obtain ⟨hm, hcore, -⟩ := moves_handleGetPersistentCommandRequests (z := z) (g := g) h1
  have hrole : nd₁.core.role = nd.core.role := by rw [hcore]
  split at h2
  · next hr =>
    rcases commitIfPossible_ok h2 with rfl | ⟨ls, id, hls, hid, rfl⟩
    · exact hm
    · exact hm.trans (Move.commit nd₁ ls id hr hls hid (by rw [hcore]; exact hz (hrole ▸ hr))).moves
  · cases h2
    exact hm

/-- A leader appends the commands one by one. -/
theorem moves_foldl_addNewCommand (commands : List (Command × PromiseId)) (nd : Node)
    (hr : nd.role = .kLeader) (hz : z.marksAppends nd commands = false) :
    Moves z g { nd with incomingCommands := commands }
      (commands.foldl addNewCommand { nd with incomingCommands := [] }) := by
  induction commands generalizing nd with
  | nil => exact Moves.refl
  | cons command commands ih =>
    simp only [Hazard.marksAppends, Bool.or_eq_false_iff] at hz
    refine (Move.append { nd with incomingCommands := command :: commands } command commands hr
      rfl hz.1).moves.trans ?_
    refine ih ({ nd with incomingCommands := commands }.addNewCommand command) hr ?_
    rw [← hz.2]
    exact z.marksAppends_core commands rfl

/-- Ending a tick is a sequence of moves. -/
theorem moves_endTick {asLeader expired : Bool}
    (hz : asLeader = true → nd.role = .kLeader → z.marksAppends nd nd.incomingCommands = false)
    (h : nd.endTick asLeader expired = .ok nd') : Moves z g nd nd' := by
  unfold endTick at h
  split at h
  · next has =>
    unfold finishTickLeader at h
    split at h
    · next hr =>
      obtain ⟨nd₁, h1, h2⟩ := bind_eq_ok.1 h
      cases h2
      obtain ⟨l, rfl, hl⟩ := sendAppendEntriesToAll_ok hr h1
      refine (moves_sendEach l nd hr hl).trans ?_
      have heq := sendEach_eq l nd
      have hr' : (nd.sendEach l).role = .kLeader := by rw [heq]; exact hr
      have hc : (nd.sendEach l).incomingCommands = nd.incomingCommands := by rw [heq]
      refine moves_foldl_addNewCommand (nd.sendEach l).incomingCommands (nd.sendEach l) hr' ?_
      rw [hc, ← hz has hr]
      exact z.marksAppends_core _ (by rw [heq]; rfl)
    · cases h
      exact Moves.refl
  · cases h
    unfold finishTickFollower
    split
    · exact moves_becomeCandidate nd
    · exact Moves.refl

end

end Node

end ToFTDS.Consensus
