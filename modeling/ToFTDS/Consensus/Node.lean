import Mathlib.Data.List.Sort
import ToFTDS.Consensus.State

/-!
# The node

`Node` of `node.h` and `node.cpp`, method by method, as functions on an explicit state. A method
that can dereference an empty optional, index past the log or look up an unknown channel returns in
`Except Fault`; the others are total.

What a node does to the outside (messages on channels, timer resets, answered promises) is kept in
order in the ghost field `history`, together with marks at the places that statements about runs
talk about: entering `BecomeLeader`, granting a vote, committing, appending a client's command,
shrinking the log. No method reads it.

A promise of `AddCommand` is named by a number, in the order of the calls. The timer is not part of
the state: `IsExpired` may answer anything at each call, so its answer is an argument of the step
that asks.
-/

namespace ToFTDS.Consensus

/-- The number of an `AddCommand` call, which names its promise. -/
abbrev PromiseId := Nat

/-- The number of a `GetPersistentCommands` call, which names its promise. -/
abbrev QueryId := Nat

/-- What a node has done, for statements about runs. -/
inductive Event where
  /-- `channels_.at(whom)->Send(my_id_, msg)`. -/
  | send (whom : NodeId) (msg : Message)
  /-- `election_timeout_->Reset()`. -/
  | resetTimer
  /-- `AddCommand(command)` made the promise `p`. -/
  | addCommand (p : PromiseId) (command : Command)
  /-- `set_value(result)` on the promise `p`. -/
  | setValue (p : PromiseId) (result : AddCommandResult)
  /-- The promise `p` was destroyed without a value. -/
  | brokenPromise (p : PromiseId)
  /-- `set_value(result)` on the promise of a `GetPersistentCommands(from, maxCount)`. -/
  | setCommands (q : QueryId) (start maxCount : UInt64) (result : List Command)
  /-- `AddNewCommandsToLog` put `item` at `index` for the promise `p`. -/
  | appended (p : PromiseId) (index : Nat) (item : LogItem)
  /-- `log.resize(size)`. -/
  | resized (size : Nat)
  /-- `HandleAppendEntriesRequest(req)` from `sender` returned `resp`. -/
  | answered (sender : NodeId) (req : AppendEntriesRequest) (resp : AppendEntriesResponse)
  /-- `HandleRequestVoteRequest(req)` granted the vote, with `log` the voter's log. -/
  | voteGranted (req : RequestVoteRequest) (log : Log)
  /-- `BecomeLeader` was entered in `term` with `log`. -/
  | becameLeader (term : Nat) (log : Log)
  /-- `CommitIfPossible` set the commit index to `index`, in `term` with `log`. -/
  | committed (term : Nat) (index : Nat) (log : Log)
  deriving DecidableEq

/-- The four inboxes `incoming_append_entries_requests_` and so on (`node.h:115`). -/
structure Incoming where
  appendEntriesRequests : List (NodeId × AppendEntriesRequest) := []
  requestVoteRequests : List (NodeId × RequestVoteRequest) := []
  appendEntriesResponses : List (NodeId × AppendEntriesResponse) := []
  requestVoteResponses : List (NodeId × RequestVoteResponse) := []

/-- The `std::visit` of `AddMessage` (`node.cpp:524`): a message goes to the back of the inbox of
its kind. -/
def Incoming.add (inc : Incoming) (id : NodeId) : Message → Incoming
  | .appendEntriesRequest arg =>
    { inc with appendEntriesRequests := inc.appendEntriesRequests ++ [(id, arg)] }
  | .requestVoteRequest arg =>
    { inc with requestVoteRequests := inc.requestVoteRequests ++ [(id, arg)] }
  | .appendEntriesResponse arg =>
    { inc with appendEntriesResponses := inc.appendEntriesResponses ++ [(id, arg)] }
  | .requestVoteResponse arg =>
    { inc with requestVoteResponses := inc.requestVoteResponses ++ [(id, arg)] }

/-- The messages of the inboxes in the order in which `HandleIncomingMessages` loops over them
(`node.cpp:322`). -/
def Incoming.messages (inc : Incoming) : List (NodeId × Message) :=
  inc.appendEntriesRequests.map (fun m => (m.1, .appendEntriesRequest m.2)) ++
    inc.requestVoteRequests.map (fun m => (m.1, .requestVoteRequest m.2)) ++
    inc.appendEntriesResponses.map (fun m => (m.1, .appendEntriesResponse m.2)) ++
    inc.requestVoteResponses.map (fun m => (m.1, .requestVoteResponse m.2))

/-- `Node` (`node.h:15`). `State` is flattened into `currentTerm`, `votedFor`, `log` and
`commitIndex`; `channels` are the keys of `channels_` in ascending order. The last three fields are
ghosts: the numbers of promises made so far, and what the node has done. -/
structure Node where
  myId : NodeId
  channels : List NodeId
  currentTerm : Nat := 0
  votedFor : Option NodeId := none
  log : Log := []
  commitIndex : Nat := 0
  leaderState : Option LeaderState := none
  candidateState : Option CandidateState := none
  role : NodeState := .kFollower
  incoming : Incoming := {}
  incomingCommands : List (Command × PromiseId) := []
  getPersistentCommandsReqs : List (QueryId × UInt64 × UInt64) := []
  itemsToResponse : Finmap (fun _ : Nat => PromiseId) := ∅
  promises : Nat := 0
  queries : Nat := 0
  history : List Event := []

namespace Node

/-- The constructor (`node.cpp:76`): the node's own sender is put under its id into the channels,
and the log starts with the sentinel. -/
def new (myId : NodeId) (channels : List NodeId) : Node where
  myId := myId
  channels := if myId ∈ channels then channels else channels.orderedInsert (· ≤ ·) myId
  log := [sentinel]

/-- `total_nodes_` (`node.cpp:86`). -/
def totalNodes (nd : Node) : Nat := nd.channels.length

/-- Notes that `e` happened. -/
def emit (nd : Node) (e : Event) : Node := { nd with history := nd.history ++ [e] }

/-- `AddMessage` (`node.cpp:519`). -/
def addMessage (nd : Node) (id : NodeId) (msg : Message) : Node :=
  { nd with incoming := nd.incoming.add id msg }

/-- `Send` on the channel of `whom`. The node's own channel is a `TrivialMessageSender`
(`node_sender.h:15`), which adds the message to the node's inbox at once; what the other channels do
with the message is up to the network. -/
def send (nd : Node) (whom : NodeId) (msg : Message) : Node :=
  { nd with
    history := nd.history ++ [.send whom msg]
    incoming := if whom = nd.myId then nd.incoming.add nd.myId msg else nd.incoming }

/-- `AddCommand` (`node.cpp:542`). -/
def addCommand (nd : Node) (command : Command) : Node :=
  { nd with
    incomingCommands := nd.incomingCommands ++ [(command, nd.promises)]
    promises := nd.promises + 1
    history := nd.history ++ [.addCommand nd.promises command] }

/-- `GetPersistentCommands` (`node.cpp:293`). -/
def getPersistentCommands (nd : Node) (start maxCount : UInt64) : Node :=
  let start := if start = 0 then 1 else start
  { nd with
    getPersistentCommandsReqs := nd.getPersistentCommandsReqs ++ [(nd.queries, start, maxCount)]
    queries := nd.queries + 1 }

/-- `GetLastLogTerm` (`node.cpp:179`). The constructor puts the sentinel into the log and no method
empties it, so there is a last item. -/
def getLastLogTerm (nd : Node) : Nat := (nd.log.getLast?.map LogItem.leaderTerm).getD 0

/-- `GetLastLogIndex` (`node.cpp:181`) of a log with its sentinel, without which `size() - 1`
wraps. -/
def getLastLogIndex (nd : Node) : Nat := nd.log.length - 1

/-- `log[i]`. -/
def logAt (nd : Node) (i : Nat) : Except Fault LogItem :=
  match nd.log[i]? with
  | some item => .ok item
  | none => .error .logOutOfRange

/-- `ResetElectionTimer` (`node.cpp:451`). -/
def resetElectionTimer (nd : Node) : Node := nd.emit .resetTimer

/-! ## Roles -/

/-- `BecomeFollower` (`node.cpp:486`). -/
def becomeFollower (nd : Node) : Node :=
  { nd with
    role := .kFollower
    votedFor := none
    candidateState := none
    leaderState := none }.resetElectionTimer

/-- The first lines of all four message handlers: a larger term is taken over and makes the node a
follower. -/
def observeTerm (nd : Node) (term : Nat) : Node :=
  if nd.currentTerm < term then { nd with currentTerm := term }.becomeFollower else nd

/-- `SendRequestVoteToAll` (`node.cpp:467`). -/
def sendRequestVoteToAll (nd : Node) : Node :=
  let request : RequestVoteRequest :=
    { candidateTerm := nd.currentTerm
      candidateId := nd.myId
      candidateLastLogIndex := nd.getLastLogIndex
      candidateLastLogTerm := nd.getLastLogTerm }
  nd.channels.foldl (fun nd id => nd.send id (.requestVoteRequest request)) nd

/-- `BecomeCandidate` (`node.cpp:495`), for terms below 2^64 - 1. -/
def becomeCandidate (nd : Node) : Node :=
  let nd := { nd with currentTerm := nd.currentTerm + 1, votedFor := some nd.myId }
  let nd := nd.resetElectionTimer.sendRequestVoteToAll
  { nd with role := .kCandidate, candidateState := some {}, leaderState := none }

/-- `SendAppendEntriesToSomeone` (`node.cpp:217`). With `next_index[id] = 0` the index
`next_index[id] - 1` wraps to 2^64 - 1, past the end of every vector. -/
def sendAppendEntriesToSomeone (nd : Node) (who : NodeId) (heartbeat : Bool) :
    Except Fault Node :=
  if nd.role ≠ .kLeader then .ok nd
  else if who ∉ nd.channels then .error .unknownChannel
  else
    match nd.leaderState with
    | none => .error .emptyOptional
    | some ls =>
      let next := ls.nextIndex.at who
      if nd.getLastLogIndex < next ∧ heartbeat = false then .ok nd
      else if next = 0 then .error .logOutOfRange
      else do
        let prev ← nd.logAt (next - 1)
        let request : AppendEntriesRequest :=
          { leaderTerm := nd.currentTerm
            leaderId := nd.myId
            prevLogIndex := next - 1
            prevLogTerm := prev.leaderTerm
            entries := nd.log.drop next
            leaderCommit := nd.commitIndex }
        return nd.send who (.appendEntriesRequest request)

/-- `SendAppendEntriesToAll` (`node.cpp:479`), always called with `heartbeat = true`. -/
def sendAppendEntriesToAll (nd : Node) (heartbeat : Bool := true) : Except Fault Node :=
  nd.channels.foldlM (fun nd id => nd.sendAppendEntriesToSomeone id heartbeat) nd

/-- The leader state that `BecomeLeader` builds (`node.cpp:510`): every member's `next_index` is one
past the last index, and its `match_index` is 0. -/
def initialLeaderState (nd : Node) : LeaderState :=
  nd.channels.foldl
    (fun ls id =>
      { nextIndex := ls.nextIndex.set id (nd.getLastLogIndex + 1)
        matchIndex := ls.matchIndex.set id 0 }) {}

/-- `BecomeLeader` (`node.cpp:506`). -/
def becomeLeader (nd : Node) : Except Fault Node :=
  let nd := nd.emit (.becameLeader nd.currentTerm nd.log)
  { nd with
    votedFor := none
    candidateState := none
    leaderState := some nd.initialLeaderState
    role := .kLeader }.sendAppendEntriesToAll

/-! ## Requests -/

/-- `AppendEntriesUnsuccessfull` (`node.cpp:50`). -/
def appendEntriesUnsuccessfull (nd : Node) : AppendEntriesResponse :=
  { currentTerm := nd.currentTerm, success := false, matchedUntil := none }

/-- `AppendEntriesSuccessfull` (`node.cpp:56`). -/
def appendEntriesSuccessfull (nd : Node) (id : Nat) : AppendEntriesResponse :=
  { currentTerm := nd.currentTerm, success := true, matchedUntil := some id }

/-- `RequestVoteUnsuccessfull` (`node.cpp:61`). -/
def requestVoteUnsuccessfull (nd : Node) : RequestVoteResponse :=
  { currentTerm := nd.currentTerm, voteGranted := false }

/-- `RequestVoteSuccessfull` (`node.cpp:66`). -/
def requestVoteSuccessfull (nd : Node) (candidateTerm : Nat) : RequestVoteResponse :=
  { currentTerm := nd.currentTerm, voteGranted := true, candidateTerm := candidateTerm }

/-- The block at `node.cpp:112`: a node that is not the leader answers every queued command with the
id of the leader. -/
def redirectCommands (nd : Node) (leaderId : NodeId) : Node :=
  if nd.role ≠ .kLeader then
    { nd with
      incomingCommands := []
      history := nd.history ++
        nd.incomingCommands.map (fun command => .setValue command.2 { leaderId := some leaderId }) }
  else nd

/-- `log.resize(size)` to a smaller size. -/
def resizeLog (nd : Node) (size : Nat) : Node :=
  { nd with log := nd.log.take size, history := nd.history ++ [.resized size] }

/-- The loop over the entries of a request (`node.cpp:144`), from position `pos` on. -/
def storeEntries (prevLogIndex : Nat) : Nat → List LogItem → Node → Node
  | _, [], nd => nd
  | pos, entry :: rest, nd =>
    let i := prevLogIndex + pos + 1
    match nd.log[i]? with
    | some item =>
      if item = entry then storeEntries prevLogIndex (pos + 1) rest nd
      else
        let nd := nd.resizeLog i
        storeEntries prevLogIndex (pos + 1) rest { nd with log := nd.log ++ [entry] }
    | none => storeEntries prevLogIndex (pos + 1) rest { nd with log := nd.log ++ [entry] }

/-- The commit index of a follower (`node.cpp:169`). -/
def followLeaderCommit (nd : Node) (req : AppendEntriesRequest) : Node :=
  if nd.commitIndex < req.leaderCommit then
    { nd with commitIndex := min req.leaderCommit (req.prevLogIndex + req.entries.length) }
  else nd

/-- `HandleAppendEntriesRequest` (`node.cpp:90`). -/
def handleAppendEntriesRequest (nd : Node) (req : AppendEntriesRequest) :
    AppendEntriesResponse × Node :=
  let nd := (nd.observeTerm req.leaderTerm).resetElectionTimer
  if req.leaderTerm < nd.currentTerm then (nd.appendEntriesUnsuccessfull, nd)
  else
    let nd := nd.redirectCommands req.leaderId
    match nd.log[req.prevLogIndex]? with
    | none => (nd.appendEntriesUnsuccessfull, nd)
    | some item =>
      if item.leaderTerm ≠ req.prevLogTerm then (nd.appendEntriesUnsuccessfull, nd)
      else
        let nd := (storeEntries req.prevLogIndex 0 req.entries nd).followLeaderCommit req
        (nd.appendEntriesSuccessfull
          (min (nd.log.length - 1) (req.prevLogIndex + req.entries.length)), nd)

/-- The condition under which `HandleRequestVoteRequest` grants a vote once the terms are settled
(`node.cpp:204`): the vote is free or already the candidate's, and the candidate's log is at least
as up to date. -/
def canVoteFor (nd : Node) (req : RequestVoteRequest) : Bool :=
  nd.votedFor.getD req.candidateId = req.candidateId ∧
    (nd.getLastLogTerm < req.candidateLastLogTerm ∨
      nd.getLastLogTerm = req.candidateLastLogTerm ∧
        nd.getLastLogIndex ≤ req.candidateLastLogIndex)

/-- `HandleRequestVoteRequest` (`node.cpp:183`). The reply to a stale request is a value-initialised
response. -/
def handleRequestVoteRequest (nd : Node) (req : RequestVoteRequest) : RequestVoteResponse × Node :=
  let nd := nd.observeTerm req.candidateTerm
  if req.candidateTerm < nd.currentTerm then ({}, nd)
  else if nd.canVoteFor req then
    let nd := { nd with votedFor := some req.candidateId }.emit (.voteGranted req nd.log)
    (nd.requestVoteSuccessfull req.candidateTerm, nd)
  else (nd.requestVoteUnsuccessfull, nd)

/-! ## Responses -/

/-- `--x` on a `uint64_t`, which wraps at 0. -/
def decrement (i : Nat) : Nat := if i = 0 then 2 ^ 64 - 1 else i - 1

/-- `HandleAppendEntriesResponse` (`node.cpp:241`), for indices below 2^64 - 1: the sum that
`next_index` is raised to wraps there. -/
def handleAppendEntriesResponse (nd : Node) (resp : AppendEntriesResponse) (fromWho : NodeId) :
    Except Fault Node :=
  let nd := nd.observeTerm resp.currentTerm
  if nd.role ≠ .kLeader then .ok nd
  else
    match nd.leaderState with
    | none => .error .emptyOptional
    | some ls =>
      if resp.success = false then
        let next := decrement (ls.nextIndex.at fromWho)
        .ok { nd with leaderState := some { ls with nextIndex := ls.nextIndex.set fromWho next } }
      else
        match resp.matchedUntil with
        | none => .error .emptyOptional
        | some matchedUntil =>
          let matched := max (ls.matchIndex.at fromWho) matchedUntil
          let next := max (ls.nextIndex.at fromWho) (matched + 1)
          .ok { nd with
            leaderState := some
              { nextIndex := ls.nextIndex.set fromWho next
                matchIndex := ls.matchIndex.set fromWho matched } }

/-- `HandleRequestVoteResponse` (`node.cpp:270`). -/
def handleRequestVoteResponse (nd : Node) (resp : RequestVoteResponse) (fromWho : NodeId) :
    Except Fault Node :=
  let nd := nd.observeTerm resp.currentTerm
  if nd.role ≠ .kCandidate then .ok nd
  else if resp.voteGranted = false then .ok nd
  else if resp.candidateTerm ≠ nd.currentTerm then .ok nd
  else
    match nd.candidateState with
    | none => .error .emptyOptional
    | some cs =>
      let votes := insert fromWho cs.votes
      let nd := { nd with candidateState := some { votes := votes } }
      if nd.totalNodes + 1 ≤ votes.card * 2 then nd.becomeLeader else .ok nd

/-! ## One tick -/

/-- The body of the loops of `HandleIncomingMessages` (`node.cpp:322`) for one message. A request is
answered on the channel of its sender, which is looked up first. -/
def handleMessage (nd : Node) (sender : NodeId) : Message → Except Fault Node
  | .appendEntriesRequest req =>
    if sender ∉ nd.channels then .error .unknownChannel
    else
      let (resp, nd) := nd.handleAppendEntriesRequest req
      let resp := { resp with answers := req.leaderTerm }
      .ok ((nd.emit (.answered sender req resp)).send sender (.appendEntriesResponse resp))
  | .requestVoteRequest req =>
    if sender ∉ nd.channels then .error .unknownChannel
    else
      let (resp, nd) := nd.handleRequestVoteRequest req
      .ok (nd.send sender (.requestVoteResponse resp))
  | .appendEntriesResponse resp => nd.handleAppendEntriesResponse resp sender
  | .requestVoteResponse resp => nd.handleRequestVoteResponse resp sender

/-- `HandleIncomingMessages` (`node.cpp:308`): the inboxes are emptied first, so that what the node
sends to itself meanwhile waits for the next tick. -/
def handleIncomingMessages (nd : Node) : Except Fault Node :=
  nd.incoming.messages.foldlM (fun nd m => nd.handleMessage m.1 m.2) { nd with incoming := {} }

/-- The commands that one query of `HandleGetPersistentCommandRequests` collects
(`node.cpp:363`). The end of the window is a sum of two `uint64_t`, which may wrap. -/
def persistentCommands (nd : Node) (start count : UInt64) : Except Fault (List Command) :=
  (List.range' start.toNat
    (min (start + count).toNat (nd.commitIndex + 1) - start.toNat)).mapM
      (fun i => return (← nd.logAt i).command)

/-- `HandleGetPersistentCommandRequests` (`node.cpp:347`). -/
def handleGetPersistentCommandRequests (nd : Node) : Except Fault Node :=
  nd.getPersistentCommandsReqs.foldlM
    (fun nd req => do
      let result ← nd.persistentCommands req.2.1 req.2.2
      return nd.emit (.setCommands req.1 req.2.1 req.2.2 result))
    { nd with getPersistentCommandsReqs := [] }

/-- The test of `CommitIfPossible` at index `i` (`node.cpp:395`): a majority of the `match_index`
entries have reached it. -/
def majorityMatched (nd : Node) (ls : LeaderState) (i : Nat) : Bool :=
  nd.totalNodes + 1 ≤ (ls.matchIndex.keys.filter (fun k => i ≤ ls.matchIndex.at k)).card * 2

/-- The scan of `CommitIfPossible` (`node.cpp:394`): the last index past the commit index that
passes the test. The log has its sentinel, and the commit index is below 2^64 - 1. -/
def idToCommit (nd : Node) (ls : LeaderState) : Option Nat :=
  (List.range' (nd.commitIndex + 1) (nd.getLastLogIndex - nd.commitIndex)).foldl
    (fun id i => if nd.majorityMatched ls i then some i else id) none

/-- The body of the second loop of `CommitIfPossible` (`node.cpp:409`): the promise that is pending
under index `i` is answered. -/
def resolve (nd : Node) (i : Nat) : Node :=
  match nd.itemsToResponse.lookup i with
  | some p => { nd with itemsToResponse := nd.itemsToResponse.erase i }.emit (.setValue p {})
  | none => nd

/-- `CommitIfPossible` (`node.cpp:390`). `leader_state_` is dereferenced only when the scan has an
index to look at. -/
def commitIfPossible (nd : Node) : Except Fault Node :=
  match nd.leaderState with
  | none => if nd.commitIndex < nd.getLastLogIndex then .error .emptyOptional else .ok nd
  | some ls =>
    match nd.idToCommit ls with
    | none => .ok nd
    | some id =>
      let nd := (List.range' (nd.commitIndex + 1) (id - nd.commitIndex)).foldl resolve nd
      .ok ({ nd with commitIndex := id }.emit (.committed nd.currentTerm id nd.log))

/-- The body of the loop of `AddNewCommandsToLog` (`node.cpp:428`). A promise that is already
pending under the new index is overwritten, which destroys it. -/
def addNewCommand (nd : Node) (command : Command × PromiseId) : Node :=
  let item : LogItem := { command := command.1, leaderTerm := nd.currentTerm }
  let index := nd.log.length
  let broken := match nd.itemsToResponse.lookup index with
    | some p => [.brokenPromise p]
    | none => []
  { nd with
    log := nd.log ++ [item]
    itemsToResponse := nd.itemsToResponse.insert index command.2
    history := nd.history ++ broken ++ [.appended command.2 index item] }

/-- `AddNewCommandsToLog` (`node.cpp:420`). -/
def addNewCommandsToLog (nd : Node) : Node :=
  nd.incomingCommands.foldl addNewCommand { nd with incomingCommands := [] }

/-- The end of `TickLeader` (`node.cpp:439`). -/
def finishTickLeader (nd : Node) : Except Fault Node :=
  if nd.role = .kLeader then do
    let nd ← nd.sendAppendEntriesToAll
    return nd.addNewCommandsToLog
  else .ok nd

/-- `TickLeader` (`node.cpp:435`). -/
def tickLeader (nd : Node) : Except Fault Node := do
  let nd ← nd.commitIfPossible
  let nd ← nd.handleIncomingMessages
  nd.finishTickLeader

/-- The end of `TickFollower` (`node.cpp:456`), with `expired` the answer of `IsExpired`. -/
def finishTickFollower (nd : Node) (expired : Bool) : Node :=
  if expired then nd.becomeCandidate else nd

/-- `TickFollower` (`node.cpp:453`). -/
def tickFollower (nd : Node) (expired : Bool) : Except Fault Node := do
  let nd ← nd.handleIncomingMessages
  return nd.finishTickFollower expired

/-- `TickCandidate` (`node.cpp:461`). -/
def tickCandidate (nd : Node) (expired : Bool) : Except Fault Node := nd.tickFollower expired

/-- One round of the loop of `Tick` (`node.cpp:371`). -/
def tick (nd : Node) (expired : Bool) : Except Fault Node := do
  let nd ← nd.handleGetPersistentCommandRequests
  match nd.role with
  | .kFollower => nd.tickFollower expired
  | .kCandidate => nd.tickCandidate expired
  | .kLeader => nd.tickLeader

end Node

end ToFTDS.Consensus
