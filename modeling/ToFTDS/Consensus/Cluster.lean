import ToFTDS.Lib.Run
import ToFTDS.Consensus.Node

/-!
# Nodes with their threads, and clusters

The tick thread of a node runs `Tick` over and over (`worker.cpp:333`); meanwhile other threads call
`AddCommand`, `GetPersistentCommands` and `AddMessage` on it, each under a lock of its own. A
`Process` is a node with the position of its tick thread: a tick begins by answering the queries,
committing if the node leads, and taking the inboxes; handles the messages it took one by one; and
ends by sending and appending, or by looking at the timer. Between any two of these the other
threads may step in (`Process.step`), and a tick that nobody interrupts is `Node.tick`
(`Process.exec_tick`).

A `Cluster` is a process per member and the messages in flight. Each message between two members
travels in an asynchronous task of its own (`worker.cpp:247`), so any message in flight may be
delivered next, or be lost. A message of a node to itself never is in flight (`Node.send`).
-/

namespace ToFTDS.Consensus

open Run

/-- A tick that has begun: whether it is a `TickLeader`, and the messages it has still to handle. -/
structure Ticking where
  asLeader : Bool
  todo : List (NodeId × Message)

/-- A node with its tick thread. -/
structure Process where
  node : Node
  ticking : Option Ticking := none

/-- What the threads of a process do. -/
inductive Action where
  | addCommand (command : Command)
  | getPersistentCommands (start maxCount : UInt64)
  | beginTick
  | handle
  | endTick (expired : Bool)
  deriving DecidableEq

/-- An action of the process, or the delivery of a message to it. -/
inductive Input where
  | act (a : Action)
  | addMessage (sender : NodeId) (msg : Message)
  deriving DecidableEq

/-- What a tick does before it handles messages: `HandleGetPersistentCommandRequests`, and for a
leader `CommitIfPossible`. -/
def Node.beginTick (nd : Node) : Except Fault Node := do
  let nd ← nd.handleGetPersistentCommandRequests
  if nd.role = .kLeader then nd.commitIfPossible else .ok nd

/-- What a tick does after it handled its messages. -/
def Node.endTick (nd : Node) (asLeader expired : Bool) : Except Fault Node :=
  if asLeader then nd.finishTickLeader else .ok (nd.finishTickFollower expired)

/-- One step of a process. There is none where the thread is not at that point, and none where the
source has no defined result. -/
def Process.step (p : Process) : Input → Option Process
  | .addMessage sender msg => some { p with node := p.node.addMessage sender msg }
  | .act (.addCommand command) => some { p with node := p.node.addCommand command }
  | .act (.getPersistentCommands start maxCount) =>
    some { p with node := p.node.getPersistentCommands start maxCount }
  | .act .beginTick =>
    match p.ticking, p.node.beginTick with
    | none, .ok nd =>
      some
        { node := { nd with incoming := {} }
          ticking := some { asLeader := nd.role = .kLeader, todo := nd.incoming.messages } }
    | _, _ => none
  | .act .handle =>
    match p.ticking with
    | some { asLeader, todo := m :: rest } =>
      match p.node.handleMessage m.1 m.2 with
      | .ok nd => some { node := nd, ticking := some { asLeader, todo := rest } }
      | .error _ => none
    | _ => none
  | .act (.endTick expired) =>
    match p.ticking with
    | some { asLeader, todo := [] } =>
      match p.node.endTick asLeader expired with
      | .ok nd => some { node := nd }
      | .error _ => none
    | _ => none

/-- The ids of the members, as the keys of a `std::map` hold them: distinct and ascending. -/
structure Members where
  ids : List NodeId
  sorted : ids.Pairwise (· < ·)

/-- A message in flight between two members. -/
structure Packet where
  src : NodeId
  dst : NodeId
  msg : Message
  deriving DecidableEq

/-- The members' processes and the messages in flight. -/
structure Cluster where
  members : Members
  procs : NodeId → Process
  network : List Packet

/-- A step of a cluster: an action of a member, the delivery of a message in flight, or its loss. -/
inductive Op where
  | act (i : NodeId) (a : Action)
  | deliver (k : Nat)
  | lose (k : Nat)
  deriving DecidableEq

namespace Cluster

/-- The node `i` as `main` builds it (`worker.cpp:296`): with channels to all other members. -/
def initialNode (members : Members) (i : NodeId) : Node := Node.new i (members.ids.erase i)

/-- All nodes fresh, nothing in flight. -/
def init (members : Members) : Cluster where
  members := members
  procs i := { node := initialNode members i }
  network := []

/-- The node of member `i`. -/
def node (s : Cluster) (i : NodeId) : Node := (s.procs i).node

/-- The messages to others among `events` of node `i`. -/
def packets (i : NodeId) (events : List Event) : List Packet :=
  events.filterMap fun
    | .send whom msg => if whom = i then none else some { src := i, dst := whom, msg := msg }
    | _ => none

/-- The cluster after the process of `i` has become `p`: what it has newly sent is in flight. -/
def update (s : Cluster) (i : NodeId) (p : Process) : Cluster :=
  { s with
    procs := Function.update s.procs i p
    network :=
      s.network ++ packets i (p.node.history.drop (s.node i).history.length) }

/-- One step of a cluster. -/
def step (s : Cluster) : Op → Option Cluster
  | .act i a =>
    if i ∈ s.members.ids then ((s.procs i).step (.act a)).map (s.update i) else none
  | .deliver k =>
    match s.network[k]? with
    | some pkt =>
      ((s.procs pkt.dst).step (.addMessage pkt.src pkt.msg)).map fun p =>
        { s with
          procs := Function.update s.procs pkt.dst p
          network := s.network.eraseIdx k }
    | none => none
  | .lose k =>
    if k < s.network.length then some { s with network := s.network.eraseIdx k } else none

/-- The steps of a tick of member `i` that nobody interrupts and that handles `k` messages. -/
def tickOps (i : NodeId) (k : Nat) (expired : Bool := false) : List Op :=
  .act i .beginTick :: (List.replicate k (.act i .handle) ++ [.act i (.endTick expired)])

/-- A cluster of three, for concrete runs. -/
def threeMembers : Members := ⟨[1, 2, 3], by decide⟩

/-- Node 1 stands in term 1 and is elected, with the votes of itself and of 3. -/
def firstLeaderRun : List Op :=
  tickOps 1 0 true ++ .deliver 1 :: tickOps 3 1 ++ tickOps 1 1 ++ .deliver 1 :: tickOps 1 2

/-- Node 1 leads term 1 and appends a command, which has reached node 2 (but no reply node 1). -/
def firstEntryRun : List Op :=
  firstLeaderRun ++ .act 1 (.addCommand "x") :: tickOps 1 1 ++ tickOps 1 2 ++
  .deliver 5 :: tickOps 2 1

/-- Now node 1 has the replies of itself and of node 2, and commits in its next tick. -/
def firstReplyRun : List Op :=
  firstEntryRun ++ .deliver 6 :: tickOps 1 3 ++ tickOps 1 2

/-- Node 3 stands in term 2, so that node 1 steps down, and elects node 1 again in term 3. The reply
of node 2 to the request of term 1 is still in flight. -/
def secondTermRun : List Op :=
  firstEntryRun ++ tickOps 3 0 true ++ .deliver 7 :: tickOps 1 3 ++ tickOps 1 1 true ++
  .deliver 10 :: tickOps 3 2 ++ tickOps 1 1 ++ .deliver 10 :: tickOps 1 2

end Cluster

end ToFTDS.Consensus
