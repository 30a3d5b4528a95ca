import Mathlib.Data.Prod.Lex
import ToFTDS.Lib.Run
import ToFTDS.Lib.SortedMap

/-!
# The leader of the integral service

`Leader` of `leader.h` and `leader.cpp` (`hw1/src/leader/`): `RunOverWorkers`, which takes queries,
connects to workers, hands slices out and collects their values, and the two methods through which
the other threads reach it. `poll`, `socket`, `recv` and `send` answer as the environment likes;
what they answer is in the operation of the step.

A step is a part of the loop body that no other thread can see the middle of: taking what the other
threads have left (`start`), one heartbeat (`join`), everything from there to `poll` (`assign`), the
look at one slot of `worker_fds_` (`look`), and the end of the round (`sleep`). Where the source
throws or has no defined result there is no step.

The numbers are of any type `D` with the operations of `double` that the leader uses. A heartbeat's
contents and a worker's `id` field are not modelled: nothing depends on them. The last two
fields are not the leader's: the connections that are open, with the tasks that were sent on each
and are not answered, and what has happened.
-/

namespace ToFTDS.Integral

/-- `QueryId` (`leader.h:15`), a `uint32_t`. -/
abbrev QueryId := Nat

/-- `TaskId` (`types.h:7`). -/
abbrev TaskId := Nat

/-- `WorkerId` (`types.h:8`). -/
abbrev WorkerId := Nat

/-- A file descriptor; -1 is `none` where it may occur. -/
abbrev Fd := Nat

/-- `Task` (`task.h:5`). -/
structure Task (D : Type) where
  a : D
  b : D

/-- `WorkerInfo` (`leader.h:22`). -/
structure WorkerInfo where
  positionInBuffer : Nat := 0
  assignedTasks : List (QueryId × TaskId) := []

/-- `QueryInfo` (`leader.h:29`). -/
structure QueryInfo (D : Type) where
  id : QueryId
  result : D
  allTasks : List (Task D) := []
  tasksInProgress : SortedSet TaskId := ∅
  tasksToDo : SortedSet TaskId := ∅

/-- An open connection: the worker it was opened for, and the tasks sent on it that may still be
answered, in order. -/
structure Connection where
  worker : WorkerId
  sent : List (QueryId × TaskId) := []

/-- What has happened, for statements about runs. -/
inductive Event (D : Type) where
  /-- `socket` returned `fd` for a connection to `wid`. -/
  | socket (fd : Fd) (wid : WorkerId)
  /-- `close(fd)` was called to drop `wid`, with `owner` the worker whose connection `fd` was. -/
  | close (fd : Option Fd) (wid : WorkerId) (owner : Option WorkerId)
  /-- The task, the interval from `a` to `b`, was sent to `wid`. -/
  | sent (fd : Fd) (wid : WorkerId) (qid : QueryId) (tid : TaskId) (a b : D)
  /-- A value for the task was added to the query's result. -/
  | credited (qid : QueryId) (tid : TaskId) (value : D)
  /-- The query was reported as solved. -/
  | solved (qid : QueryId)

/-- Where the thread of `RunOverWorkers` is. -/
inductive Position where
  /-- At the top of the loop. -/
  | top
  /-- At the heartbeats `upd`, with the first slot that may be free. -/
  | joining (upd : List WorkerId) (unusedId : Nat)
  /-- About to look at slot `i`, with the size of `workers`. -/
  | polling (i workers : Nat)

/-- `Leader` (`leader.h:37`). -/
structure Leader (D : Type) where
  workerFds : List (Option Fd)
  knownWorkers : SortedMap WorkerId WorkerInfo := ∅
  queries : List (QueryInfo D) := []
  widToDelete : List WorkerId := []
  hbUpdates : SortedSet WorkerId := ∅
  newTasks : List (D × D) := []
  position : Position := .top
  sockets : Fd → Option Connection := fun _ => none
  history : List (Event D) := []

/-- What `recv` returns: nothing or an error, or the answer to the task that is `k` places behind
the first unanswered one. -/
inductive Received (D : Type) where
  | failed
  | reply (k : Nat) (value : D)

/-- What `poll` reports about a slot and how the calls it leads to end: `POLLERR` or `POLLHUP`,
`POLLIN` with the outcome of `recv`, `POLLOUT` with the success of `send`. -/
structure Polled (D : Type) where
  hangUp : Bool := false
  received : Option (Received D) := none
  canSend : Option Bool := none

/-- The steps of the leader and of the threads around it. -/
inductive Op (D : Type) where
  | getResult (a b : D)
  | discovered (wid : WorkerId)
  | start
  | join (fd : Fd)
  | assign
  | look (p : Polled D)
  | sleep

namespace QueryInfo

variable {D : Type}

/-- A task goes back from `tasks_in_progress` to `tasks_to_do` (`leader.cpp:183`). -/
def returnTask (query : QueryInfo D) (tid : TaskId) : QueryInfo D :=
  { query with
    tasksInProgress := query.tasksInProgress.erase tid
    tasksToDo := query.tasksToDo.add tid }

/-- The tasks of `tasks_to_do`, with the query's id (`leader.cpp:195`). -/
def toDo (query : QueryInfo D) : List (QueryId × TaskId) :=
  query.tasksToDo.toList.map fun tid => (query.id, tid)

/-- `std::swap(tasks_to_do, tasks_in_progress)` of a query that has something to do
(`leader.cpp:194`). -/
def swapTasks (query : QueryInfo D) : QueryInfo D :=
  if query.tasksToDo.entries.isEmpty then query
  else
    { query with
      tasksInProgress := query.tasksToDo
      tasksToDo := query.tasksInProgress }

/-- A value for a task is added to the query's result (`leader.cpp:260`). -/
def credit [Add D] (query : QueryInfo D) (tid : TaskId) (value : D) : QueryInfo D :=
  { query with
    result := query.result + value
    tasksInProgress := query.tasksInProgress.erase tid }

/-- Nothing of the query is in progress or to do (`leader.cpp:262`). -/
def isSolved (query : QueryInfo D) : Bool :=
  query.tasksInProgress.entries.isEmpty && query.tasksToDo.entries.isEmpty

end QueryInfo

namespace Leader

variable {D : Type}

/-- The constructor (`leader.cpp:22`). -/
def init (maxWorkers : Nat) : Leader D := { workerFds := List.replicate maxWorkers none }

/-- Notes that `e` happened. -/
def emit (s : Leader D) (e : Event D) : Leader D := { s with history := s.history ++ [e] }

/-- `close(fd)`, to drop `wid`. -/
def close (s : Leader D) (fd : Option Fd) (wid : WorkerId) : Leader D :=
  { s with
    sockets := fd.elim s.sockets (fun fd => Function.update s.sockets fd none)
    history := s.history ++
      [.close fd wid (fd.bind fun fd => (s.sockets fd).map Connection.worker)] }

/-- A worker's entry after `known_workers_[wid]` has been modified, where `operator[]` inserts a
value-initialised entry if there is none. -/
def modifyWorker (s : Leader D) (wid : WorkerId) (f : WorkerInfo → WorkerInfo) : Leader D :=
  { s with knownWorkers := s.knownWorkers.insert wid (f ((s.knownWorkers.find? wid).getD {})) }

/-- `queries_[qid]` modified. -/
def modifyQuery (s : Leader D) (qid : QueryId) (f : QueryInfo D → QueryInfo D) : Leader D :=
  { s with queries := s.queries.modify qid f }

/-! ## New queries and workers -/

/-- The number of slices of a query (`leader.cpp:74`). -/
def slices : Nat := 10

section
variable [Zero D] [Add D] [Sub D] [Mul D] [Div D] [NatCast D]

/-- A new query for the integral from `a` to `b` (`leader.cpp:71`). -/
def newQuery (id : QueryId) (a b : D) : QueryInfo D where
  id := id
  result := 0
  allTasks := (List.range slices).map fun i : Nat =>
    { a := a + (b - a) / (slices : D) * (i : D)
      b := a + (b - a) / (slices : D) * ((i + 1 : Nat) : D) }
  tasksToDo := (List.range slices).foldl SortedSet.add ∅

/-- The body of the loop over the new queries (`leader.cpp:70`). The id is the number of queries,
cut to a `uint32_t`. -/
def addQuery (s : Leader D) (ab : D × D) : Leader D :=
  { s with queries := s.queries ++ [newQuery (s.queries.length % 2 ^ 32) ab.1 ab.2] }

/-- The first lines of the loop (`leader.cpp:55`): what the other threads have left is taken. -/
def start (s : Leader D) : Option (Leader D) :=
  match s.position with
  | .top =>
    some (s.newTasks.foldl addQuery
      { s with
        hbUpdates := ∅
        newTasks := []
        position := .joining s.hbUpdates.toList 0 })
  | _ => none

end

/-- The search for a free slot from `unusedId` on (`leader.cpp:92`). -/
def freeSlot (s : Leader D) (unusedId : Nat) : Nat :=
  unusedId + (s.workerFds.drop unusedId).findIdx Option.isNone

/-- The body of the loop over the heartbeats (`leader.cpp:88`), with `fd` what `socket` returns if
it is called: a number that is not open. A connection that fails at once throws. -/
def join (s : Leader D) (fd : Fd) : Option (Leader D) :=
  match s.position with
  | .joining (wid :: upd) unusedId =>
    if s.knownWorkers.contains wid then some { s with position := .joining upd unusedId }
    else
      let unusedId := s.freeSlot unusedId
      if unusedId = s.workerFds.length then some { s with position := .joining upd unusedId }
      else if (s.sockets fd).isSome then none
      else
        some { s with
          workerFds := s.workerFds.set unusedId (some fd)
          sockets := Function.update s.sockets fd (some { worker := wid })
          knownWorkers := s.knownWorkers.insert wid { positionInBuffer := unusedId }
          position := .joining upd (unusedId + 1)
          history := s.history ++ [.socket fd wid] }
  | _ => none

/-! ## Removing workers and handing out tasks -/

/-- `workers_to_remove` (`leader.cpp:138`): the known ones among `wid_to_delete_`, sorted and
without repetitions. -/
def workersToRemove (s : Leader D) : List WorkerId :=
  ((s.widToDelete.filter s.knownWorkers.contains).foldl SortedSet.add ∅ : SortedSet WorkerId).toList

/-- The body of the loop over `workers_to_remove` (`leader.cpp:170`), with `tasks` the `new_tasks`
so far. A worker that is not known would make `at` throw; there is none in `workers_to_remove`. -/
def removeWorker (st : Leader D × List (QueryId × TaskId)) (wid : WorkerId) :
    Leader D × List (QueryId × TaskId) :=
  match st.1.knownWorkers.find? wid with
  | none => st
  | some info =>
    let s := st.1.close (st.1.workerFds[info.positionInBuffer]?.getD none) wid
    ({ s with
        workerFds := s.workerFds.set info.positionInBuffer none
        knownWorkers := s.knownWorkers.erase wid },
      st.2 ++ info.assignedTasks)

/-- The body of the loop over `new_tasks` when no worker is left (`leader.cpp:181`). -/
def returnTask (s : Leader D) (task : QueryId × TaskId) : Leader D :=
  s.modifyQuery task.1 fun query => query.returnTask task.2

/-- `workers` (`leader.cpp:189`): the known workers, ordered by the number of their tasks. -/
def workerLoads (s : Leader D) : SortedSet (Nat ×ₗ WorkerId) :=
  s.knownWorkers.entries.foldl
    (fun loads e => loads.add (toLex (e.2.assignedTasks.length, e.1))) ∅

/-- The body of the loop over `new_tasks` (`leader.cpp:206`): the task goes to a worker with the
fewest tasks. `workers` is not empty, so that `begin` can be dereferenced. -/
def assignTask (st : Leader D × SortedSet (Nat ×ₗ WorkerId)) (task : QueryId × TaskId) :
    Leader D × SortedSet (Nat ×ₗ WorkerId) :=
  match st.2.toList with
  | [] => st
  | load :: _ =>
    let wid := (ofLex load).2
    (st.1.modifyWorker wid fun info => { info with assignedTasks := info.assignedTasks ++ [task] },
      SortedSet.add (st.2.erase load) (toLex ((ofLex load).1 + 1, wid)))

/-- The workers that failed are removed (`leader.cpp:138`); with the tasks they had. -/
def removeWorkers (s : Leader D) : Leader D × List (QueryId × TaskId) :=
  s.workersToRemove.foldl removeWorker ({ s with widToDelete := [] }, [])

/-- The tasks of removed workers and those that are to do are handed out (`leader.cpp:191`); with
`workers` at the end. -/
def reassign (s : Leader D) (newTasks : List (QueryId × TaskId)) :
    Leader D × SortedSet (Nat ×ₗ WorkerId) :=
  (newTasks ++ s.queries.flatMap QueryInfo.toDo).foldl assignTask
    ({ s with queries := s.queries.map QueryInfo.swapTasks }, s.workerLoads)

/-- What happens between the heartbeats and `poll` (`leader.cpp:133`). -/
def assign (s : Leader D) : Option (Leader D) :=
  match s.position with
  | .joining [] _ =>
    let removed := s.removeWorkers
    if removed.1.knownWorkers.entries.isEmpty then
      some { removed.2.foldl returnTask removed.1 with position := .polling 0 0 }
    else
      let assigned := removed.1.reassign removed.2
      some { assigned.1 with position := .polling 0 assigned.2.entries.length }
  | _ => none

/-! ## Looking at a slot -/

/-- The search for the worker of a slot (`leader.cpp:226`), which ends with `worker_fds_.size()` if
there is none. -/
def owner (s : Leader D) (i : Nat) : WorkerId :=
  ((s.knownWorkers.entries.find? fun e => e.2.positionInBuffer = i).map Prod.fst).getD
    s.workerFds.length

/-- The reaction to an error on the connection of `wid` (`leader.cpp:238`). -/
def drop (s : Leader D) (fd : Fd) (wid : WorkerId) : Leader D :=
  { s.close (some fd) wid with widToDelete := s.widToDelete ++ [wid] }

/-- A value for a task in progress (`leader.cpp:256`): it is added to the result, and the first task
of the worker is erased, whatever it is. -/
def credit [Add D] (s : Leader D) (wid : WorkerId) (qid : QueryId) (tid : TaskId) (value : D) :
    Leader D :=
  let s := s.modifyWorker wid fun info => { info with assignedTasks := info.assignedTasks.drop 1 }
  let s := s.modifyQuery qid fun query => query.credit tid value
  let s := s.emit (.credited qid tid value)
  if s.queries[qid]?.any QueryInfo.isSolved then s.emit (.solved qid) else s

/-- The answer to the task `k` places behind the first unanswered one on `conn` has been read. -/
def answered (s : Leader D) (fd : Fd) (conn : Connection) (k : Nat) : Leader D :=
  { s with
    sockets := Function.update s.sockets fd (some { conn with sent := conn.sent.drop (k + 1) }) }

/-- `recv` and what follows (`leader.cpp:242`). A connection that has been closed has nothing to
receive. To erase the first task of a worker without tasks has no defined result. -/
def receive [Add D] (s : Leader D) (fd : Fd) (wid : WorkerId) : Received D → Option (Leader D)
  | .failed => some (s.drop fd wid)
  | .reply k value =>
    match s.sockets fd with
    | none => none
    | some conn =>
      match conn.sent[k]? with
      | none => none
      | some (qid, tid) =>
        let s := s.answered fd conn k
        match s.queries[qid]? with
        | none => none
        | some query =>
          if query.tasksInProgress.contains tid then
            if ((s.knownWorkers.find? wid).getD {}).assignedTasks.isEmpty then none
            else some (s.credit wid qid tid value)
          else some s

/-- `POLLOUT` (`leader.cpp:270`): the first task of the worker is sent, if there is one. A
connection that has been closed cannot be sent to. -/
def sendTask (s : Leader D) (fd : Fd) (wid : WorkerId) (ok : Bool) : Option (Leader D) :=
  let s := s.modifyWorker wid id
  match ((s.knownWorkers.find? wid).getD {}).assignedTasks with
  | [] => some s
  | (qid, tid) :: _ =>
    match s.queries[qid]?.bind fun query => query.allTasks[tid]? with
    | none => none
    | some task =>
      match ok, s.sockets fd with
      | false, _ => some (s.drop fd wid)
      | true, none => none
      | true, some conn =>
        some { s with
          sockets := Function.update s.sockets fd
            (some { conn with sent := conn.sent ++ [(qid, tid)] })
          history := s.history ++ [.sent fd wid qid tid task.a task.b] }

/-- The body of the loop over the slots (`leader.cpp:220`). The `ENSURE` throws if the worker's id
is the size of `workers`. -/
def look [Add D] (s : Leader D) (p : Polled D) : Option (Leader D) :=
  match s.position with
  | .polling i workers =>
    let next := { s with position := .polling (i + 1) workers }
    match s.workerFds[i]? with
    | none => none
    | some none => some next
    | some (some fd) =>
      let wid := s.owner i
      if wid = workers then none
      else
        let s := if p.hangUp then next.drop fd wid else next
        (p.received.elim (some s) (s.receive fd wid)).bind fun s =>
          p.canSend.elim (some s) (s.sendTask fd wid)
  | _ => none

/-- The end of the loop (`leader.cpp:305`). -/
def sleep (s : Leader D) : Option (Leader D) :=
  match s.position with
  | .polling i _ => if i = s.workerFds.length then some { s with position := .top } else none
  | _ => none

/-- One step. -/
def step [Zero D] [Add D] [Sub D] [Mul D] [Div D] [NatCast D] (s : Leader D) :
    Op D → Option (Leader D)
  | .getResult a b => some { s with newTasks := s.newTasks ++ [(a, b)] }
  | .discovered wid => some { s with hbUpdates := s.hbUpdates.add wid }
  | .start => s.start
  | .join fd => s.join fd
  | .assign => s.assign
  | .look p => s.look p
  | .sleep => s.sleep

end Leader

end ToFTDS.Integral
