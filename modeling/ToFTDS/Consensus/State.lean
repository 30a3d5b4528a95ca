import Mathlib.Data.Finmap

/-!
# The data of the consensus layer

The types of `common.h`, `state.h` and `message.h` (`hw2/src/consensus/`), under the source's
names. `Term`, `NodeId` and `LogItemId` are `uint64_t` in the source and natural numbers here: terms
and indices only grow by single steps, so a run that wraps one has 2^64 elections or log entries
behind it. The places where a small value does wrap (`--next_index`, `next_index - 1`) are written
out where they occur, in `Node`. Three sums there would wrap for 2^64 - 1: `++current_term`,
`match_index + 1` and `commit_index + 1`. Only a message from outside the cluster carries such a
number, and what is proved about those messages does not depend on these sums.

The ordered maps of the source are finite maps, and its sets are finite sets.
-/

namespace ToFTDS.Consensus

/-- `NodeId` (`common.h:8`). -/
abbrev NodeId := Nat

/-- `Command` (`state.h:14`). -/
abbrev Command := String

/-- `NodeState` (`common.h:10`): the role of a node. -/
inductive NodeState where
  | kLeader
  | kFollower
  | kCandidate
  deriving DecidableEq, Repr

/-- `LogItem` (`state.h:16`), compared by both fields as its defaulted `operator<=>` does. -/
structure LogItem where
  command : Command
  leaderTerm : Nat := 0
  deriving DecidableEq, Repr

/-- `Log` (`state.h:23`). -/
abbrev Log := List LogItem

/-- The sentinel that the constructor puts at index 0 (`node.cpp:87`). -/
def sentinel : LogItem := { command := "", leaderTerm := 0 }

/-- A `std::map<NodeId, LogItemId>` (`state.h:46`). -/
abbrev IndexMap := Finmap (fun _ : NodeId => Nat)

/-- `operator[]` as an rvalue: a key that is not there counts as 0, the value-initialised
`LogItemId`. -/
def IndexMap.at (m : IndexMap) (id : NodeId) : Nat := (m.lookup id).getD 0

/-- Assignment through `operator[]`. -/
def IndexMap.set (m : IndexMap) (id : NodeId) (i : Nat) : IndexMap := m.insert id i

@[simp] theorem IndexMap.at_set (m : IndexMap) (id : NodeId) (i : Nat) :
    (m.set id i).at id = i := by
  simp [IndexMap.at, IndexMap.set]

@[simp] theorem IndexMap.at_set_of_ne (m : IndexMap) {id id' : NodeId} (i : Nat)
    (h : id' ≠ id) : (m.set id i).at id' = m.at id' := by
  simp [IndexMap.at, IndexMap.set, Finmap.lookup_insert_of_ne _ h]

/-- A read after an assignment, by whether it is at the same key. -/
theorem IndexMap.at_set_eq (m : IndexMap) (id id' : NodeId) (i : Nat) :
    (m.set id i).at id' = if id' = id then i else m.at id' := by
  split
  · next h => rw [h, at_set]
  · next h => exact at_set_of_ne m i h

/-- To write what is there changes nothing. -/
theorem IndexMap.at_set_at (m : IndexMap) (id id' : NodeId) :
    (m.set id (m.at id)).at id' = m.at id' := by
  rw [at_set_eq]
  split
  · next h => rw [h]
  · rfl

/-- Where there is an entry it is the same map, too. -/
theorem IndexMap.set_at_self (m : IndexMap) {id : NodeId} (h : id ∈ m.keys) :
    m.set id (m.at id) = m := by
  obtain ⟨i, hi⟩ := Finmap.mem_iff.1 (Finmap.mem_keys.1 h)
  refine Finmap.ext_lookup fun id' => ?_
  rw [IndexMap.set, IndexMap.at, hi]
  by_cases hid : id' = id
  · rw [hid, Finmap.lookup_insert, hi, Option.getD_some]
  · exact Finmap.lookup_insert_of_ne m hid

/-- Assignment adds no other key. -/
theorem IndexMap.mem_keys_set (m : IndexMap) (id id' : NodeId) (i : Nat) :
    id' ∈ (m.set id i).keys ↔ id' = id ∨ id' ∈ m.keys := by
  simp [IndexMap.set, Finmap.mem_keys]

/-- The same as an equation of finite sets. -/
theorem IndexMap.keys_set (m : IndexMap) (id : NodeId) (i : Nat) :
    (m.set id i).keys = insert id m.keys := by
  ext id'
  rw [mem_keys_set, Finset.mem_insert]

/-- `CandidateState` (`state.h:41`). -/
structure CandidateState where
  votes : Finset NodeId := ∅
  deriving DecidableEq

/-- `LeaderState` (`state.h:45`). -/
structure LeaderState where
  nextIndex : IndexMap := ∅
  matchIndex : IndexMap := ∅
  deriving DecidableEq

/-- `AppendEntriesRequest` (`message.h:10`). -/
structure AppendEntriesRequest where
  leaderTerm : Nat
  leaderId : NodeId
  prevLogIndex : Nat
  prevLogTerm : Nat
  entries : Log
  leaderCommit : Nat
  deriving DecidableEq, Repr

/-- `AppendEntriesResponse` (`message.h:19`). The last field is a ghost: the term of the request
that the response answers. It is set where the response is sent, it is on no wire, and no code
reads it. -/
structure AppendEntriesResponse where
  currentTerm : Nat
  success : Bool
  matchedUntil : Option Nat
  answers : Nat := 0
  deriving DecidableEq, Repr

/-- `RequestVoteRequest` (`message.h:25`). -/
structure RequestVoteRequest where
  candidateTerm : Nat
  candidateId : NodeId
  candidateLastLogIndex : Nat
  candidateLastLogTerm : Nat
  deriving DecidableEq, Repr

/-- `RequestVoteResponse` (`message.h:32`), whose fields are 0 when it is value-initialised. -/
structure RequestVoteResponse where
  currentTerm : Nat := 0
  voteGranted : Bool := false
  candidateTerm : Nat := 0
  deriving DecidableEq, Repr

/-- `Message` (`message.h:38`), a `std::variant` of the four kinds. -/
inductive Message where
  | appendEntriesRequest (arg : AppendEntriesRequest)
  | appendEntriesResponse (arg : AppendEntriesResponse)
  | requestVoteRequest (arg : RequestVoteRequest)
  | requestVoteResponse (arg : RequestVoteResponse)
  deriving DecidableEq, Repr

/-- `Node::AddCommandResult` (`node.h:24`): `leader_id_` is absent for a persisted command. -/
structure AddCommandResult where
  leaderId : Option NodeId := none
  deriving DecidableEq, Repr

/-- `CommandPersisted` (`node.h:29`). -/
def AddCommandResult.commandPersisted (r : AddCommandResult) : Bool := r.leaderId.isNone

/-- The ways in which a statement of the source has no defined result. -/
inductive Fault where
  /-- `channels_.at(id)` of a node that is not a member: `std::out_of_range` is thrown. -/
  | unknownChannel
  /-- An empty `std::optional` is dereferenced. -/
  | emptyOptional
  /-- `log[i]` with `i >= log.size()`. -/
  | logOutOfRange
  deriving DecidableEq, Repr

end ToFTDS.Consensus
