import ToFTDS.Consensus.State

/-!
# Messages on the wire

Between two workers a consensus message travels as an `AnnotatedMessage` of `communication.proto`.
`OtherNodesMessageSender::Send` copies the fields of a message into it, and
`CommunicationImpl::SendAnnotatedMessage` copies them back into a fresh C++ struct (`worker.cpp`).
What gRPC delivers is taken to be what has been set.

A local struct starts with arbitrary numbers, and the copy back leaves `leader_commit` as it is. So
all but the `AppendEntriesRequest`s survive (`wire_round_trip`), and of these all but this field
(`received`).
-/

namespace ToFTDS.Communication

/-! ## `communication.proto` -/

/-- `Item`. -/
structure Item where
  command : String := ""
  leaderTerm : Int32 := 0
  deriving DecidableEq

/-- `AppendEntriesRequest`. -/
structure AppendEntriesRequest where
  leaderTerm : Int32 := 0
  leaderId : Int32 := 0
  prevLogIndex : Int32 := 0
  prevLogTerm : Int32 := 0
  item : List Item := []
  leaderCommit : Int32 := 0
  deriving DecidableEq

/-- `AppendEntriesResponse`. -/
structure AppendEntriesResponse where
  currentTerm : Int32 := 0
  success : Bool := false
  matchedUntil : Int32 := 0
  deriving DecidableEq

/-- `RequestVoteRequest`. -/
structure RequestVoteRequest where
  candidateTerm : Int32 := 0
  candidateId : Int32 := 0
  candidateLastLogIndex : Int32 := 0
  candidateLastLogTerm : Int32 := 0
  deriving DecidableEq

/-- `RequestVoteResponse`. -/
structure RequestVoteResponse where
  currentTerm : Int32 := 0
  voteGranted : Bool := false
  candidateTerm : Int32 := 0
  deriving DecidableEq

/-- `Message`: one of its four fields, or none. -/
inductive Message where
  | notSet
  | aeReq (msg : AppendEntriesRequest)
  | aeResp (msg : AppendEntriesResponse)
  | rvReq (msg : RequestVoteRequest)
  | rvResp (msg : RequestVoteResponse)
  deriving DecidableEq

/-- `AnnotatedMessage`. -/
structure AnnotatedMessage where
  message : Option Message := none
  senderId : Int32 := 0
  deriving DecidableEq

end ToFTDS.Communication

namespace ToFTDS.Worker

open Consensus

/-- A `uint64_t` put into an `int32` field: the last 32 bits count. -/
def toInt32 (n : Nat) : Int32 := Int32.ofNat n

/-- An `int32` taken into a `uint64_t`: a negative number wraps around. -/
def ofInt32 (x : Int32) : Nat := (x.toInt % 2 ^ 64).toNat

/-- `static_cast<uint32_t>` of an `int32`. -/
def castUInt32 (x : Int32) : Nat := (x.toInt % 2 ^ 32).toNat

/-- A number in range is the same after the way through `int32`. -/
theorem ofInt32_toInt32 {n : Nat} (h : n < 2 ^ 31) : ofInt32 (toInt32 n) = n := by
  rw [ofInt32, toInt32, Int32.toInt_ofNat_of_lt h]
  omega

/-- A cast to `uint32_t` does not change a number in range. -/
theorem castUInt32_toInt32 {n : Nat} (h : n < 2 ^ 31) : castUInt32 (toInt32 n) = n := by
  rw [castUInt32, toInt32, Int32.toInt_ofNat_of_lt h]
  omega

/-! ## The sender -/

namespace OtherNodesMessageSender

/-- The `std::visit` of `Send` (`worker.cpp:184`). A successful response without `matched_until`
throws. -/
def visit : Message → Except Fault Communication.Message
  | .appendEntriesRequest arg =>
    .ok (.aeReq
      { leaderTerm := toInt32 arg.leaderTerm
        leaderId := toInt32 arg.leaderId
        prevLogIndex := toInt32 arg.prevLogIndex
        prevLogTerm := toInt32 arg.prevLogTerm
        item := arg.entries.map fun elem =>
          { command := elem.command, leaderTerm := toInt32 elem.leaderTerm }
        leaderCommit := toInt32 arg.leaderCommit })
  | .requestVoteRequest arg =>
    .ok (.rvReq
      { candidateTerm := toInt32 arg.candidateTerm
        candidateId := toInt32 arg.candidateId
        candidateLastLogIndex := toInt32 arg.candidateLastLogIndex
        candidateLastLogTerm := toInt32 arg.candidateLastLogTerm })
  | .appendEntriesResponse arg =>
    let resp : Communication.AppendEntriesResponse :=
      { currentTerm := toInt32 arg.currentTerm, success := arg.success }
    if arg.success then
      match arg.matchedUntil with
      | some matchedUntil => .ok (.aeResp { resp with matchedUntil := toInt32 matchedUntil })
      | none => .error .emptyOptional
    else .ok (.aeResp resp)
  | .requestVoteResponse arg =>
    .ok (.rvResp
      { currentTerm := toInt32 arg.currentTerm
        voteGranted := arg.voteGranted
        candidateTerm := toInt32 arg.candidateTerm })

/-- `Send` (`worker.cpp:171`): what goes into the call of `SendAnnotatedMessage`. -/
def send (sender : NodeId) (message : Message) : Except Fault Communication.AnnotatedMessage := do
  let message ← visit message
  return { message := some message, senderId := toInt32 sender }

end OtherNodesMessageSender

/-! ## The receiver -/

namespace CommunicationImpl

/-- The two `grpc::Status` that `SendAnnotatedMessage` returns. -/
inductive Status where
  | ok
  | cancelled
  deriving DecidableEq

/-- What `SendAnnotatedMessage` returns, the comment it leaves, and what it hands to the node. -/
structure Outcome where
  status : Status
  comment : String := ""
  sent : Option (NodeId × Message) := none
  deriving DecidableEq

/-- The local structs of `SendAnnotatedMessage` before anything is assigned to them. The vector and
the optional in them are empty, and the numbers are arbitrary. The other two structs are assigned in
full. -/
structure Uninitialised where
  aeReq : AppendEntriesRequest
  rvResp : RequestVoteResponse

/-- `SendAnnotatedMessage` (`worker.cpp:104`). -/
def sendAnnotatedMessage (locals : Uninitialised) (request : Communication.AnnotatedMessage) :
    Outcome :=
  match request.message with
  | none => { status := .cancelled, comment := "!has_message()" }
  | some message =>
    let sender := ofInt32 request.senderId
    match message with
    | .aeReq req =>
      let request : AppendEntriesRequest :=
        { locals.aeReq with
          leaderTerm := ofInt32 req.leaderTerm
          leaderId := ofInt32 req.leaderId
          prevLogIndex := ofInt32 req.prevLogIndex
          prevLogTerm := ofInt32 req.prevLogTerm
          entries := req.item.map fun item =>
            { command := item.command, leaderTerm := castUInt32 item.leaderTerm } }
      { status := .ok, sent := some (sender, .appendEntriesRequest request) }
    | .aeResp resp =>
      let response : AppendEntriesResponse :=
        { currentTerm := ofInt32 resp.currentTerm
          success := resp.success
          matchedUntil := if resp.success then some (ofInt32 resp.matchedUntil) else none }
      { status := .ok, sent := some (sender, .appendEntriesResponse response) }
    | .rvReq req =>
      let request : RequestVoteRequest :=
        { candidateTerm := ofInt32 req.candidateTerm
          candidateId := ofInt32 req.candidateId
          candidateLastLogIndex := ofInt32 req.candidateLastLogIndex
          candidateLastLogTerm := ofInt32 req.candidateLastLogTerm }
      { status := .ok, sent := some (sender, .requestVoteRequest request) }
    | .rvResp resp =>
      let response : RequestVoteResponse :=
        { locals.rvResp with
          currentTerm := ofInt32 resp.currentTerm
          voteGranted := resp.voteGranted }
      let response :=
        if response.voteGranted then { response with candidateTerm := ofInt32 resp.candidateTerm }
        else response
      { status := .ok, sent := some (sender, .requestVoteResponse response) }
    | .notSet => { status := .cancelled, comment := "Empty message" }

end CommunicationImpl

/-! ## The round trip -/

open OtherNodesMessageSender CommunicationImpl

/-- The numbers of a message fit into the fields of the wire format, and a successful response has
its `matched_until`. -/
def Fits : Message → Prop
  | .appendEntriesRequest req =>
    req.leaderTerm < 2 ^ 31 ∧ req.leaderId < 2 ^ 31 ∧ req.prevLogIndex < 2 ^ 31 ∧
      req.prevLogTerm < 2 ^ 31 ∧ (∀ item ∈ req.entries, item.leaderTerm < 2 ^ 31) ∧
      req.leaderCommit < 2 ^ 31
  | .appendEntriesResponse resp =>
    resp.currentTerm < 2 ^ 31 ∧ (∀ m ∈ resp.matchedUntil, m < 2 ^ 31) ∧
      (resp.success = true → resp.matchedUntil.isSome)
  | .requestVoteRequest req =>
    req.candidateTerm < 2 ^ 31 ∧ req.candidateId < 2 ^ 31 ∧ req.candidateLastLogIndex < 2 ^ 31 ∧
      req.candidateLastLogTerm < 2 ^ 31
  | .requestVoteResponse resp => resp.currentTerm < 2 ^ 31 ∧ resp.candidateTerm < 2 ^ 31

/-- The messages are of one kind and equal in every field that counts: `matched_until` counts in a
successful response only, and `candidate_term` in a granted vote. -/
def SameFields : Message → Message → Prop
  | .appendEntriesRequest req, .appendEntriesRequest req' => req = req'
  | .appendEntriesResponse resp, .appendEntriesResponse resp' =>
    resp.currentTerm = resp'.currentTerm ∧ resp.success = resp'.success ∧
      (resp.success = true → resp.matchedUntil = resp'.matchedUntil)
  | .requestVoteRequest req, .requestVoteRequest req' => req = req'
  | .requestVoteResponse resp, .requestVoteResponse resp' =>
    resp.currentTerm = resp'.currentTerm ∧ resp.voteGranted = resp'.voteGranted ∧
      (resp.voteGranted = true → resp.candidateTerm = resp'.candidateTerm)
  | _, _ => False

/-- What arrives of a message. -/
def arrives (locals : Uninitialised) : Message → Message
  | .appendEntriesRequest req =>
    .appendEntriesRequest { req with leaderCommit := locals.aeReq.leaderCommit }
  | .appendEntriesResponse resp =>
    .appendEntriesResponse
      { currentTerm := resp.currentTerm
        success := resp.success
        matchedUntil := if resp.success then resp.matchedUntil else none }
  | .requestVoteRequest req => .requestVoteRequest req
  | .requestVoteResponse resp =>
    .requestVoteResponse
      { resp with
        candidateTerm :=
          if resp.voteGranted then resp.candidateTerm else locals.rvResp.candidateTerm }

/-- What is sent and received. -/
theorem received {sender : NodeId} {m : Message} (hs : sender < 2 ^ 31) (hm : Fits m) :
    ∃ wire, send sender m = .ok wire ∧ ∀ locals, sendAnnotatedMessage locals wire =
      { status := .ok, sent := some (sender, arrives locals m) } := by
  have hs := ofInt32_toInt32 hs
  cases m with
  | appendEntriesRequest req =>
    obtain ⟨h1, h2, h3, h4, h5, -⟩ := hm
    refine ⟨_, rfl, fun locals => ?_⟩
    have hitems : (req.entries.map fun elem : LogItem =>
        (⟨elem.command, castUInt32 (toInt32 elem.leaderTerm)⟩ : LogItem)) = req.entries := by
      conv_rhs => rw [← List.map_id req.entries]
      refine List.map_congr_left fun item hitem => ?_
      rw [castUInt32_toInt32 (h5 item hitem)]
      rfl
    simp [sendAnnotatedMessage, arrives, hs, ofInt32_toInt32 h1, ofInt32_toInt32 h2,
      ofInt32_toInt32 h3, ofInt32_toInt32 h4, Function.comp_def, hitems]
  | appendEntriesResponse resp =>
    obtain ⟨h1, h2, h3⟩ := hm
    cases hsucc : resp.success with
    | false =>
      refine ⟨_, by simp [send, visit, hsucc]; rfl, fun locals => ?_⟩
      simp [sendAnnotatedMessage, arrives, hs, ofInt32_toInt32 h1, hsucc]
    | true =>
      obtain ⟨m, hm⟩ := Option.isSome_iff_exists.1 (h3 hsucc)
      refine ⟨_, by simp [send, visit, hsucc, hm]; rfl, fun locals => ?_⟩
      simp [sendAnnotatedMessage, arrives, hs, ofInt32_toInt32 h1, hsucc, hm,
        ofInt32_toInt32 (h2 m hm)]
  | requestVoteRequest req =>
    obtain ⟨h1, h2, h3, h4⟩ := hm
    refine ⟨_, rfl, fun locals => ?_⟩
    simp [sendAnnotatedMessage, arrives, hs, ofInt32_toInt32 h1, ofInt32_toInt32 h2,
      ofInt32_toInt32 h3, ofInt32_toInt32 h4]
  | requestVoteResponse resp =>
    obtain ⟨h1, h2⟩ := hm
    refine ⟨_, rfl, fun locals => ?_⟩
    cases hgr : resp.voteGranted with
    | false => simp [sendAnnotatedMessage, arrives, hs, ofInt32_toInt32 h1, hgr]
    | true =>
      simp [sendAnnotatedMessage, arrives, hs, ofInt32_toInt32 h1, ofInt32_toInt32 h2, hgr]

/-- Whatever the receiver's structs hold before, it hands on the message that was sent, from the one
who sent it. -/
def RoundTrip (sender : NodeId) (m : Message) : Prop :=
  ∃ wire, send sender m = .ok wire ∧ ∀ locals, ∃ m', sendAnnotatedMessage locals wire =
    { status := .ok, sent := some (sender, m') } ∧ SameFields m m'

/-- **Wire round trip.** The messages that survive are those that are no `AppendEntriesRequest`. -/
theorem wire_round_trip (sender : NodeId) (m : Message) (hs : sender < 2 ^ 31) (hm : Fits m) :
    RoundTrip sender m ↔ ∀ req, m ≠ .appendEntriesRequest req := by
  obtain ⟨wire, hwire, hrecv⟩ := received hs hm
  have hiff : RoundTrip sender m ↔ ∀ locals, SameFields m (arrives locals m) := by
    constructor
    · rintro ⟨wire', hwire', h⟩ locals
      obtain rfl : wire = wire' := Except.ok.inj (hwire.symm.trans hwire')
      obtain ⟨m', hm', hsame⟩ := h locals
      rw [hrecv locals] at hm'
      simp only [Outcome.mk.injEq, Option.some.injEq, Prod.mk.injEq, true_and] at hm'
      exact hm' ▸ hsame
    · exact fun h => ⟨wire, hwire, fun locals => ⟨_, hrecv locals, h locals⟩⟩
  rw [hiff]
  cases m with
  | appendEntriesRequest req =>
    refine iff_of_false (fun h => ?_) fun h => h req rfl
    -- the receiver's struct may hold any other commit index
    have := congrArg AppendEntriesRequest.leaderCommit
      (h { aeReq := { req with leaderCommit := req.leaderCommit + 1 }, rvResp := {} })
    exact absurd this (Nat.ne_of_lt (Nat.lt_succ_self _))
  | appendEntriesResponse resp =>
    refine iff_of_true (fun locals => ⟨rfl, rfl, fun hsucc => ?_⟩) nofun
    simp [hsucc]
  | requestVoteRequest req => exact iff_of_true (fun _ => rfl) nofun
  | requestVoteResponse resp =>
    refine iff_of_true (fun locals => ⟨rfl, rfl, fun hgr => ?_⟩) nofun
    simp [hgr]

/-- A granted vote, for a round trip in range. -/
def grantedVote : Message :=
  .requestVoteResponse { currentTerm := 3, voteGranted := true, candidateTerm := 3 }

/-- A granted vote makes the round trip. -/
theorem wire_round_trip_grantedVote :
    RoundTrip 9001 grantedVote ↔ ∀ req, grantedVote ≠ .appendEntriesRequest req :=
  wire_round_trip 9001 grantedVote (by decide) ⟨by decide, by decide⟩

/-- A heartbeat of node 9001 in term 1. -/
def heartbeat : AppendEntriesRequest where
  leaderTerm := 1
  leaderId := 9001
  prevLogIndex := 0
  prevLogTerm := 0
  entries := []
  leaderCommit := 0

/-- A heartbeat arrives with what its receiver's struct happens to hold as the commit index. -/
theorem not_wire_round_trip : ¬ ∀ sender m, sender < 2 ^ 31 → Fits m → RoundTrip sender m := by
  intro h
  obtain ⟨wire, hwire, hrecv⟩ := h 9001 (.appendEntriesRequest heartbeat) (by decide)
    ⟨by decide, by decide, by decide, by decide, by simp [heartbeat], by decide⟩
  cases hwire
  obtain ⟨m', hm', hsame⟩ :=
    hrecv { aeReq := { heartbeat with leaderCommit := 5 }, rvResp := {} }
  cases hm'
  cases hsame

end ToFTDS.Worker
