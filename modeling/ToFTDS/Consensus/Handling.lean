import ToFTDS.Consensus.NodeSteps

/-!
# What the request handlers promise

The loop of `HandleAppendEntriesRequest` compares, shrinks and appends; `append_entries_meets_spec`
says what comes of it for every log and every request, and that handling a request twice is handling
it once. The requests of one leader are slices of one log, and a follower whose log matches that log
can handle two of them in either order (`requests_commute`).

A requester that is behind learns the newer term from the reply, from every exit of the two handlers
but one: a stale `RequestVoteRequest` is answered with a value-initialised `RequestVoteResponse`,
whose term is 0 (`stale_requester_learns`). A stale request of this kind leaves the node alone; a
stale `AppendEntriesRequest` resets its election timer (`stale_request_ignored`).
-/

namespace ToFTDS.Consensus

open Node

namespace Node

/-! ## AppendEntries -/

/-- The three reasons to reject a request. -/
def Rejects (nd : Node) (req : AppendEntriesRequest) : Prop :=
  req.leaderTerm < nd.currentTerm ∨ nd.log.length ≤ req.prevLogIndex ∨
    ∃ item, nd.log[req.prevLogIndex]? = some item ∧ item.leaderTerm ≠ req.prevLogTerm

/-- The log after an accepted request: the entries that are there already are passed over, and if
any are left they replace all that follows. -/
def logAfter (nd : Node) (req : AppendEntriesRequest) : Log :=
  let k := commonPrefix req.entries (nd.log.drop (req.prevLogIndex + 1))
  if k = req.entries.length then nd.log
  else nd.log.take (req.prevLogIndex + k + 1) ++ req.entries.drop k

/-- The commit index after an accepted request. -/
def commitAfter (nd : Node) (req : AppendEntriesRequest) : Nat :=
  if nd.commitIndex < req.leaderCommit then
    min req.leaderCommit (req.prevLogIndex + req.entries.length)
  else nd.commitIndex

/-- Storing the entries gives the log after the request. -/
theorem splice_eq_logAfter (nd : Node) (req : AppendEntriesRequest) :
    splice (req.prevLogIndex + 1) req.entries nd.log = nd.logAfter req := by
  rw [splice_eq_commonPrefix, logAfter, Nat.add_right_comm]

/-- The handler rejects or accepts, and answers with the term it has then. -/
theorem handleAppendEntriesRequest_spec (nd : Node) (req : AppendEntriesRequest) :
    let term := max nd.currentTerm req.leaderTerm
    let resp := (nd.handleAppendEntriesRequest req).1
    let nd' := (nd.handleAppendEntriesRequest req).2
    nd'.currentTerm = term ∧
    (nd.Rejects req ∧ resp = { currentTerm := term, success := false, matchedUntil := none } ∧
        nd'.log = nd.log ∧ nd'.commitIndex = nd.commitIndex ∨
      ¬ nd.Rejects req ∧
        resp =
          { currentTerm := term
            success := true
            matchedUntil := some (req.prevLogIndex + req.entries.length) } ∧
        nd'.log = splice (req.prevLogIndex + 1) req.entries nd.log ∧
        nd'.commitIndex = nd.commitAfter req) := by
  have hterm : (nd.beforeEntries req).currentTerm = max nd.currentTerm req.leaderTerm :=
    nd.observeTerm_currentTerm req.leaderTerm
  have hlog : (nd.beforeEntries req).log = nd.log := nd.observeTerm_log req.leaderTerm
  have hcommit : (nd.beforeEntries req).commitIndex = nd.commitIndex :=
    nd.observeTerm_commitIndex req.leaderTerm
  have hq := quiet_redirectCommands (nd.beforeEntries req) req.leaderId
  have hterm' := hq.currentTerm.trans hterm
  rcases nd.handleAppendEntriesRequest_cases req with
    ⟨hlt, heq⟩ | ⟨ht, hprev, heq⟩ | ⟨ht, ⟨item, hitem, hitem'⟩, heq⟩ <;>
    simp only [heq, appendEntriesUnsuccessfull, appendEntriesSuccessfull]
  · refine ⟨hterm, .inl ⟨.inl ?_, by rw [hterm], hlog, hcommit⟩⟩
    rw [hterm] at hlt
    omega
  · refine ⟨hterm', .inl ⟨.inr ?_, by rw [hterm'], hq.log.trans hlog,
      hq.commitIndex.trans hcommit⟩⟩
    rw [hlog] at hprev
    rcases Nat.lt_or_ge req.prevLogIndex nd.log.length with hlt | hge
    · exact .inr ⟨_, List.getElem?_eq_getElem hlt, hprev _ (List.getElem?_eq_getElem hlt)⟩
    · exact .inl hge
  · refine ⟨hterm', .inr ⟨?_, by rw [hterm'], ?_, ?_⟩⟩
    · rw [hlog] at hitem
      rintro (hlt | hge | ⟨item', hsame, hne⟩)
      · rw [hterm] at ht
        omega
      · rw [List.getElem?_eq_none hge] at hitem
        cases hitem
      · rw [hitem] at hsame
        cases hsame
        exact hne hitem'
    · simp only [accept, hq.log, hlog]
    · simp only [accept, commitAfter, hq.commitIndex, hcommit]

/-- `resp` and `nd'` are what handling `req` should give. -/
structure MeetsSpec (nd : Node) (req : AppendEntriesRequest) (resp : AppendEntriesResponse)
    (nd' : Node) : Prop where
  rejected : resp.success = false ↔ nd.Rejects req
  unchanged : nd.Rejects req → nd'.log = nd.log ∧ nd'.commitIndex = nd.commitIndex
  log : ¬ nd.Rejects req → nd'.log = nd.logAfter req
  matchedUntil : ¬ nd.Rejects req →
    resp.matchedUntil = some (req.prevLogIndex + req.entries.length)
  commitIndex : ¬ nd.Rejects req → nd'.commitIndex = nd.commitAfter req
  /-- A second time nothing changes, and the reply is the same. -/
  again : (nd'.handleAppendEntriesRequest req).1 = resp ∧
    (nd'.handleAppendEntriesRequest req).2.log = nd'.log ∧
    (nd'.handleAppendEntriesRequest req).2.commitIndex = nd'.commitIndex

/-- What the reasons depend on. -/
theorem rejects_congr {nd nd' : Node} {req : AppendEntriesRequest}
    (ht : req.leaderTerm < nd'.currentTerm ↔ req.leaderTerm < nd.currentTerm)
    (hprev : nd'.log[req.prevLogIndex]? = nd.log[req.prevLogIndex]?) :
    nd'.Rejects req ↔ nd.Rejects req := by
  rw [Rejects, Rejects, ht, ← List.getElem?_eq_none_iff, ← List.getElem?_eq_none_iff, hprev]

/-- A request that is not rejected fits behind an item of the log. -/
theorem prev_lt_of_not_rejects {nd : Node} {req : AppendEntriesRequest} (h : ¬ nd.Rejects req) :
    req.prevLogIndex < nd.log.length := by
  by_contra hge
  exact h (.inr (.inl (Nat.le_of_not_lt hge)))

/-- **AppendEntries handling meets its specification.** -/
theorem append_entries_meets_spec (nd : Node) (req : AppendEntriesRequest) :
    nd.MeetsSpec req (nd.handleAppendEntriesRequest req).1
      (nd.handleAppendEntriesRequest req).2 := by
  obtain ⟨ht, hcases⟩ := nd.handleAppendEntriesRequest_spec req
  obtain ⟨-, hagain⟩ := (nd.handleAppendEntriesRequest req).2.handleAppendEntriesRequest_spec req
  generalize (nd.handleAppendEntriesRequest req).1 = resp at hcases ⊢
  generalize (nd.handleAppendEntriesRequest req).2 = nd' at ht hcases hagain ⊢
  have hstale : req.leaderTerm < nd'.currentTerm ↔ req.leaderTerm < nd.currentTerm := by
    rw [ht]
    omega
  have hterm : max nd'.currentTerm req.leaderTerm = max nd.currentTerm req.leaderTerm := by
    rw [ht]
    omega
  rcases hcases with ⟨hrej, rfl, hlog, hcommit⟩ | ⟨hrej, rfl, hlog, hcommit⟩
  · have hrej' : nd'.Rejects req := (rejects_congr hstale (by rw [hlog])).2 hrej
    refine ⟨iff_of_true rfl hrej, fun _ => ⟨hlog, hcommit⟩, absurd hrej, absurd hrej, absurd hrej,
      ?_⟩
    rcases hagain with ⟨-, hresp, hlog', hcommit'⟩ | ⟨hno, -⟩
    · exact ⟨by rw [hresp, hterm], hlog', hcommit'⟩
    · exact absurd hrej' hno
  · have hlt : req.prevLogIndex + 1 ≤ nd.log.length := prev_lt_of_not_rejects hrej
    have hrej' : ¬ nd'.Rejects req := by
      rwa [rejects_congr hstale]
      rw [hlog, getElem?_splice_of_lt hlt (Nat.lt_succ_self _)]
    refine ⟨iff_of_false nofun hrej, fun h => absurd h hrej, fun _ => ?_, fun _ => rfl,
      fun _ => hcommit, ?_⟩
    · rw [hlog, splice_eq_logAfter]
    · rcases hagain with ⟨hyes, -⟩ | ⟨-, hresp, hlog', hcommit'⟩
      · exact absurd hyes hrej'
      · refine ⟨by rw [hresp, hterm], ?_, ?_⟩
        · rw [hlog', hlog, splice_idem _ hlt]
        · rw [hcommit']
          unfold commitAfter at hcommit ⊢
          split at hcommit <;> split <;> omega

/-! ## Two requests of one leader -/

/-- `req` is a request that a leader of `term` with the log `L`, or with less of it, builds. -/
structure BuiltFrom (L : Log) (term : Nat) (req : AppendEntriesRequest) : Prop where
  leaderTerm : req.leaderTerm = term
  prev : ∃ item, L[req.prevLogIndex]? = some item ∧ req.prevLogTerm = item.leaderTerm
  slice : SliceOf req.prevLogIndex req.entries L
  leaderCommit : req.leaderCommit ≤ req.prevLogIndex + req.entries.length

/-- What `SendAppendEntriesToSomeone` builds, as long as the leader's commit index is within its
log. -/
theorem Builds.builtFrom {leader : Node} {req : AppendEntriesRequest} (h : leader.Builds req)
    {L : Log} (hp : leader.log <+: L) (hc : leader.commitIndex < leader.log.length) :
    BuiltFrom L leader.currentTerm req := by
  obtain ⟨item, hitem, hterm⟩ := h.prev
  refine ⟨h.leaderTerm, ⟨item, ?_, hterm⟩, h.sliceOf.extend hp, ?_⟩
  · obtain ⟨t, rfl⟩ := hp
    rw [List.getElem?_append_left h.prev_lt, hitem]
  · have := h.length
    rw [h.leaderCommit]
    omega

/-- Items of the same term at an index mean the same beginning up to it. -/
def LogMatching (F L : Log) : Prop :=
  ∀ i a b, F[i]? = some a → L[i]? = some b → a.leaderTerm = b.leaderTerm → AgreeTo i F L

/-- The request is not rejected. -/
def Accepts (nd : Node) (req : AppendEntriesRequest) : Prop :=
  (nd.handleAppendEntriesRequest req).1.success = true

/-- The node after it has handled a request. -/
def after (nd : Node) (req : AppendEntriesRequest) : Node := (nd.handleAppendEntriesRequest req).2

/-- What comes of an accepted request. -/
theorem after_of_accepts {nd : Node} {req : AppendEntriesRequest} (h : nd.Accepts req) :
    ¬ nd.Rejects req ∧ (nd.after req).log = splice (req.prevLogIndex + 1) req.entries nd.log ∧
      (nd.after req).commitIndex = nd.commitAfter req := by
  rcases nd.handleAppendEntriesRequest_spec req with ⟨-, ⟨-, hresp, -⟩ | ⟨hrej, -, hlog, hcommit⟩⟩
  · rw [Accepts, hresp] at h
    cases h
  · exact ⟨hrej, hlog, hcommit⟩

/-- A request that fits behind an item of the follower's log fits where the logs agree. -/
theorem BuiltFrom.agreeTo {L : Log} {term : Nat} {nd : Node} {req : AppendEntriesRequest}
    (h : BuiltFrom L term req) (hmatch : LogMatching nd.log L) (hacc : ¬ nd.Rejects req) :
    AgreeTo req.prevLogIndex nd.log L := by
  obtain ⟨item, hitem, hterm⟩ := h.prev
  have hlt := prev_lt_of_not_rejects hacc
  refine hmatch _ _ item (List.getElem?_eq_getElem hlt) hitem ?_
  by_contra hne
  exact hacc (.inr (.inr ⟨_, List.getElem?_eq_getElem hlt, fun heq => hne (heq.trans hterm)⟩))

/-- With `leader_commit` within the slice the commit index is the larger one. -/
theorem BuiltFrom.commitAfter {L : Log} {term : Nat} {req : AppendEntriesRequest}
    (h : BuiltFrom L term req) (nd : Node) :
    nd.commitAfter req = max nd.commitIndex req.leaderCommit := by
  have := h.leaderCommit
  unfold Node.commitAfter
  split <;> omega

/-- **Requests of one leader commute.** Two requests that are accepted in both orders leave the same
log and the same commit index in either, and one that ends no later than the other changes nothing
in the log if it comes late. -/
theorem requests_commute (nd : Node) (L : Log) (req req' : AppendEntriesRequest)
    (hmatch : LogMatching nd.log L) (h : BuiltFrom L nd.currentTerm req)
    (h' : BuiltFrom L nd.currentTerm req') (hacc : nd.Accepts req ∧ (nd.after req).Accepts req')
    (hacc' : nd.Accepts req' ∧ (nd.after req').Accepts req) :
    ((nd.after req).after req').log = ((nd.after req').after req).log ∧
      ((nd.after req).after req').commitIndex = ((nd.after req').after req).commitIndex ∧
      (req.prevLogIndex + req.entries.length ≤ req'.prevLogIndex + req'.entries.length →
        ((nd.after req').after req).log = (nd.after req').log ∧
        (nd.after req').commitIndex ≤ ((nd.after req').after req).commitIndex) := by
  obtain ⟨hrej, hlog, hcommit⟩ := after_of_accepts hacc.1
  obtain ⟨-, hlog₂, hcommit₂⟩ := after_of_accepts hacc.2
  obtain ⟨hrej', hlog', hcommit'⟩ := after_of_accepts hacc'.1
  obtain ⟨-, hlog₂', hcommit₂'⟩ := after_of_accepts hacc'.2
  have hag := h.agreeTo hmatch hrej
  have hag' := h'.agreeTo hmatch hrej'
  rw [h'.commitAfter, hcommit, h.commitAfter] at hcommit₂
  rw [h.commitAfter, hcommit', h'.commitAfter] at hcommit₂'
  rw [h'.commitAfter] at hcommit'
  rw [hlog] at hlog₂
  rw [hlog'] at hlog₂'
  refine ⟨?_, by omega, fun hle => ⟨?_, by omega⟩⟩
  · rw [hlog₂, hlog₂', splice_comm hag h.slice hag' h'.slice]
  · rw [hlog₂', hlog', splice_splice_of_le h.slice hag' h'.slice hle]

/-- A log of term 1, and a follower that has only its sentinel. -/
def twoEntries : Log :=
  [sentinel, { command := "x", leaderTerm := 1 }, { command := "y", leaderTerm := 1 }]

/-- The request with the first `n` of the entries. -/
def firstEntries (n : Nat) : AppendEntriesRequest where
  leaderTerm := 1
  leaderId := 1
  prevLogIndex := 0
  prevLogTerm := 0
  entries := (twoEntries.drop 1).take n
  leaderCommit := n - 1

/-- A slice and a longer one from the same leader leave the same log in both orders. -/
theorem requests_commute_twoEntries :
    let nd : Node := { myId := 2, channels := [1, 2], currentTerm := 1, log := [sentinel] }
    ((nd.after (firstEntries 1)).after (firstEntries 2)).log =
        ((nd.after (firstEntries 2)).after (firstEntries 1)).log ∧
      ((nd.after (firstEntries 2)).after (firstEntries 1)).log = twoEntries := by
  intro nd
  have hone : BuiltFrom twoEntries nd.currentTerm (firstEntries 1) :=
    ⟨rfl, ⟨sentinel, rfl, rfl⟩, ⟨by decide, rfl⟩, by decide⟩
  have htwo : BuiltFrom twoEntries nd.currentTerm (firstEntries 2) :=
    ⟨rfl, ⟨sentinel, rfl, rfl⟩, ⟨by decide, rfl⟩, by decide⟩
  have hmatch : LogMatching nd.log twoEntries := by
    intro i a b ha _ _
    obtain rfl : i = 0 := by
      have := (List.getElem?_eq_some_iff.1 ha).1
      exact Nat.lt_one_iff.1 this
    refine ⟨by decide, fun j hj => ?_⟩
    obtain rfl : j = 0 := by omega
    rfl
  obtain ⟨hlog, -⟩ := requests_commute nd twoEntries (firstEntries 1) (firstEntries 2) hmatch
    hone htwo ⟨rfl, rfl⟩ ⟨rfl, rfl⟩
  exact ⟨hlog, rfl⟩

/-! ## What a requester learns -/

/-- The reply to an `AppendEntriesRequest` has the responder's term, and whoever handles it has at
least this term and is a follower if it did not have it before. -/
def TellsTerm (nd : Node) (req : AppendEntriesRequest) : Prop :=
  let resp := (nd.handleAppendEntriesRequest req).1
  let nd' := (nd.handleAppendEntriesRequest req).2
  resp.currentTerm = nd'.currentTerm ∧
    ∀ requester fromWho requester',
      handleAppendEntriesResponse requester resp fromWho = .ok requester' →
      nd'.currentTerm ≤ requester'.currentTerm ∧
        (requester.currentTerm < requester'.currentTerm → requester'.role = .kFollower)

/-- The same of the reply to a `RequestVoteRequest`. -/
def TellsCandidate (nd : Node) (req : RequestVoteRequest) : Prop :=
  let resp := (nd.handleRequestVoteRequest req).1
  let nd' := (nd.handleRequestVoteRequest req).2
  resp.currentTerm = nd'.currentTerm ∧
    ∀ requester fromWho requester',
      handleRequestVoteResponse requester resp fromWho = .ok requester' →
      nd'.currentTerm ≤ requester'.currentTerm ∧
        (requester.currentTerm < requester'.currentTerm → requester'.role = .kFollower)

/-- A larger term makes a follower. -/
theorem observeTerm_role {nd : Node} {term : Nat}
    (h : nd.currentTerm < (nd.observeTerm term).currentTerm) :
    (nd.observeTerm term).role = .kFollower := by
  rcases nd.observeTerm_cases term with ⟨-, heq⟩ | ⟨-, heq⟩ <;> rw [heq] at h ⊢
  exact absurd h (Nat.lt_irrefl _)

/-- Who goes on after observing a term in another role has not been raised. -/
theorem learns_of_role {nd nd' : Node} {term : Nat} (hr : (nd.observeTerm term).role ≠ .kFollower)
    (ht : nd'.currentTerm = (nd.observeTerm term).currentTerm) :
    term ≤ nd'.currentTerm ∧ (nd.currentTerm < nd'.currentTerm → nd'.role = .kFollower) := by
  rw [ht]
  exact ⟨nd.le_observeTerm term, fun hlt => absurd (observeTerm_role hlt) hr⟩

/-- A handler of a reply observes its term, and goes on only if it leads. -/
theorem learns_appendEntriesResponse {nd nd' : Node} {resp : AppendEntriesResponse}
    {fromWho : NodeId} (h : nd.handleAppendEntriesResponse resp fromWho = .ok nd') :
    resp.currentTerm ≤ nd'.currentTerm ∧
      (nd.currentTerm < nd'.currentTerm → nd'.role = .kFollower) := by
  rcases handleAppendEntriesResponse_ok h with
    ⟨-, rfl⟩ | ⟨hr, ls, -, ⟨-, rfl⟩ | ⟨-, m, -, rfl⟩⟩
  · exact ⟨nd.le_observeTerm resp.currentTerm, observeTerm_role⟩
  · exact learns_of_role (by rw [hr]; nofun) rfl
  · exact learns_of_role (by rw [hr]; nofun) rfl

/-- The handler of a vote goes on only if it stands. -/
theorem learns_requestVoteResponse {nd nd' : Node} {resp : RequestVoteResponse} {fromWho : NodeId}
    (h : nd.handleRequestVoteResponse resp fromWho = .ok nd') :
    resp.currentTerm ≤ nd'.currentTerm ∧
      (nd.currentTerm < nd'.currentTerm → nd'.role = .kFollower) := by
  rcases handleRequestVoteResponse_ok h with rfl | ⟨hr, -, -, cs, -, rfl | ⟨-, hlead⟩⟩
  · exact ⟨nd.le_observeTerm resp.currentTerm, observeTerm_role⟩
  · exact learns_of_role (by rw [hr]; nofun) rfl
  · obtain ⟨l, rfl, -⟩ := becomeLeader_ok hlead
    exact learns_of_role (by rw [hr]; nofun) (by rw [sendEach_eq])

/-- The reply to an `AppendEntriesRequest` always tells the responder's term. -/
theorem tellsTerm (nd : Node) (req : AppendEntriesRequest) : nd.TellsTerm req := by
  have hterm : (nd.handleAppendEntriesRequest req).1.currentTerm =
      (nd.handleAppendEntriesRequest req).2.currentTerm := by
    obtain ⟨ht, ⟨-, hresp, -⟩ | ⟨-, hresp, -⟩⟩ := nd.handleAppendEntriesRequest_spec req <;>
      rw [ht, hresp]
  refine ⟨hterm, fun requester fromWho requester' h => ?_⟩
  rw [← hterm]
  exact learns_appendEntriesResponse h

/-- **A stale requester learns the newer term**, except from the reply to a `RequestVoteRequest` of
an earlier term than the responder's. -/
theorem stale_requester_learns (nd : Node) :
    (∀ req, nd.TellsTerm req) ∧
      ∀ req, nd.TellsCandidate req ↔ ¬ req.candidateTerm < nd.currentTerm := by
  refine ⟨nd.tellsTerm, fun req => ?_⟩
  have hterm := nd.observeTerm_currentTerm req.candidateTerm
  have hother : (nd.handleRequestVoteRequest req).1.currentTerm =
      (nd.handleRequestVoteRequest req).2.currentTerm → nd.TellsCandidate req := by
    intro heq
    refine ⟨heq, fun requester fromWho requester' h => ?_⟩
    rw [← heq]
    exact learns_requestVoteResponse h
  rcases nd.handleRequestVoteRequest_cases req with ⟨hlt, heq⟩ | ⟨ht, -, heq⟩ | ⟨ht, -, heq⟩
  · -- the reply has term 0, and the responder's is past the candidate's
    refine iff_of_false (fun h => ?_) (not_not.2 ?_)
    · have hzero : 0 = (nd.observeTerm req.candidateTerm).currentTerm := by
        have hsame := h.1
        rwa [heq] at hsame
      omega
    · omega
  · exact iff_of_true (hother (by rw [heq]; rfl)) (by omega)
  · exact iff_of_true (hother (by rw [heq]; rfl)) (by omega)

/-- A responder of term 2 does not tell a candidate of term 1. -/
theorem not_stale_requester_learns :
    ¬ ∀ (nd : Node) (req : RequestVoteRequest), nd.TellsCandidate req := by
  intro h
  have hzero := (h { myId := 2, channels := [1, 2], currentTerm := 2, log := [sentinel] }
    { candidateTerm := 1, candidateId := 1, candidateLastLogIndex := 0,
      candidateLastLogTerm := 0 }).1
  exact absurd hzero (by decide)

/-! ## What a stale request does -/

/-- A request of either kind. -/
inductive Request where
  | appendEntries (req : AppendEntriesRequest)
  | requestVote (req : RequestVoteRequest)

namespace Request

/-- The term in which the request has been sent. -/
def term : Request → Nat
  | .appendEntries req => req.leaderTerm
  | .requestVote req => req.candidateTerm

/-- The request asks for a vote. -/
def isRequestVote : Request → Bool
  | .appendEntries _ => false
  | .requestVote _ => true

end Request

/-- Handles the request: whether the reply grants what it asks for, and the node. -/
def handleRequest (nd : Node) : Request → Bool × Node
  | .appendEntries req =>
    ((nd.handleAppendEntriesRequest req).1.success, (nd.handleAppendEntriesRequest req).2)
  | .requestVote req =>
    ((nd.handleRequestVoteRequest req).1.voteGranted, (nd.handleRequestVoteRequest req).2)

/-- The request is refused, and nothing else comes of it: no field of the node changes, no promise
is answered and the election timer is not reset. -/
def Ignores (nd : Node) (req : Request) : Prop := nd.handleRequest req = (false, nd)

/-- `ResetElectionTimer` (`node.cpp:99`) stands before the check of the term. -/
theorem handleRequest_stale_appendEntries {nd : Node} {req : AppendEntriesRequest}
    (h : req.leaderTerm < nd.currentTerm) :
    nd.handleRequest (.appendEntries req) = (false, nd.resetElectionTimer) := by
  have hsame : nd.beforeEntries req = nd.resetElectionTimer := by
    rw [beforeEntries, observeTerm_eq_self (Nat.le_of_lt h)]
  have hterm : (nd.beforeEntries req).currentTerm = nd.currentTerm := by rw [hsame]; rfl
  rcases nd.handleAppendEntriesRequest_cases req with ⟨-, heq⟩ | ⟨ht, -⟩ | ⟨ht, -⟩
  · rw [handleRequest, heq, hsame]
    rfl
  all_goals omega

/-- A stale `RequestVoteRequest` is refused and changes nothing. -/
theorem handleRequest_stale_requestVote {nd : Node} {req : RequestVoteRequest}
    (h : req.candidateTerm < nd.currentTerm) :
    nd.handleRequest (.requestVote req) = (false, nd) := by
  have hsame := observeTerm_eq_self (Nat.le_of_lt h)
  rcases nd.handleRequestVoteRequest_cases req with ⟨-, heq⟩ | ⟨ht, -⟩ | ⟨ht, -⟩
  · rw [handleRequest, heq, hsame]
  all_goals
    rw [hsame] at ht
    omega

/-- Resetting the election timer is a change, if only of the history. -/
theorem resetElectionTimer_ne_self (nd : Node) : nd.resetElectionTimer ≠ nd := by
  intro heq
  have hlen := congrArg List.length (congrArg Node.history heq)
  simp [resetElectionTimer, emit] at hlen

/-- **A stale request is ignored** if and only if it is a `RequestVoteRequest`. -/
theorem stale_request_ignored (nd : Node) (req : Request) (h : req.term < nd.currentTerm) :
    nd.Ignores req ↔ req.isRequestVote = true := by
  cases req with
  | appendEntries req =>
    refine iff_of_false (fun heq => ?_) Bool.false_ne_true
    rw [Ignores, handleRequest_stale_appendEntries h] at heq
    exact nd.resetElectionTimer_ne_self (congrArg Prod.snd heq)
  | requestVote req => exact iff_of_true (handleRequest_stale_requestVote h) rfl

/-- A follower of term 2. -/
def inSecondTerm : Node := { myId := 2, channels := [1, 2], currentTerm := 2, log := [sentinel] }

/-- A follower of term 2 ignores a request for a vote in term 1. -/
theorem stale_request_ignored_inSecondTerm :
    inSecondTerm.Ignores (.requestVote
      { candidateTerm := 1, candidateId := 1, candidateLastLogIndex := 0,
        candidateLastLogTerm := 0 }) :=
  (stale_request_ignored inSecondTerm (.requestVote _) (by decide)).2 rfl

/-- A heartbeat of the leader of term 1 resets the election timer of a follower of term 2. -/
theorem not_stale_request_ignored :
    ¬ ∀ (nd : Node) (req : Request), req.term < nd.currentTerm → nd.Ignores req := by
  intro h
  have heq := h inSecondTerm (.appendEntries
    { leaderTerm := 1, leaderId := 1, prevLogIndex := 0, prevLogTerm := 0, entries := [],
      leaderCommit := 0 }) (by decide)
  have hhistory : [Event.resetTimer] = [] := congrArg (fun r => Node.history r.2) heq
  cases hhistory

end Node

end ToFTDS.Consensus
