import ToFTDS.Consensus.Replies

/-!
# The range of `next_index` and `match_index`

A leader sends a request every tick, without waiting for the reply to the last one, so several
refusals of the same request can arrive together, and each lowers `next_index` (`node.cpp:256`).
A successful reply of an earlier term can report an index past the end of the log. And with two
leaders in a term one can make the other shorten its log. `outOfRange` marks these steps; in all
other runs `match_index` and `next_index` stay within the log.
-/

namespace ToFTDS.Consensus

open Run Node Cluster

/-- A leader handles a refusal for a member whose `next_index` is next to its `match_index`, or a
successful reply of an earlier term that reports an index past its log, or accepts a request that
makes it shorten its log. -/
def outOfRange : Hazard where
  handles nd sender msg :=
    match msg with
    | .appendEntriesResponse resp =>
      nd.role = .kLeader && nd.leaderState.any fun ls =>
        if resp.success then
          resp.currentTerm < nd.currentTerm && resp.matchedUntil.any (nd.getLastLogIndex < ·)
        else ls.nextIndex.at sender ≤ ls.matchIndex.at sender + 1
    | .appendEntriesRequest req =>
      nd.role = .kLeader && req.leaderTerm = nd.currentTerm &&
        nd.log[req.prevLogIndex]?.any (·.leaderTerm = req.prevLogTerm) &&
        (conflictAt nd.log (req.prevLogIndex + 1) req.entries).isSome
    | _ => false

/-- The replies in the hazard: a success of an earlier term that reports an index past the log, and
a refusal where `next_index` is next to `match_index`. -/
theorem outOfRange_response (nd : Node) (sender : NodeId) (resp : AppendEntriesResponse) :
    outOfRange.handles nd.core sender (.appendEntriesResponse resp) =
      (decide (nd.role = .kLeader) && nd.leaderState.any fun ls =>
        if resp.success then
          decide (resp.currentTerm < nd.currentTerm) &&
            resp.matchedUntil.any (fun m => decide (nd.getLastLogIndex < m))
        else decide (ls.nextIndex.at sender ≤ ls.matchIndex.at sender + 1)) := rfl

/-- The events of requests. -/
def Event.request : Event → Bool
  | .send _ (.appendEntriesRequest _) => true
  | _ => false

/-- Quiet events are no requests. -/
theorem Event.not_request_of_quiet (e : Event) (h : e.quiet = true) : e.request = false := by
  cases e <;> first | rfl | cases h

/-- The indices of a leader are within its log, and so is what it has sent in its term. -/
structure InRange (ids : List NodeId) (nd : Node) : Prop where
  log : 0 < nd.log.length
  request : ∀ {w req}, .send w (.appendEntriesRequest req) ∈ nd.history →
    req.leaderTerm = nd.currentTerm → req.prevLogIndex + req.entries.length < nd.log.length
  leader : nd.role = .kLeader → ∀ ls, nd.leaderState = some ls → ∀ f ∈ ids,
    ls.matchIndex.at f + 1 ≤ ls.nextIndex.at f ∧ ls.nextIndex.at f ≤ nd.log.length

namespace InRange

variable {ids : List NodeId} {nd nd' : Node}

/-- What sends nothing and does not shorten the log keeps it. -/
theorem frame (h : InRange ids nd) (ht : nd'.currentTerm = nd.currentTerm)
    (hr : nd'.role = nd.role) (hls : nd'.leaderState = nd.leaderState)
    (hlog : nd.log.length ≤ nd'.log.length) (hev : NoNew Event.request nd nd') :
    InRange ids nd' where
  log := Nat.lt_of_lt_of_le h.log hlog
  request hs ht' := Nat.lt_of_lt_of_le (h.request (hev.mem hs rfl) (ht ▸ ht')) hlog
  leader hr' ls hls' f hf := by
    obtain ⟨h1, h2⟩ := h.leader (hr ▸ hr') ls (hls ▸ hls') f hf
    exact ⟨h1, Nat.le_trans h2 hlog⟩

/-- In a larger term there is nothing to keep. -/
theorem raise (h : InRange ids nd) {R : NodeId → AppendEntriesRequest → Prop}
    (hN : ReplyNode R nd) (ht : nd.currentTerm < nd'.currentTerm) (hr : nd'.role ≠ .kLeader)
    (hlog : nd'.log = nd.log) (hev : NoNew Event.request nd nd') : InRange ids nd' where
  log := hlog ▸ h.log
  request hs ht' := by
    have := hN.requestTerm (hev.mem hs rfl)
    omega
  leader hr' := absurd hr' hr

/-- A change of one member's indices that keeps them in range. -/
theorem setLeaderState (h : InRange ids nd) {ls ls' : LeaderState} {sender : NodeId}
    (hr : nd.role = .kLeader) (hls : nd.leaderState = some ls)
    (hne : ∀ f, f ≠ sender → ls'.matchIndex.at f = ls.matchIndex.at f ∧
      ls'.nextIndex.at f = ls.nextIndex.at f)
    (hself : ls'.matchIndex.at sender + 1 ≤ ls'.nextIndex.at sender ∧
      ls'.nextIndex.at sender ≤ nd.log.length) :
    InRange ids { nd with leaderState := some ls' } where
  log := h.log
  request := h.request
  leader := by
    rintro - ls'' hls'' f hf
    cases hls''
    rcases eq_or_ne f sender with rfl | hf'
    · exact hself
    · rw [(hne f hf').1, (hne f hf').2]
      exact h.leader hr ls hls f hf

/-- Whoever accepts a request without being the leader has sent nothing in this term. -/
theorem acceptEntries (h : InRange ids nd) {R : NodeId → AppendEntriesRequest → Prop}
    (hN : ReplyNode R nd) {req : AppendEntriesRequest} (hprev : req.prevLogIndex < nd.log.length)
    (hz : nd.role = .kLeader → conflictAt nd.log (req.prevLogIndex + 1) req.entries = none) :
    InRange ids (nd.accept req) := by
  have hev : NoNew Event.request nd (nd.accept req) := noNew_accept (fun _ => rfl) nd req
  rcases eq_or_ne nd.role .kLeader with hr | hr
  · exact h.frame rfl rfl rfl (prefix_splice hprev (hz hr)).length_le hev
  · have hlen := length_splice_le req.entries (show req.prevLogIndex + 1 ≤ nd.log.length from hprev)
    refine ⟨?_, fun hs ht => absurd (hN.requestRole (hev.mem hs rfl) ht) hr,
      fun hr' => absurd hr' hr⟩
    change 0 < (splice _ _ _).length
    omega

/-- The next index goes down after a refusal, and stays above the match index. -/
theorem refused (h : InRange ids nd) {ls : LeaderState} {sender : NodeId} (hmem : sender ∈ ids)
    (hr : nd.role = .kLeader) (hls : nd.leaderState = some ls)
    (hlt : ls.matchIndex.at sender + 1 < ls.nextIndex.at sender) :
    InRange ids { nd with
      leaderState := some { ls with
        nextIndex := ls.nextIndex.set sender (decrement (ls.nextIndex.at sender)) } } := by
  obtain ⟨h1, h2⟩ := h.leader hr ls hls sender hmem
  refine h.setLeaderState hr hls (fun f (hf : f ≠ sender) => ?_) ?_
  · simp [hf]
  · rw [IndexMap.at_set, decrement, if_neg (by omega)]
    dsimp only
    omega

/-- The indices go up to what is within the log. -/
theorem matched (h : InRange ids nd) {ls : LeaderState} {sender : NodeId} (hmem : sender ∈ ids)
    (hr : nd.role = .kLeader) (hls : nd.leaderState = some ls) {m : Nat} (hm : m < nd.log.length) :
    InRange ids { nd with
      leaderState := some
        { nextIndex := ls.nextIndex.set sender
            (max (ls.nextIndex.at sender) (max (ls.matchIndex.at sender) m + 1))
          matchIndex := ls.matchIndex.set sender (max (ls.matchIndex.at sender) m) } } := by
  obtain ⟨h1, h2⟩ := h.leader hr ls hls sender hmem
  refine h.setLeaderState hr hls (fun f (hf : f ≠ sender) => ?_) ?_
  · simp [hf]
  · simp only [IndexMap.at_set]
    omega

/-- A new leader has sent nothing in its term, and expects nothing of the members. -/
theorem becomeLeader (h : InRange ids nd) {R : NodeId → AppendEntriesRequest → Prop}
    (hN : ReplyNode R nd) (hr : nd.role = .kCandidate) (hch : ∀ f ∈ ids, f ∈ nd.channels) :
    InRange ids ({ nd with
      votedFor := none
      candidateState := none
      leaderState := some nd.initialLeaderState
      role := .kLeader }.note [.becameLeader nd.currentTerm nd.log]) := by
  refine ⟨h.log, fun {w req} hs ht => ?_, ?_⟩
  · have hs : .send w (.appendEntriesRequest req) ∈ nd.history := by simpa [note] using hs
    have := hN.requestRole hs ht
    rw [hr] at this
    cases this
  · rintro - ls hls f hf
    cases hls
    rw [initialLeaderState_matchIndex, initialLeaderState_nextIndex nd (hch f hf)]
    have := h.log
    change 0 + 1 ≤ nd.log.length - 1 + 1 ∧ nd.log.length - 1 + 1 ≤ nd.log.length
    omega

/-- A request that a leader builds from its log is in range. -/
theorem sendEntries (h : InRange ids nd) {req : AppendEntriesRequest} (hb : nd.Builds req)
    (whom : NodeId) : InRange ids (nd.note [.send whom (.appendEntriesRequest req)]) := by
  refine ⟨h.log, fun {w req'} hs ht => ?_, h.leader⟩
  simp only [note, List.mem_append, List.mem_singleton, Event.send.injEq,
    Message.appendEntriesRequest.injEq] at hs
  rcases hs with hs | ⟨-, rfl⟩
  · exact h.request hs ht
  · have := hb.length
    change _ < nd.log.length
    omega

end InRange

/-- The replies and the leaders' indices. -/
def IndicesInRange (ids : List NodeId) (nodes : NodeId → Node) : Prop :=
  Replies ids nodes ∧ ∀ i ∈ ids, InRange ids (nodes i)

/-- A move outside the hazard keeps the indices of all members in range. -/
theorem indicesInRange_move {z : Hazard} (hz : outOfRange.Le z) {ids : List NodeId}
    {nodes : NodeId → Node} {i : NodeId} {nd : Node} (hI : IndicesInRange ids nodes)
    (h : MemberMove z ids nodes i nd) : IndicesInRange ids (Function.update nodes i nd) := by
  refine ⟨replies_move hI.1 h, forall_update ?_ hI.2⟩
  obtain ⟨hi, -, hch, hm⟩ := h
  have hN := hI.1 i hi
  have hR := hI.2 i hi
  have hreplies := hI.1
  have hq := Event.not_request_of_quiet
  generalize hnd : nodes i = nd₀ at hm hN hR hch
  cases hm with
  | chore h =>
    have h := h.quiet
    exact hR.frame h.currentTerm h.role h.leaderState (Nat.le_of_eq (by rw [h.log])) (h.noNew hq)
  | observe term ht => exact hR.raise hN ht (fun hr => by cases hr) rfl (noNew_of_history_eq rfl)
  | commit ls id =>
    have h := quiet_foldl_resolve (List.range' (nd₀.commitIndex + 1) (id - nd₀.commitIndex)) nd₀
    refine hR.frame h.currentTerm h.role h.leaderState (Nat.le_of_eq ?_)
      (noNew_commit (fun _ => rfl) (fun _ _ _ => rfl) _ _ _ _ _)
    exact congrArg List.length h.log.symm
  | refuseEntries | refuseVote | grantVote =>
    exact hR.frame rfl rfl rfl (Nat.le_refl _) (noNew_note (by simp [Event.request]))
  | acceptEntries sender req resp hg hs ht hprev hzz hresp =>
    have hlt : req.prevLogIndex < nd₀.log.length := by
      obtain ⟨item, hitem, -⟩ := hprev
      exact (List.getElem?_eq_some_iff.1 hitem).1
    refine (hR.acceptEntries hN hlt fun hr => ?_).frame rfl rfl rfl (Nat.le_refl _)
      (noNew_note (by simp [Event.request]))
    have hmark := hz.handles hzz
    change (decide (nd₀.role = .kLeader) && decide (req.leaderTerm = nd₀.currentTerm) &&
      nd₀.log[req.prevLogIndex]?.any (fun item => decide (item.leaderTerm = req.prevLogTerm)) &&
      (conflictAt nd₀.log (req.prevLogIndex + 1) req.entries).isSome) = false at hmark
    obtain ⟨item, hitem, hterm⟩ := hprev
    simpa [hr, ht, hitem, hterm] using hmark
  | refused sender resp ls hg ht hr hls hs hzz =>
    have hmark := hz.handles hzz
    rw [outOfRange_response] at hmark
    have hmem : sender ∈ ids := hg.1
    refine hR.refused hmem hr hls ?_
    simpa [hr, hls, hs] using hmark
  | matched sender resp ls m hg ht hr hls hs hmu hzz =>
    obtain ⟨req, -, ⟨-, hsent⟩, -, hsucc⟩ := (hreplies sender hg.1).reply hg.2
    obtain ⟨hterm, hm'⟩ := hsucc hs
    obtain rfl : m = req.prevLogIndex + req.entries.length := Option.some.inj (hmu.symm.trans hm')
    have hmem : sender ∈ ids := hg.1
    refine hR.matched hmem hr hls ?_
    -- a reply of this term reports what the leader has sent
    rcases Nat.lt_or_eq_of_le ht with hlt | heq
    · have hlog := hR.log
      have hmark := hz.handles hzz
      rw [outOfRange_response] at hmark
      have hle : req.prevLogIndex + req.entries.length ≤ nd₀.getLastLogIndex := by
        simpa [hr, hls, hs, hmu, hlt] using hmark
      rw [getLastLogIndex] at hle
      omega
    · rw [hnd] at hsent
      exact hR.request hsent (hterm.symm.trans heq)
  | countVote => exact hR.frame rfl rfl rfl (Nat.le_refl _) (noNew_of_history_eq rfl)
  | becomeLeader cs hr => exact hR.becomeLeader hN hr fun _ hf => hch ▸ hf
  | sendEntries whom req hr hw hb => exact hR.sendEntries hb whom
  | append command rest =>
    refine hR.frame rfl rfl rfl ?_ (noNew_addNewCommand (fun _ => rfl) (fun _ _ _ => rfl) _ command)
    change _ ≤ (nd₀.log ++ [_]).length
    simp
  | stand =>
    exact hR.raise hN (Nat.lt_succ_self _) (fun hr => by cases hr) rfl
      (noNew_note (by simp [Event.request]))

/-- The indices of all members are in range after every run outside the hazard. -/
theorem indicesInRange_run {z : Hazard} (hz : outOfRange.Le z) {members : Members}
    {ops : List Op} {s : Cluster} (hrun : exec step ops (init members) = some s)
    (havoid : Avoids step (marks z) ops (init members) = true) :
    IndicesInRange members.ids s.node :=
  invariant_run (fun _ _ _ => indicesInRange_move hz)
    ⟨replies_init members, fun _ _ => ⟨Nat.zero_lt_one, nofun, nofun⟩⟩ hrun havoid

/-- A leader's `match_index` and `next_index` of every member are in order and within its log, and
the item in front of `next_index` exists. -/
def Cluster.IndexBookkeeping (s : Cluster) : Prop :=
  ∀ i ∈ s.members.ids, (s.node i).role = .kLeader → ∃ ls, (s.node i).leaderState = some ls ∧
    ∀ f ∈ s.members.ids, ls.matchIndex.at f + 1 ≤ ls.nextIndex.at f ∧
      ls.nextIndex.at f ≤ (s.node i).getLastLogIndex + 1 ∧ 1 ≤ ls.nextIndex.at f ∧
      ((s.node i).log[ls.nextIndex.at f - 1]?).isSome = true

/-- **Leader index bookkeeping stays in range**, in a run in which no leader lowers a `next_index`
to its `match_index`, counts an index of an earlier term past its log, or shortens its log. -/
theorem index_bookkeeping (members : Members) (ops : List Op) (s : Cluster)
    (hrun : exec step ops (init members) = some s)
    (havoid : Avoids step (marks outOfRange) ops (init members) = true) :
    s.IndexBookkeeping := by
  obtain ⟨hrep, hrange⟩ := indicesInRange_run (Hazard.Le.refl _) hrun havoid
  rw [Cluster.IndexBookkeeping, members_run hrun]
  intro i hi hr
  obtain ⟨ls, hls⟩ := Option.isSome_iff_exists.1 ((hrep i hi).leader hr)
  refine ⟨ls, hls, fun f hf => ?_⟩
  obtain ⟨h1, h2⟩ := (hrange i hi).leader hr ls hls f hf
  refine ⟨h1, ?_, by omega, ?_⟩
  · rw [getLastLogIndex]
    omega
  · rw [List.getElem?_eq_getElem (by omega)]
    rfl

/-- The leader of term 1 raises `next_index` after the reply of node 2. -/
theorem index_bookkeeping_firstEntryRun :
    ∃ s, exec step (firstEntryRun ++ .deliver 6 :: tickOps 1 3) (init threeMembers) = some s ∧
      (s.node 1).leaderState.any (fun ls => ls.nextIndex.at 2 = 2) = true ∧
      s.IndexBookkeeping := by
  obtain ⟨s, hrun, hs⟩ : ∃ s, exec step (firstEntryRun ++ .deliver 6 :: tickOps 1 3)
      (init threeMembers) = some s ∧
      (s.node 1).leaderState.any (fun ls => ls.nextIndex.at 2 = 2) = true :=
    exists_of_any (by decide +kernel)
  exact ⟨s, hrun, hs, index_bookkeeping threeMembers _ s hrun (by decide +kernel)⟩

/-- In term 3 node 1 sends node 3 the same request in two ticks, and handles both refusals in the
next. -/
def twoRefusalsRun : List Op :=
  secondTermRun ++ tickOps 1 1 ++ [.deliver 11, .deliver 12] ++ tickOps 3 3 ++
  [.deliver 12, .deliver 12, .act 1 .beginTick] ++ List.replicate 4 (.act 1 .handle)

/-- The second refusal lowers `next_index` to 0, and the end of the tick then has no defined
result. -/
theorem not_index_bookkeeping :
    (¬ ∀ s, exec step twoRefusalsRun (init threeMembers) = some s → s.IndexBookkeeping) ∧
      exec step (twoRefusalsRun ++ [.act 1 (.endTick false)]) (init threeMembers) = none := by
  constructor
  · obtain ⟨s, hrun, hs⟩ : ∃ s, exec step twoRefusalsRun (init threeMembers) = some s ∧
        ((s.node 1).role = .kLeader &&
          (s.node 1).leaderState.any (fun ls => ls.nextIndex.at 3 = 0) : Bool) = true :=
      exists_of_any (by decide +kernel)
    intro h
    simp only [Bool.and_eq_true, decide_eq_true_eq] at hs
    have hids := ids_threeMembers hrun
    obtain ⟨ls, hls, hall⟩ := h s hrun 1 (by simp [hids]) hs.1
    have h0 : ls.nextIndex.at 3 = 0 := by simpa [hls] using hs.2
    obtain ⟨h1, -⟩ := hall 3 (by simp [hids])
    omega
  · rw [← Option.not_isSome_iff_eq_none, Bool.not_eq_true]
    decide +kernel

end ToFTDS.Consensus
