import ToFTDS.Consensus.Handling
import ToFTDS.Consensus.Progress

/-!
# How a leader repairs a log

A refused request makes the leader step `next_index` back by one, and the next request reaches one
item further back (`node.cpp:256`). `exchange` is one round of this between a leader and a member:
the request, its handling, and the handling of the reply. Logs that match agree at the latest in
front of the sentinel, so a request is accepted after at most as many exchanges as `next_index`
says. The entries of a request reach to the end of the leader's log: the first one that is accepted
repairs the member's log at once, and all later ones are accepted (`log_repaired`).
-/

namespace ToFTDS.Consensus

open Run Cluster

namespace Node

/-- The request that the node has sent last, if that is what it has done last. -/
def lastRequest (nd : Node) : Option AppendEntriesRequest :=
  match nd.history.getLast? with
  | some (.send _ (.appendEntriesRequest req)) => some req
  | _ => none

@[simp] theorem lastRequest_send (nd : Node) (whom : NodeId) (req : AppendEntriesRequest) :
    (nd.send whom (.appendEntriesRequest req)).lastRequest = some req := by
  simp [lastRequest, send]

/-- The leader `ld` sends its request for the member `who`, which is `fl`, and handles the
reply. -/
def exchange (who : NodeId) (ld fl : Node) : Except Fault (Node × Node) := do
  let ld ← ld.sendAppendEntriesToSomeone who true
  match ld.lastRequest with
  | some req =>
    let (resp, fl) := fl.handleAppendEntriesRequest req
    let ld ← ld.handleAppendEntriesResponse resp who
    return (ld, fl)
  | none => return (ld, fl)

/-- So many exchanges, one after the other. -/
def exchanges (who : NodeId) : Nat → Node → Node → Except Fault (Node × Node)
  | 0, ld, fl => .ok (ld, fl)
  | n + 1, ld, fl => do
    let (ld, fl) ← exchange who ld fl
    exchanges who n ld fl

/-! ## Handling a request and a reply -/

section
variable {nd : Node}

/-- A term that is not higher is not observed. -/
theorem observeTerm_of_le {term : Nat} (h : term ≤ nd.currentTerm) : nd.observeTerm term = nd :=
  if_neg (Nat.not_lt.2 h)

/-- What a leader with a leader state sends, if the `next_index` is within its log. -/
theorem sendAppendEntriesToSomeone_eq {who : NodeId} {ls : LeaderState} (hr : nd.role = .kLeader)
    (hwho : who ∈ nd.channels) (hls : nd.leaderState = some ls) (hpos : 1 ≤ ls.nextIndex.at who)
    (hle : ls.nextIndex.at who ≤ nd.log.length) :
    ∃ req, nd.sendAppendEntriesToSomeone who true = .ok (nd.send who (.appendEntriesRequest req)) ∧
      nd.Builds req ∧ req.prevLogIndex + 1 = ls.nextIndex.at who := by
  obtain ⟨prev, hprev⟩ : ∃ prev, nd.log[ls.nextIndex.at who - 1]? = some prev :=
    ⟨_, List.getElem?_eq_getElem (by omega)⟩
  refine ⟨{ leaderTerm := nd.currentTerm
            leaderId := nd.myId
            prevLogIndex := ls.nextIndex.at who - 1
            prevLogTerm := prev.leaderTerm
            entries := nd.log.drop (ls.nextIndex.at who)
            leaderCommit := nd.commitIndex }, ?_, ⟨rfl, rfl, ⟨prev, hprev, rfl⟩, ?_, rfl⟩, ?_⟩
  · unfold sendAppendEntriesToSomeone
    rw [if_neg (not_not.2 hr), if_neg (not_not.2 hwho), hls]
    dsimp only
    rw [if_neg (by simp), if_neg (by omega), logAt, hprev]
    rfl
  · rw [Nat.sub_add_cancel hpos]
  · exact Nat.sub_add_cancel hpos

/-- A refusal makes the leader step back. -/
theorem handleAppendEntriesResponse_refused {resp : AppendEntriesResponse} {who : NodeId}
    {ls : LeaderState} (ht : resp.currentTerm ≤ nd.currentTerm) (hr : nd.role = .kLeader)
    (hls : nd.leaderState = some ls) (hs : resp.success = false) :
    nd.handleAppendEntriesResponse resp who = .ok { nd with
      leaderState := some { ls with
        nextIndex := ls.nextIndex.set who (decrement (ls.nextIndex.at who)) } } := by
  unfold handleAppendEntriesResponse
  dsimp only
  rw [observeTerm_of_le ht, if_neg (not_not.2 hr), hls]
  simp only [hs, if_true]

/-- A success raises both indices. -/
theorem handleAppendEntriesResponse_matched {resp : AppendEntriesResponse} {who : NodeId}
    {ls : LeaderState} {m : Nat} (ht : resp.currentTerm ≤ nd.currentTerm) (hr : nd.role = .kLeader)
    (hls : nd.leaderState = some ls) (hs : resp.success = true) (hm : resp.matchedUntil = some m) :
    nd.handleAppendEntriesResponse resp who = .ok { nd with
      leaderState := some
        { nextIndex := ls.nextIndex.set who
            (max (ls.nextIndex.at who) (max (ls.matchIndex.at who) m + 1))
          matchIndex := ls.matchIndex.set who (max (ls.matchIndex.at who) m) } } := by
  unfold handleAppendEntriesResponse
  dsimp only
  rw [observeTerm_of_le ht, if_neg (not_not.2 hr), hls]
  simp only [hs, hm, Bool.true_eq_false, if_false]

end

/-! ## One exchange -/

/-- `ld` leads, with `ls`, and repairs the log of `fl`, which is the member `who`. -/
structure Repairing (who : NodeId) (ld fl : Node) (ls : LeaderState) : Prop where
  role : ld.role = .kLeader
  leaderState : ld.leaderState = some ls
  channel : who ∈ ld.channels
  commit : ld.commitIndex < ld.log.length
  matched : ls.matchIndex.at who < ld.log.length
  pos : 1 ≤ ls.nextIndex.at who
  next : ls.nextIndex.at who ≤ ld.log.length
  term : fl.currentTerm ≤ ld.currentTerm
  /-- The logs match, and begin with the same item. -/
  matching : LogMatching fl.log ld.log
  first : AgreeTo 0 fl.log ld.log

/-- Nothing is left to repair, and the leader knows. -/
structure Repaired (who : NodeId) (ld fl : Node) (ls : LeaderState) : Prop where
  log : ld.log <+: fl.log
  commit : ld.commitIndex ≤ fl.commitIndex
  matched : ls.matchIndex.at who = ld.getLastLogIndex
  next : ls.nextIndex.at who = ld.getLastLogIndex + 1

/-- What exchanges leave alone of the leader. -/
structure Keeps (ld ld' : Node) : Prop where
  role : ld'.role = ld.role
  term : ld'.currentTerm = ld.currentTerm
  log : ld'.log = ld.log
  commit : ld'.commitIndex = ld.commitIndex
  channels : ld'.channels = ld.channels

/-- Without an exchange the leader is left alone. -/
theorem Keeps.refl (ld : Node) : Keeps ld ld := ⟨rfl, rfl, rfl, rfl, rfl⟩

/-- What two exchanges leave alone is left alone by both in a row. -/
theorem Keeps.trans {ld ld₁ ld₂ : Node} (h : Keeps ld ld₁) (h' : Keeps ld₁ ld₂) : Keeps ld ld₂ :=
  ⟨h'.role.trans h.role, h'.term.trans h.term, h'.log.trans h.log, h'.commit.trans h.commit,
    h'.channels.trans h.channels⟩

/-- A change of its indices leaves the leader alone otherwise. -/
theorem Keeps.setLeaderState {ld ld' : Node} (h : Keeps ld ld') (ls : Option LeaderState) :
    Keeps ld { ld' with leaderState := ls } :=
  ⟨h.role, h.term, h.log, h.commit, h.channels⟩

section
variable {who : NodeId} {ld fl : Node} {ls : LeaderState}

/-- A member accepts what comes next to where its log agrees with the leader's. -/
theorem Repairing.accepts (h : Repairing who ld fl ls) {req : AppendEntriesRequest}
    (hb : ld.Builds req) (hag : AgreeTo req.prevLogIndex fl.log ld.log) : ¬ fl.Rejects req := by
  obtain ⟨item, hitem, hterm⟩ := hb.prev
  rintro (hlt | hge | ⟨item', hitem', hne⟩)
  · have := h.term
    rw [hb.leaderTerm] at hlt
    omega
  · have := hag.lt_left
    omega
  · rw [hag.getElem?_eq (Nat.le_refl _), hitem] at hitem'
    cases hitem'
    exact hne hterm.symm

/-- What a member holds after it has accepted a request that reaches to the end. -/
theorem Repairing.accepted (h : Repairing who ld fl ls) {req : AppendEntriesRequest}
    (hb : ld.Builds req) (hrej : ¬ fl.Rejects req) :
    ld.log <+: splice (req.prevLogIndex + 1) req.entries fl.log ∧
      LogMatching (splice (req.prevLogIndex + 1) req.entries fl.log) ld.log ∧
      ld.commitIndex ≤ fl.commitAfter req := by
  have hfrom : BuiltFrom ld.log ld.currentTerm req :=
    hb.builtFrom (List.prefix_refl _) h.commit
  have hag := hfrom.agreeTo h.matching hrej
  have hlength := hb.length
  have hend := agreeTo_splice_end hag hb.sliceOf
  refine ⟨?_, ?_, ?_⟩
  · have htake := hend.take_eq
    rw [hlength, List.take_length] at htake
    rw [← htake]
    exact List.take_prefix _ _
  · rcases splice_slice hag hb.sliceOf with ⟨-, heq⟩ | ⟨-, heq⟩
    · rw [heq]
      exact h.matching
    · rw [heq, hlength, List.take_length]
      intro k item item' hitem hitem' _
      exact .refl (List.getElem?_eq_some_iff.1 hitem).1
  · rw [hfrom.commitAfter, hb.leaderCommit]
    exact Nat.le_max_right _ _

/-- What an exchange comes down to. -/
theorem Repairing.exchange_eq (h : Repairing who ld fl ls) :
    ∃ req ld₁, ld.Builds req ∧ req.prevLogIndex + 1 = ls.nextIndex.at who ∧ Keeps ld ld₁ ∧
      ld₁.leaderState = some ls ∧ Node.exchange who ld fl =
        (ld₁.handleAppendEntriesResponse (fl.handleAppendEntriesRequest req).1 who).map
          fun ld' => (ld', (fl.handleAppendEntriesRequest req).2) := by
  obtain ⟨req, hsend, hb, hprev⟩ := sendAppendEntriesToSomeone_eq h.role h.channel h.leaderState
    h.pos h.next
  refine ⟨req, ld.send who (.appendEntriesRequest req), hb, hprev, ⟨rfl, rfl, rfl, rfl, rfl⟩,
    h.leaderState, ?_⟩
  rw [Node.exchange, hsend]
  simp only [bind, Except.bind, lastRequest_send, pure, Except.pure]
  rfl

/-- The same after an exchange that leaves the leader with `ls'` and the member with `fl'`. -/
theorem Repairing.keep (h : Repairing who ld fl ls) {ld' fl' : Node} {ls' : LeaderState}
    (hkeeps : Keeps ld ld') (hls : ld'.leaderState = some ls')
    (hmatched : ls'.matchIndex.at who < ld.log.length) (hpos : 1 ≤ ls'.nextIndex.at who)
    (hnext : ls'.nextIndex.at who ≤ ld.log.length) (hterm : fl'.currentTerm = ld.currentTerm)
    (hmatching : LogMatching fl'.log ld.log) (hfirst : AgreeTo 0 fl'.log ld.log) :
    Repairing who ld' fl' ls' where
  role := hkeeps.role.trans h.role
  leaderState := hls
  channel := hkeeps.channels ▸ h.channel
  commit := by
    rw [hkeeps.commit, hkeeps.log]
    exact h.commit
  matched := hkeeps.log ▸ hmatched
  pos := hpos
  next := hkeeps.log ▸ hnext
  term := by rw [hterm, hkeeps.term]
  matching := hkeeps.log ▸ hmatching
  first := hkeeps.log ▸ hfirst

/-- One exchange goes back by one, or repairs. -/
theorem Repairing.exchange (h : Repairing who ld fl ls) :
    ∃ ld' fl' ls', exchange who ld fl = .ok (ld', fl') ∧ Keeps ld ld' ∧
      Repairing who ld' fl' ls' ∧
      (Repaired who ld' fl' ls' ∨
        ¬ Repaired who ld fl ls ∧ ls'.nextIndex.at who + 1 = ls.nextIndex.at who) := by
  obtain ⟨req, ld₁, hb, hprev, hkeeps, hls, hrun⟩ := h.exchange_eq
  have hr : ld₁.role = .kLeader := hkeeps.role.trans h.role
  have hlength := hb.length
  have hmatched := h.matched
  obtain ⟨hterm, hcases⟩ := fl.handleAppendEntriesRequest_spec req
  rw [hb.leaderTerm, Nat.max_eq_right h.term] at hterm hcases
  generalize (fl.handleAppendEntriesRequest req).1 = resp at hcases hrun
  generalize (fl.handleAppendEntriesRequest req).2 = fl' at hterm hcases hrun
  rcases hcases with ⟨hrej, rfl, hlog, -⟩ | ⟨hrej, rfl, hlog, hcommit⟩
  · -- the leader steps back; in front of the sentinel it would have been accepted
    have hdisagree : ¬ AgreeTo req.prevLogIndex fl.log ld.log := fun hag => h.accepts hb hag hrej
    have hpos : req.prevLogIndex ≠ 0 := fun hzero => hdisagree (hzero ▸ h.first)
    rw [handleAppendEntriesResponse_refused (Nat.le_of_eq hkeeps.term.symm) hr hls rfl] at hrun
    have hstep : decrement (ls.nextIndex.at who) = req.prevLogIndex := by
      rw [decrement, if_neg (by omega)]
      omega
    rw [hstep] at hrun
    refine ⟨_, _, _, hrun, hkeeps.setLeaderState _, h.keep (hkeeps.setLeaderState _) rfl h.matched
      ?_ ?_ hterm (hlog ▸ h.matching) (hlog ▸ h.first), .inr ⟨fun hdone => ?_, ?_⟩⟩
    · rw [IndexMap.at_set]
      omega
    · rw [IndexMap.at_set]
      omega
    · exact hdisagree (agreeTo_of_isPrefix hdone.log (by omega)).symm
    · rw [IndexMap.at_set, hprev]
  · obtain ⟨hbegins, hmatching, hle⟩ := h.accepted hb hrej
    rw [handleAppendEntriesResponse_matched (Nat.le_of_eq hkeeps.term.symm) hr hls rfl rfl] at hrun
    have hlast : max (ls.matchIndex.at who) (req.prevLogIndex + req.entries.length) =
        ld.getLastLogIndex := by
      rw [getLastLogIndex]
      omega
    have hnext : max (ls.nextIndex.at who) (ld.getLastLogIndex + 1) = ld.getLastLogIndex + 1 := by
      rw [getLastLogIndex]
      omega
    rw [hlast, hnext] at hrun
    have hpos : 0 < ld.log.length := Nat.zero_lt_of_lt h.commit
    have hindex : ld.getLastLogIndex + 1 = ld.log.length := Nat.sub_add_cancel hpos
    have hlog' : ld₁.getLastLogIndex = ld.getLastLogIndex := by
      rw [getLastLogIndex, hkeeps.log, getLastLogIndex]
    refine ⟨_, _, _, hrun, hkeeps.setLeaderState _, h.keep (hkeeps.setLeaderState _) rfl ?_ ?_ ?_
      hterm (hlog ▸ hmatching) ?_, .inl ⟨?_, ?_, ?_, ?_⟩⟩
    · rw [IndexMap.at_set]
      omega
    · rw [IndexMap.at_set]
      omega
    · rw [IndexMap.at_set, hindex]
    · rw [hlog]
      exact (agreeTo_of_isPrefix hbegins hpos).symm
    · change ld₁.log <+: fl'.log
      rw [hkeeps.log, hlog]
      exact hbegins
    · change ld₁.commitIndex ≤ fl'.commitIndex
      rw [hkeeps.commit, hcommit]
      exact hle
    · rw [IndexMap.at_set]
      exact hlog'.symm
    · rw [IndexMap.at_set]
      exact congrArg (· + 1) hlog'.symm

/-- After as many exchanges as `next_index` says, and any more, the log is repaired. -/
theorem Repairing.exchanges (h : Repairing who ld fl ls) {n : Nat}
    (hn : ls.nextIndex.at who ≤ n ∨ Repaired who ld fl ls) :
    ∃ ld' fl' ls', exchanges who n ld fl = .ok (ld', fl') ∧ Keeps ld ld' ∧
      ld'.leaderState = some ls' ∧ Repaired who ld' fl' ls' := by
  induction n generalizing ld fl ls with
  | zero =>
    rcases hn with hn | hdone
    · have := h.pos
      omega
    · exact ⟨ld, fl, ls, rfl, .refl ld, h.leaderState, hdone⟩
  | succ n ih =>
    obtain ⟨ld₁, fl₁, ls₁, hrun, hkeeps, h₁, hnext⟩ := h.exchange
    have hn₁ : ls₁.nextIndex.at who ≤ n ∨ Repaired who ld₁ fl₁ ls₁ := by
      rcases hnext with hdone | ⟨hnot, hstep⟩
      · exact .inr hdone
      · have := hn.resolve_right hnot
        exact .inl (by omega)
    obtain ⟨ld', fl', ls', hrun', hkeeps', hls', hdone⟩ := ih h₁ hn₁
    refine ⟨ld', fl', ls', ?_, hkeeps.trans hkeeps', hls', hdone⟩
    rw [Node.exchanges, hrun]
    exact hrun'

end

end Node

/-! ## Runs -/

open Node

/-- Members that follow one ledger have logs that match. -/
theorem Sim.logMatching {ids : List NodeId} {a : Ledger NodeId LogItem} {nodes : NodeId → Node}
    (hS : Sim ids a nodes) {i j : NodeId} (hi : i ∈ ids) (hj : j ∈ ids) :
    LogMatching (nodes i).log (nodes j).log := by
  have hwf : ∀ i ∈ ids, a.WfLog LogItem.leaderTerm (nodes i).log := by
    intro i hi
    rw [← (hS.nodes i hi).log]
    exact hS.inv.log_wf i
  intro k item item' hitem hitem' hterm
  exact Ledger.agreeTo_of_wfLog (hwf i hi) (hwf j hj) hitem hitem' hterm

/-- In a run without the steps that lead astray a leader can repair the log of every member whose
term is not past its own. -/
theorem repairing_run {members : Members} {ops : List Op} {s : Cluster}
    (hrun : exec step ops (init members) = some s)
    (havoid : Avoids step (marks (outOfRange.or unsafeStep)) ops (init members) = true)
    {i j : NodeId} (hi : i ∈ members.ids) (hj : j ∈ members.ids)
    (hr : (s.node i).role = .kLeader) (ht : (s.node j).currentTerm ≤ (s.node i).currentTerm) :
    ∃ ls, Repairing j (s.node i) (s.node j) ls := by
  have hmem := members_run hrun
  have hU := (elections_run (Hazard.Le.refl _).or_left.or_right hrun havoid).uniqueLeaders
  obtain ⟨a, hS, hK⟩ := safe_run (Hazard.Le.refl _).or_left.or_right.or_right
    (Hazard.Le.refl _).or_right.or_right.or_right hrun havoid hU
  obtain ⟨-, hrange⟩ := indicesInRange_run (Hazard.Le.refl outOfRange).or_left hrun havoid
  have hwf := wellFormed_run hrun
  obtain ⟨ls, hls⟩ := Option.isSome_iff_exists.1 ((roles_run hrun i hi).leader.2 hr)
  obtain ⟨hmatched, hnext⟩ := (hrange i hi).leader hr ls hls j hj
  have hfirst : AgreeTo 0 (s.node j).log (s.node i).log := by
    refine ⟨List.length_pos_iff.2 (hwf j hj).node.nonempty, fun k hk => ?_⟩
    rw [Nat.le_zero.1 hk, (hwf j hj).node.sentinel, (hwf i hi).node.sentinel]
  refine ⟨ls, hr, hls, ?_, (hK i hi).commit.lt, ?_, ?_, hnext, ht, hS.logMatching hj hi, hfirst⟩
  · rw [(conserved_run hrun).channels i (hmem ▸ hi), hmem]
    exact hj
  · omega
  · omega

/-- **Logs are repaired.** In every state of a run without unsafe steps, a leader and a member whose
term is not past its own need no more exchanges than `next_index` says: then, and after any further
exchange, the member's log begins with the leader's, it has committed what the leader has, the
leader knows so, and it still leads its term with the same log. -/
theorem log_repaired (members : Members) (ops : List Op) (s : Cluster)
    (hrun : exec step ops (init members) = some s)
    (havoid : Avoids step (marks (outOfRange.or unsafeStep)) ops (init members) = true)
    {i j : NodeId} (hi : i ∈ members.ids) (hj : j ∈ members.ids)
    (hr : (s.node i).role = .kLeader) (ht : (s.node j).currentTerm ≤ (s.node i).currentTerm) :
    ∃ ls, (s.node i).leaderState = some ls ∧ ∀ n, ls.nextIndex.at j ≤ n →
      ∃ ld fl ls', exchanges j n (s.node i) (s.node j) = .ok (ld, fl) ∧ ld.role = .kLeader ∧
        ld.currentTerm = (s.node i).currentTerm ∧ ld.log = (s.node i).log ∧
        ld.leaderState = some ls' ∧ Repaired j ld fl ls' := by
  obtain ⟨ls, h⟩ := repairing_run hrun havoid hi hj hr ht
  refine ⟨ls, h.leaderState, fun n hn => ?_⟩
  obtain ⟨ld, fl, ls', hok, hkeeps, hls', hdone⟩ := h.exchanges (.inl hn)
  exact ⟨ld, fl, ls', hok, hkeeps.role.trans hr, hkeeps.term, hkeeps.log, hls', hdone⟩

/-- In term 3 node 3 lacks the entry of term 1, which `next_index` is past; the second exchange
brings it. -/
theorem log_repaired_secondTermRun :
    ∃ s, exec step secondTermRun (init threeMembers) = some s ∧ (s.node 3).log.length = 1 ∧
      ∃ ld fl ls, exchanges 3 2 (s.node 1) (s.node 3) = .ok (ld, fl) ∧ ld.log.length = 2 ∧
        Repaired 3 ld fl ls := by
  obtain ⟨s, hrun, hs⟩ : ∃ s, exec step secondTermRun (init threeMembers) = some s ∧
      (decide ((s.node 1).role = .kLeader) &&
        decide ((s.node 3).currentTerm ≤ (s.node 1).currentTerm) &&
        decide ((s.node 3).log.length = 1) && decide ((s.node 1).log.length = 2) &&
        (s.node 1).leaderState.any fun ls => decide (ls.nextIndex.at 3 ≤ 2)) = true :=
    exists_of_any (by decide +kernel)
  simp only [Bool.and_eq_true, decide_eq_true_eq] at hs
  obtain ⟨⟨⟨⟨hr, ht⟩, hshort⟩, hlength⟩, hnext⟩ := hs
  obtain ⟨ls, hls, hall⟩ := log_repaired threeMembers secondTermRun s hrun (by decide +kernel)
    (i := 1) (j := 3) (by decide) (by decide) hr ht
  rw [hls] at hnext
  obtain ⟨ld, fl, ls', hok, -, -, hlog, -, hdone⟩ := hall 2 (of_decide_eq_true hnext)
  exact ⟨s, hrun, hshort, ld, fl, ls', hok, hlog ▸ hlength, hdone⟩

end ToFTDS.Consensus
