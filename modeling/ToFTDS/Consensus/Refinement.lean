import ToFTDS.Consensus.Election

/-!
# The cluster refines the ledger

While no term has two leaders, the nodes of a cluster are the replicas of a `Ledger`: each move of a
node is one of the ledger's moves or none (`sim_move`). A message says something about the ledger
that stays true (`Vouches`), so that it does no harm when it is late, comes twice or is lost.

The first consequence is log matching. A term with a leader has one log (`Ledger.canon`), and every
log of the cluster is, up to each of its entries, the log of the entry's term.
-/

namespace ToFTDS.Consensus

open Run Node Cluster

/-- What a message from `i` to `w` says about the ledger. -/
def Vouches (a : Ledger NodeId LogItem) (i w : NodeId) : Message → Prop
  | .requestVoteRequest req => req.candidateId = i ∧
      ∃ l e, a.campaign req.candidateTerm i = some l ∧ l.getLast? = some e ∧
        req.candidateLastLogIndex = l.length - 1 ∧ req.candidateLastLogTerm = e.leaderTerm
  | .requestVoteResponse resp => resp.voteGranted = true →
      a.granted resp.candidateTerm i w ∨ (a.leader resp.candidateTerm).isSome
  | .appendEntriesRequest req => req.leaderId = i ∧ a.leader req.leaderTerm = some i ∧
      SliceOf req.prevLogIndex req.entries (a.canon req.leaderTerm) ∧
      ∃ e, (a.canon req.leaderTerm)[req.prevLogIndex]? = some e ∧ req.prevLogTerm = e.leaderTerm
  | .appendEntriesResponse resp => resp.success = true →
      a.leader resp.currentTerm = some w ∧
        ∃ m, resp.matchedUntil = some m ∧ m ≤ a.held resp.currentTerm i

/-- Node `i` is the replica `i` of the ledger. -/
structure NodeSim (ids : List NodeId) (a : Ledger NodeId LogItem) (i : NodeId) (nd : Node) :
    Prop where
  term : a.term i = nd.currentTerm
  log : a.log i = nd.log
  nonempty : 0 < nd.log.length
  leads : nd.role = .kLeader ↔ a.leader nd.currentTerm = some i
  canon : nd.role = .kLeader → a.canon nd.currentTerm = nd.log
  /-- A candidate that has taken over entries since it stood cannot be elected any more. -/
  candidate : nd.role = .kCandidate →
    a.campaign nd.currentTerm i = some nd.log ∨ (a.leader nd.currentTerm).isSome
  votes : nd.role = .kCandidate → ∀ cs, nd.candidateState = some cs → ∀ v ∈ cs.votes,
    v ∈ ids ∧ (a.granted nd.currentTerm v i ∨ (a.leader nd.currentTerm).isSome)
  sent : ∀ {w msg}, .send w msg ∈ nd.history → Vouches a i w msg
  became : ∀ {t l}, .becameLeader t l ∈ nd.history → a.leader t = some i ∧ a.baseLog t = l
  led : ∀ {t}, a.leader t = some i → ∃ l, .becameLeader t l ∈ nd.history

/-- The majorities of the members. -/
abbrev quorum (ids : List NodeId) : Finset NodeId → Prop := Majority ids.toFinset

/-- The nodes are the replicas of the ledger. -/
structure Sim (ids : List NodeId) (a : Ledger NodeId LogItem) (nodes : NodeId → Node) : Prop where
  inv : a.Inv LogItem.leaderTerm (quorum ids)
  leaders : ∀ {t i}, a.leader t = some i → i ∈ ids
  nodes : ∀ i ∈ ids, NodeSim ids a i (nodes i)

section
variable {ids : List NodeId} {a a' : Ledger NodeId LogItem} {i w : NodeId} {nd nd' : Node}

/-- What a message says stays true. -/
theorem Vouches.extends (hx : a.Extends a') {msg : Message} (h : Vouches a i w msg) :
    Vouches a' i w msg := by
  cases msg with
  | requestVoteRequest req =>
    obtain ⟨h1, l, e, h2, h3⟩ := h
    exact ⟨h1, l, e, hx.campaign h2, h3⟩
  | requestVoteResponse resp => exact fun hg => (h hg).imp hx.granted hx.leader_isSome
  | appendEntriesRequest req =>
    obtain ⟨h1, h2, h3, e, h4, h5⟩ := h
    have hp := hx.canon (.inr (by rw [h2]; rfl))
    refine ⟨h1, hx.leader h2, h3.extend hp, e, ?_, h5⟩
    rw [← h4]
    exact ((agreeTo_of_isPrefix hp (List.getElem?_eq_some_iff.1 h4).1).getElem?_eq
      (Nat.le_refl _)).symm
  | appendEntriesResponse resp =>
    intro hs
    obtain ⟨h1, m, h2, h3⟩ := h hs
    exact ⟨hx.leader h1, m, h2, Nat.le_trans h3 (hx.held _ _)⟩

/-- A move of another replica keeps the node in step. -/
theorem NodeSim.extends (h : NodeSim ids a i nd) (hI : a.Inv LogItem.leaderTerm (quorum ids))
    (hx : a.Extends a') (hu : a.Untouched a' i) : NodeSim ids a' i nd where
  term := hu.term.trans h.term
  log := hu.log.trans h.log
  nonempty := h.nonempty
  leads := h.leads.trans (hu.leader _).symm
  canon hr := (hu.canon _ (h.leads.1 hr)).trans (h.canon hr)
  candidate hr := (h.candidate hr).imp hx.campaign hx.leader_isSome
  votes hr cs hcs v hv := by
    obtain ⟨h1, h2⟩ := h.votes hr cs hcs v hv
    exact ⟨h1, h2.imp hx.granted hx.leader_isSome⟩
  sent hs := (h.sent hs).extends hx
  became {t l} hb := by
    obtain ⟨h1, rfl⟩ := h.became hb
    have hled : (a.leader t).isSome := by rw [h1]; rfl
    exact ⟨hx.leader h1, hx.baseLog (.inr hled) (hI.base_le t hled)⟩
  led hl := h.led ((hu.leader _).1 hl)

/-- The events that say something about the ledger. -/
def Event.ledger : Event → Bool
  | .send .. | .becameLeader .. => true
  | _ => false

/-- Quiet events say nothing about the ledger. -/
theorem Event.not_ledger_of_quiet (e : Event) (h : e.quiet = true) : e.ledger = false := by
  cases e <;> first | rfl | cases h

/-- What the ledger does not know of keeps the node in step. -/
theorem NodeSim.frame (h : NodeSim ids a i nd) (ht : nd'.currentTerm = nd.currentTerm)
    (hr : nd'.role = nd.role) (hlog : nd'.log = nd.log)
    (hc : nd'.candidateState = nd.candidateState) (hev : NoNew Event.ledger nd nd') :
    NodeSim ids a i nd' where
  term := h.term.trans ht.symm
  log := h.log.trans hlog.symm
  nonempty := hlog ▸ h.nonempty
  leads := by rw [hr, ht]; exact h.leads
  canon hr' := by rw [ht, hlog]; exact h.canon (hr ▸ hr')
  candidate hr' := by rw [ht, hlog]; exact h.candidate (hr ▸ hr')
  votes hr' cs hcs v hv := by rw [ht]; exact h.votes (hr ▸ hr') cs (hc ▸ hcs) v hv
  sent hs := h.sent (hev.mem hs rfl)
  became hb := h.became (hev.mem hb rfl)
  led hl := by
    obtain ⟨l, hl⟩ := h.led hl
    exact ⟨l, hev.isPrefix.subset hl⟩

/-- Sending what is true of the ledger keeps the node in step. -/
theorem NodeSim.send (h : NodeSim ids a i nd) {evs : List Event}
    (hsent : ∀ w msg, .send w msg ∈ evs → Vouches a i w msg)
    (hbec : ∀ t l, .becameLeader t l ∉ evs) : NodeSim ids a i (nd.note evs) :=
  { h with
    sent := fun hs => by
      rcases List.mem_append.1 hs with hs | hs
      · exact h.sent hs
      · exact hsent _ _ hs
    became := fun hb => by
      rcases List.mem_append.1 hb with hb | hb
      · exact h.became hb
      · exact absurd hb (hbec _ _)
    led := fun hl => by
      obtain ⟨l, hl⟩ := h.led hl
      exact ⟨l, List.mem_append_left _ hl⟩ }

/-- Sending one message that is true of the ledger. -/
theorem NodeSim.sendTo (h : NodeSim ids a i nd) (evs : List Event) {whom : NodeId} {msg : Message}
    (hevs : ∀ e ∈ evs, e.ledger = false) (hv : Vouches a i whom msg) :
    NodeSim ids a i (nd.note (evs ++ [.send whom msg])) := by
  refine h.send (fun w msg' hs => ?_) fun t l hb => ?_
  · rcases List.mem_append.1 hs with hs | hs
    · cases hevs _ hs
    · cases List.mem_singleton.1 hs
      exact hv
  · rcases List.mem_append.1 hb with hb | hb
    · cases hevs _ hb
    · cases List.mem_singleton.1 hb

/-! ## The moves of a node are moves of the ledger -/

section
variable (h : NodeSim ids a i nd) (hI : a.Inv LogItem.leaderTerm (quorum ids))

include h hI

/-- A larger term: `Ledger.raise`. -/
theorem NodeSim.observe {term : Nat} (ht : nd.currentTerm < term) :
    NodeSim ids (a.raise i term) i { nd with
      currentTerm := term
      role := .kFollower
      votedFor := none
      candidateState := none
      leaderState := none } where
  term := Function.update_self ..
  log := h.log
  nonempty := h.nonempty
  leads := by
    refine ⟨nofun, fun hl => ?_⟩
    have := (hI.leader_bound term i hl).2
    rw [h.term] at this
    omega
  canon := nofun
  candidate := nofun
  votes := nofun
  sent hs := (h.sent hs).extends
    (Ledger.extends_raise (by rw [h.term]; exact Nat.le_of_lt ht))
  became := h.became
  led := h.led

/-- A candidacy: `Ledger.stand`. -/
theorem NodeSim.stand (hme : nd.myId = i) :
    NodeSim ids (a.stand i) i ({ nd with
      currentTerm := nd.currentTerm + 1
      votedFor := some nd.myId
      role := .kCandidate
      candidateState := some {}
      leaderState := none }.note (.resetTimer :: nd.channels.map fun id => .send id
        (.requestVoteRequest
          { candidateTerm := nd.currentTerm + 1
            candidateId := nd.myId
            candidateLastLogIndex := nd.getLastLogIndex
            candidateLastLogTerm := nd.getLastLogTerm }))) := by
  have hx := hI.extends_stand i
  have hcamp : (a.stand i).campaign (nd.currentTerm + 1) i = some nd.log := by
    simp [Ledger.stand, h.term, h.log]
  have hstood : NodeSim ids (a.stand i) i { nd with
      currentTerm := nd.currentTerm + 1
      votedFor := some nd.myId
      role := .kCandidate
      candidateState := some {}
      leaderState := none } := by
    refine ⟨?_, h.log, h.nonempty, ⟨fun hr => (by cases hr), fun hl => ?_⟩,
      fun hr => (by cases hr), fun _ => .inl hcamp, ?_, fun hs => (h.sent hs).extends hx, h.became,
      h.led⟩
    · simp [Ledger.stand, h.term]
    · have := (hI.leader_bound _ i hl).2
      rw [h.term] at this
      change nd.currentTerm + 1 ≤ nd.currentTerm at this
      omega
    · rintro - cs hcs v hv
      cases hcs
      cases hv
  refine hstood.send ?_ (by simp)
  intro w msg hs
  simp only [List.mem_cons, reduceCtorEq, List.mem_map, Event.send.injEq, false_or] at hs
  obtain ⟨id, -, rfl, rfl⟩ := hs
  obtain ⟨e, he⟩ : ∃ e, nd.log.getLast? = some e := by
    cases hlast : nd.log.getLast? with
    | none =>
      have hpos := h.nonempty
      rw [List.getLast?_eq_none_iff.1 hlast] at hpos
      cases hpos
    | some e => exact ⟨e, rfl⟩
  exact ⟨hme, nd.log, e, hcamp, he, rfl, by simp [getLastLogTerm, he]⟩

/-- An election: `Ledger.elect`. -/
theorem NodeSim.becomeLeader (hr : nd.role = .kCandidate) (hfree : a.leader nd.currentTerm = none)
    {ls : LeaderState} :
    NodeSim ids (a.elect i) i ({ nd with
      votedFor := none
      candidateState := none
      leaderState := some ls
      role := .kLeader }.note [.becameLeader nd.currentTerm nd.log]) := by
  have hcamp : a.campaign (a.term i) i = some (a.log i) := by
    rw [h.term, h.log]
    refine (h.candidate hr).resolve_right fun hsome => ?_
    rw [hfree] at hsome
    cases hsome
  have hx := hI.extends_elect (h.term ▸ hfree) hcamp
  have hleader : (a.elect i).leader nd.currentTerm = some i := by
    simp [Ledger.elect, h.term]
  have hcanon : (a.elect i).canon nd.currentTerm = nd.log := by
    simp [Ledger.elect, h.term, h.log]
  have hbase : (a.elect i).baseLog nd.currentTerm = nd.log := by
    simp [Ledger.baseLog, Ledger.elect, h.term, h.log]
  refine ⟨h.term, h.log, h.nonempty, ⟨fun _ => hleader, fun _ => rfl⟩, fun _ => hcanon,
    fun hr' => (by cases hr'), fun hr' => (by cases hr'), ?_, ?_, ?_⟩
  · intro w msg hs
    have hs : .send w msg ∈ nd.history := by simpa [note] using hs
    exact (h.sent hs).extends hx
  · intro t l hb
    simp only [note, List.mem_append, List.mem_singleton, Event.becameLeader.injEq] at hb
    rcases hb with hb | ⟨rfl, rfl⟩
    · obtain ⟨h1, rfl⟩ := h.became hb
      have hled : (a.leader t).isSome := by rw [h1]; rfl
      exact ⟨hx.leader h1, hx.baseLog (.inr hled) (hI.base_le t hled)⟩
    · exact ⟨hleader, hbase⟩
  · intro t hl
    rcases eq_or_ne t nd.currentTerm with rfl | hne
    · exact ⟨nd.log, List.mem_append_right _ (List.mem_singleton.2 rfl)⟩
    · have hl : a.leader t = some i := by
        simpa [Ledger.elect, h.term, Function.update_of_ne hne] using hl
      obtain ⟨l, hl⟩ := h.led hl
      exact ⟨l, List.mem_append_left _ hl⟩

/-- A new command: `Ledger.append`. -/
theorem NodeSim.append (hr : nd.role = .kLeader) (item : LogItem) :
    NodeSim ids (a.append i [item]) i { nd with log := nd.log ++ [item] } := by
  have hcan : a.canon (a.term i) = a.log i := by rw [h.term, h.log, h.canon hr]
  have hx := Ledger.extends_append [item] hcan
  have hcanon : (a.append i [item]).canon nd.currentTerm = nd.log ++ [item] := by
    simp [Ledger.append, h.term, h.log]
  refine ⟨h.term, ?_, ?_, h.leads, fun _ => hcanon, fun hr' => ?_, h.votes,
    fun hs => (h.sent hs).extends hx, fun {t l} hb => ?_, h.led⟩
  · simp [Ledger.append, h.log]
  · simp
  · rw [show nd.role = .kCandidate from hr'] at hr
    cases hr
  · obtain ⟨h1, rfl⟩ := h.became hb
    have hled : (a.leader t).isSome := by rw [h1]; rfl
    exact ⟨h1, hx.baseLog (.inr hled) (hI.base_le t hled)⟩

/-- A vote: `Ledger.grant`, unless the term has a leader already. -/
theorem NodeSim.grantVote {req : RequestVoteRequest} {sender : NodeId}
    (hv : Vouches a sender i (.requestVoteRequest req)) (ht : req.candidateTerm = nd.currentTerm)
    (hcan : nd.canVoteFor req = true) :
    ∃ a', a.Extends a' ∧ a'.Inv LogItem.leaderTerm (quorum ids) ∧ (∀ w, a.Untouched a' w) ∧
      NodeSim ids a' i ({ nd with votedFor := some req.candidateId }.note [.voteGranted req nd.log,
        .send sender (.requestVoteResponse (nd.requestVoteSuccessfull req.candidateTerm))]) := by
  have hsend : ∀ a', NodeSim ids a' i nd →
      a'.granted nd.currentTerm i sender ∨ (a'.leader nd.currentTerm).isSome →
      NodeSim ids a' i ({ nd with votedFor := some req.candidateId }.note [.voteGranted req nd.log,
        .send sender (.requestVoteResponse (nd.requestVoteSuccessfull req.candidateTerm))]) := by
    intro a' h' hg
    have hvoted : NodeSim ids a' i { nd with votedFor := some req.candidateId } :=
      h'.frame rfl rfl rfl rfl (noNew_of_history_eq rfl)
    refine hvoted.sendTo [.voteGranted req nd.log] (by simp [Event.ledger]) ?_
    rintro -
    exact ht ▸ hg
  cases hfree : a.leader nd.currentTerm with
  | some c =>
    exact ⟨a, Ledger.Extends.refl a, hI, Ledger.untouched_refl a,
      hsend a h (.inr (by rw [hfree]; rfl))⟩
  | none =>
    obtain ⟨-, l, e, hcamp, hlast, hidx, hterm⟩ := hv
    have hx := Ledger.extends_grant (a := a) i sender
    have hu := Ledger.untouched_grant (a := a) i sender
    refine ⟨a.grant i sender, hx, hI.grant (h.term ▸ hfree) (by rw [h.term, ← ht]; exact hcamp) ?_,
      hu, hsend _ (h.extends hI hx (hu i)) (.inl (.inr ⟨h.term.symm, rfl, rfl⟩))⟩
    intro e' he'
    rw [h.log] at he' ⊢
    simp only [canVoteFor, getLastLogTerm, he', Option.map_some, Option.getD_some, getLastLogIndex,
      hidx, hterm, Bool.decide_and, Bool.decide_or, Bool.and_eq_true, Bool.or_eq_true,
      decide_eq_true_eq] at hcan
    have hpos : l.length ≠ 0 := by
      intro h0
      rw [List.length_eq_zero_iff.1 h0] at hlast
      cases hlast
    exact ⟨e, hlast, by omega⟩

end

/-- The entries of the term's leader: `Ledger.accept`. -/
theorem NodeSim.accept (h : NodeSim ids a i nd) {req : AppendEntriesRequest} {c : NodeId}
    (hlead : a.leader nd.currentTerm = some c)
    (hsl : SliceOf req.prevLogIndex req.entries (a.canon nd.currentTerm))
    (hprev : req.prevLogIndex < nd.log.length) :
    NodeSim ids (a.accept i req.prevLogIndex req.entries) i (nd.accept req) := by
  have hx := Ledger.extends_accept (a := a) i req.prevLogIndex req.entries
  have hself : nd.role = .kLeader → splice (req.prevLogIndex + 1) req.entries nd.log = nd.log := by
    intro hr
    rw [h.canon hr] at hsl
    exact splice_self hsl
  have hspliced : NodeSim ids (a.accept i req.prevLogIndex req.entries) i
      { nd with log := splice (req.prevLogIndex + 1) req.entries nd.log } := by
    refine ⟨h.term, ?_, ?_, h.leads, fun hr => ?_, fun hr => .inr ?_, h.votes,
      fun hs => (h.sent hs).extends hx, fun {t l} hb => ?_, h.led⟩
    · simp [Ledger.accept, h.log]
    · have := length_splice_le req.entries (show req.prevLogIndex + 1 ≤ nd.log.length from hprev)
      change 0 < (splice _ _ _).length
      omega
    · exact (h.canon hr).trans (hself hr).symm
    · rw [show (a.accept i req.prevLogIndex req.entries).leader nd.currentTerm = some c from hlead]
      rfl
    · obtain ⟨h1, rfl⟩ := h.became hb
      exact ⟨h1, rfl⟩
  exact hspliced.frame rfl rfl rfl rfl (noNew_accept (fun _ => rfl) nd req)

/-- A request of the term's leader that fits the log is one that the ledger accepts. -/
theorem NodeSim.acceptEntries (h : NodeSim ids a i nd)
    (hI : a.Inv LogItem.leaderTerm (quorum ids)) {sender : NodeId} {req : AppendEntriesRequest}
    (hv : Vouches a sender i (.appendEntriesRequest req)) (ht : req.leaderTerm = nd.currentTerm)
    (hprev : ∃ item, nd.log[req.prevLogIndex]? = some item ∧
      item.leaderTerm = req.prevLogTerm) :
    (a.accept i req.prevLogIndex req.entries).Inv LogItem.leaderTerm (quorum ids) ∧
      NodeSim ids (a.accept i req.prevLogIndex req.entries) i (nd.accept req) ∧
      a.leader nd.currentTerm = some sender := by
  obtain ⟨-, hlead, hsl, e, he, hpt⟩ := hv
  obtain ⟨item, hitem, hterm⟩ := hprev
  rw [ht] at hlead hsl he
  have hlead' : (a.leader (a.term i)).isSome := by
    rw [h.term, hlead]
    rfl
  have hag : AgreeTo req.prevLogIndex (a.log i) (a.canon (a.term i)) :=
    hI.agree_at hlead' (by rw [h.log]; exact hitem) (by rw [h.term]; exact he)
      (hterm.trans hpt)
  exact ⟨hI.accept hlead' (h.term ▸ hsl) hag,
    h.accept hlead hsl (List.getElem?_eq_some_iff.1 hitem).1, hlead⟩

/-- A candidate counts a vote that has been granted in the ledger. -/
theorem NodeSim.countVote (h : NodeSim ids a i nd) {cs : CandidateState} {sender : NodeId}
    (hr : nd.role = .kCandidate) (hcs : nd.candidateState = some cs) (hsender : sender ∈ ids)
    (hv : a.granted nd.currentTerm sender i ∨ (a.leader nd.currentTerm).isSome) :
    NodeSim ids a i { nd with candidateState := some { votes := insert sender cs.votes } } := by
  refine { h with votes := ?_ }
  rintro - cs' hcs' v hmem
  cases hcs'
  rcases Finset.mem_insert.1 hmem with rfl | hmem
  · exact ⟨hsender, hv⟩
  · exact h.votes hr cs hcs v hmem

/-- A request that a leader builds is true of the ledger. -/
theorem NodeSim.vouches (h : NodeSim ids a i nd) (hme : nd.myId = i) (hr : nd.role = .kLeader)
    {req : AppendEntriesRequest} (hb : nd.Builds req) :
    Vouches a i w (.appendEntriesRequest req) := by
  obtain ⟨item, hitem, hpt⟩ := hb.prev
  have hcan := h.canon hr
  refine ⟨hb.leaderId.trans hme, ?_, ?_, item, ?_, hpt⟩
  · rw [hb.leaderTerm]
    exact h.leads.1 hr
  · rw [hb.leaderTerm, hcan]
    exact hb.sliceOf
  · rw [hb.leaderTerm, hcan]
    exact hitem

/-- A candidate whose votes are a majority is the first leader of its term. -/
theorem NodeSim.elect (h : NodeSim ids a i nd) (hI : a.Inv LogItem.leaderTerm (quorum ids))
    (hids : ids.Nodup) (hr : nd.role = .kCandidate) {cs : CandidateState}
    (hcs : nd.candidateState = some cs) (hmaj : ids.length + 1 ≤ cs.votes.card * 2)
    (hfree : a.leader nd.currentTerm = none) :
    a.campaign (a.term i) i = some (a.log i) ∧
      (a.elect i).Inv LogItem.leaderTerm (quorum ids) := by
  have hno : ¬ (a.leader nd.currentTerm).isSome := by
    rw [hfree]
    nofun
  have hcamp : a.campaign (a.term i) i = some (a.log i) := by
    rw [h.term, h.log]
    exact (h.candidate hr).resolve_right hno
  refine ⟨hcamp, hI.elect (h.term ▸ hfree) hcamp (q := cs.votes) ⟨fun v hv => ?_, ?_⟩
    fun v hv => ?_⟩
  · exact List.mem_toFinset.2 (h.votes hr cs hcs v hv).1
  · rw [List.toFinset_card_of_nodup hids]
    omega
  · rw [h.term]
    exact (h.votes hr cs hcs v hv).2.resolve_right hno

end

/-! ## The cluster -/

section
variable {ids : List NodeId} {a a' : Ledger NodeId LogItem} {nodes : NodeId → Node} {i : NodeId}
  {nd : Node}

/-- The mover's part of the simulation is enough when the others are untouched. -/
theorem Sim.update (hS : Sim ids a nodes) (hi : i ∈ ids) (hx : a.Extends a')
    (hI : a'.Inv LogItem.leaderTerm (quorum ids)) (hu : ∀ w, w ≠ i → a.Untouched a' w)
    (hn : NodeSim ids a' i nd) :
    ∃ a', a.Extends a' ∧ Sim ids a' (Function.update nodes i nd) := by
  refine ⟨a', hx, hI, ?_, ?_⟩
  · intro t c hl
    by_cases hc : c = i
    · exact hc ▸ hi
    · exact hS.leaders (((hu c hc).leader t).1 hl)
  · intro j hj
    rcases eq_or_ne j i with rfl | hne
    · rwa [Function.update_self]
    · rw [Function.update_of_ne hne]
      exact (hS.nodes j hj).extends hS.inv hx (hu j hne)

/-- What the ledger does not know of. -/
theorem Sim.stay (hS : Sim ids a nodes) (hi : i ∈ ids) (hn : NodeSim ids a i nd) :
    ∃ a', a.Extends a' ∧ Sim ids a' (Function.update nodes i nd) :=
  hS.update hi (Ledger.Extends.refl a) hS.inv (fun w _ => Ledger.untouched_refl a w) hn

/-- When a candidate becomes the leader of its term and no term has two, the term had none. -/
theorem Sim.leader_eq_none (hS : Sim ids a nodes) (hi : i ∈ ids)
    (hr : (nodes i).role = .kCandidate) {l : Log}
    (hbec : .becameLeader (nodes i).currentTerm l ∈ nd.history)
    (hU : UniqueLeaders ids (Function.update nodes i nd)) :
    a.leader (nodes i).currentTerm = none := by
  cases hl : a.leader (nodes i).currentTerm with
  | none => rfl
  | some c =>
    have hci : c ≠ i := by
      rintro rfl
      rw [(hS.nodes c hi).leads.2 hl] at hr
      cases hr
    obtain ⟨l', hbec'⟩ := (hS.nodes c (hS.leaders hl)).led hl
    refine absurd (hU c (hS.leaders hl) i hi (nodes i).currentTerm l' l ?_ ?_) hci
    · rwa [Function.update_of_ne hci]
    · rwa [Function.update_self]

/-- **The cluster refines the ledger.** Each move of a member, as long as it leaves no term with two
leaders, is a move of the ledger or none. -/
theorem sim_move {z : Hazard} (hids : ids.Nodup) (hS : Sim ids a nodes)
    (hm : MemberMove z ids nodes i nd) (hU : UniqueLeaders ids (Function.update nodes i nd)) :
    ∃ a', a.Extends a' ∧ Sim ids a' (Function.update nodes i nd) := by
  obtain ⟨hi, hme, hch, hm⟩ := hm
  have h := hS.nodes i hi
  have hI := hS.inv
  have hq := Event.not_ledger_of_quiet
  generalize hnd : nodes i = nd₀ at hm h hme hch
  cases hm with
  | chore hc =>
    have hc := hc.quiet
    exact hS.stay hi (h.frame hc.currentTerm hc.role hc.log hc.candidateState (hc.noNew hq))
  | observe term ht =>
    have hle : a.term i ≤ term := by
      rw [h.term]
      exact Nat.le_of_lt ht
    exact hS.update hi (Ledger.extends_raise hle) (hI.raise hle)
      (fun w hw => Ledger.untouched_raise term hw) (h.observe hI ht)
  | commit ls id =>
    have hc := quiet_foldl_resolve (List.range' (nd₀.commitIndex + 1) (id - nd₀.commitIndex)) nd₀
    exact hS.stay hi (h.frame hc.currentTerm hc.role hc.log hc.candidateState
      (noNew_commit (fun _ => rfl) (fun _ _ _ => rfl) _ _ _ _ _))
  | refuseEntries sender req resp hg hs ht hresp =>
    refine hS.stay hi (h.sendTo [.answered sender req resp] (by simp [Event.ledger]) ?_)
    subst hresp
    nofun
  | acceptEntries sender req resp hg hs ht hprev hz hresp =>
    obtain ⟨hI', hn, hlead⟩ := h.acceptEntries hI ((hS.nodes sender hg.1).sent hg.2) ht hprev
    refine hS.update hi (Ledger.extends_accept i req.prevLogIndex req.entries) hI'
      (fun w hw => Ledger.untouched_accept req.prevLogIndex req.entries hw) ?_
    refine hn.sendTo [.answered sender req resp] (by simp [Event.ledger]) ?_
    subst hresp
    rintro -
    refine ⟨hlead, _, rfl, ?_⟩
    simp [Ledger.accept, h.term, appendEntriesSuccessfull]
  | refuseVote sender resp hs hresp =>
    refine hS.stay hi (h.sendTo [] (by simp) ?_)
    intro hgr
    rw [hresp] at hgr
    cases hgr
  | grantVote sender req hg hs ht hcan hz =>
    obtain ⟨a', hx, hI', hu, hn⟩ :=
      h.grantVote hI ((hS.nodes sender hg.1).sent hg.2) ht hcan
    exact hS.update hi hx hI' (fun w _ => hu w) hn
  | refused | matched =>
    exact hS.stay hi (h.frame rfl rfl rfl rfl (noNew_of_history_eq rfl))
  | countVote sender resp cs hg hr hgr ht hcs =>
    have hv := (hS.nodes sender hg.1).sent hg.2 hgr
    rw [ht] at hv
    exact hS.stay hi (h.countVote hr hcs hg.1 hv)
  | becomeLeader cs hr hcs hmaj =>
    rw [hch] at hmaj
    have hfree : a.leader nd₀.currentTerm = none := by
      subst hnd
      exact hS.leader_eq_none hi hr (List.mem_append_right _ (List.mem_singleton.2 rfl)) hU
    obtain ⟨hcamp, hI'⟩ := h.elect hI hids hr hcs hmaj hfree
    rw [← h.term] at hfree
    exact hS.update hi (hI.extends_elect hfree hcamp) hI'
      (fun w hw => Ledger.untouched_elect hfree hw) (h.becomeLeader hI hr (h.term ▸ hfree))
  | sendEntries whom req hr hw hb =>
    exact hS.stay hi (h.sendTo [] (by simp) (h.vouches hme hr hb))
  | append command rest hr hc hz =>
    have hl : a.leader (a.term i) = some i := by
      rw [h.term]
      exact h.leads.1 hr
    have hcan : a.canon (a.term i) = a.log i := by rw [h.term, h.log, h.canon hr]
    let item : LogItem := { command := command.1, leaderTerm := nd₀.currentTerm }
    refine hS.update hi (Ledger.extends_append [item] hcan) (hI.append hl hcan ?_)
      (fun w hw => Ledger.untouched_append [item] hl hw)
      ((h.append hI hr item).frame rfl rfl rfl rfl ?_)
    · intro e he
      rw [List.mem_singleton.1 he, h.term]
    · exact noNew_addNewCommand (fun _ => rfl) (fun _ _ _ => rfl)
        { nd₀ with incomingCommands := rest }
        command
  | stand =>
    exact hS.update hi (hI.extends_stand i) (hI.stand i) (fun w hw => Ledger.untouched_stand hw)
      (h.stand hI hme)

end

/-- What no term has had by now, it had not had earlier. -/
theorem UniqueLeaders.mono {ids : List NodeId} {nodes nodes' : NodeId → Node}
    (hx : ∀ j, (nodes j).history <+: (nodes' j).history) (h : UniqueLeaders ids nodes') :
    UniqueLeaders ids nodes :=
  fun i hi j hj t l l' hl hl' => h i hi j hj t l l' ((hx i).subset hl) ((hx j).subset hl')

/-- At the start the nodes are the replicas of the empty ledger. -/
theorem sim_init (members : Members) :
    Sim members.ids (Ledger.init sentinel) (initialNode members) where
  inv := Ledger.init_inv sentinel rfl
  leaders := nofun
  nodes _ _ := ⟨rfl, rfl, Nat.zero_lt_one, ⟨nofun, nofun⟩, nofun, nofun, nofun, nofun, nofun, nofun⟩

/-- The rule for what the nodes keep beside the simulation: `K` is kept by each move, and by what
happens to the ledger meanwhile. -/
theorem sim_exec {z : Hazard} {members : Members} {K : Ledger NodeId LogItem → NodeId → Node → Prop}
    (hmono : ∀ a a' i nd, a.Extends a' → K a i nd → K a' i nd)
    (hmove : ∀ a nodes i nd, Sim members.ids a nodes → (∀ j ∈ members.ids, K a j (nodes j)) →
      MemberMove z members.ids nodes i nd → K a i nd)
    {s s' : Cluster} {ops : List Op} {a : Ledger NodeId LogItem} (hc : s.Conserved)
    (hmem : s.members = members) (hS : Sim members.ids a s.node)
    (hK : ∀ i ∈ members.ids, K a i (s.node i)) (hrun : exec step ops s = some s')
    (hz : Avoids step (marks z) ops s = true) (hU : UniqueLeaders members.ids s'.node) :
    ∃ a', a.Extends a' ∧ Sim members.ids a' s'.node ∧ ∀ i ∈ members.ids, K a' i (s'.node i) := by
  refine (invariant_exec (I := fun nodes => UniqueLeaders members.ids nodes → ∃ a', a.Extends a' ∧
    Sim members.ids a' nodes ∧ ∀ i ∈ members.ids, K a' i (nodes i)) ?_ hc hmem
    (fun _ => ⟨a, Ledger.Extends.refl a, hS, hK⟩) hrun hz).1 hU
  intro nodes i nd hI hm hU
  obtain ⟨a₁, hx₁, hS₁, hK₁⟩ := hI (hU.mono (history_update hm.move.later.history))
  obtain ⟨a₂, hx₂, hS₂⟩ := sim_move (nodup_ids members) hS₁ hm hU
  exact ⟨a₂, hx₁.trans hx₂, hS₂, forall_update
    (hmono _ _ _ _ hx₂ (hmove a₁ nodes i nd hS₁ hK₁ hm))
    fun j hj => hmono _ _ _ _ hx₂ (hK₁ j hj)⟩

/-- In a run in which no term has had two leaders the nodes are the replicas of a ledger. -/
theorem sim_run {members : Members} {s : Cluster} {ops : List Op}
    (hrun : exec step ops (init members) = some s) (hU : UniqueLeaders members.ids s.node) :
    ∃ a, Sim members.ids a s.node := by
  have hz : Avoids step (marks {}) ops (init members) = true :=
    avoids_of_forall (fun s op => marks_empty s op) ops _
  obtain ⟨a, -, hS, -⟩ := sim_exec (K := fun _ _ _ => True) (fun _ _ _ _ _ _ => trivial)
    (fun _ _ _ _ _ _ _ => trivial) (init_conserved members) rfl (sim_init members)
    (fun _ _ => trivial) hrun hz hU
  exact ⟨a, hS⟩

/-! ## Log matching -/

/-- Two logs with an entry of the same term at an index are the same up to it. -/
def Cluster.LogsMatch (s : Cluster) : Prop :=
  ∀ i ∈ s.members.ids, ∀ j ∈ s.members.ids, ∀ (k : Nat) item item',
    (s.node i).log[k]? = some item → (s.node j).log[k]? = some item' →
    item.leaderTerm = item'.leaderTerm → ∀ k' ≤ k, (s.node i).log[k']? = (s.node j).log[k']?

/-- **Log matching.** In a run in which no term has had two different leaders, two logs that have
entries of the same term at an index are the same up to this index. -/
theorem log_matching (members : Members) (ops : List Op) (s : Cluster)
    (hrun : exec step ops (init members) = some s) (honce : s.OneLeaderPerTerm) : s.LogsMatch := by
  rw [Cluster.OneLeaderPerTerm, members_run hrun] at honce
  obtain ⟨a, hS⟩ := sim_run hrun honce
  intro i hi j hj k item item' hitem hitem' hterm
  rw [members_run hrun] at hi hj
  have hwf : ∀ i ∈ members.ids, a.WfLog LogItem.leaderTerm (s.node i).log := by
    intro i hi
    rw [← (hS.nodes i hi).log]
    exact hS.inv.log_wf i
  exact (Ledger.agreeTo_of_wfLog (hwf i hi) (hwf j hj) hitem hitem' hterm).2

/-- Two nodes hold the entry of term 1, and their logs match. -/
theorem log_matching_firstEntryRun :
    ∃ s, exec step firstEntryRun (init threeMembers) = some s ∧
      (s.node 1).log = [sentinel, { command := "x", leaderTerm := 1 }] ∧
      (s.node 2).log = (s.node 1).log ∧ s.LogsMatch := by
  obtain ⟨s, hrun, hs⟩ : ∃ s, exec step firstEntryRun (init threeMembers) = some s ∧
      ((s.node 1).log = [sentinel, { command := "x", leaderTerm := 1 }] ∧
        (s.node 2).log = (s.node 1).log : Bool) = true := exists_of_any (by decide +kernel)
  have honce : s.OneLeaderPerTerm :=
    oneLeaderPerTerm_run (Hazard.Le.refl _) hrun (by decide +kernel)
  have hs := of_decide_eq_true hs
  exact ⟨s, hrun, hs.1, hs.2, log_matching threeMembers firstEntryRun s hrun honce⟩

end ToFTDS.Consensus
