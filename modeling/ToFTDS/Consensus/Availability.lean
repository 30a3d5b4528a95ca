import Mathlib.Data.Finset.Max
import ToFTDS.Consensus.Campaign

/-!
# A majority can elect a leader

Nothing in the source makes an election succeed; timers may expire and messages be lost for ever.
What it does is to leave the way open: in every state of a run without unsafe steps, members that
are between two ticks with nothing to handle, and that are a majority, can elect one of them by
further steps of their own, whatever else is in flight and whatever the others do
(`leader_electable`). The member with the largest term stands first, so that no other one leads any
more that could not be overruled; then the one with the most up-to-date log stands and wins.
-/

namespace ToFTDS.Consensus

open Run Node

/-- The tick thread is between two ticks, and there is nothing to handle. -/
structure Process.Idle (p : Process) : Prop where
  ticking : p.ticking = none
  incoming : p.node.incoming = {}

/-- A queue that shows no message is the empty queue. -/
theorem Incoming.eq_empty {inc : Incoming} (h : inc.messages = []) : inc = {} := by
  obtain ⟨aeReqs, rvReqs, aeResps, rvResps⟩ := inc
  simp only [messages, List.append_eq_nil_iff, List.map_eq_nil_iff] at h
  obtain ⟨⟨⟨rfl, rfl⟩, rfl⟩, rfl⟩ := h
  rfl

/-- An idle process is its node and nothing else. -/
theorem Process.Idle.eq {p : Process} (h : p.Idle) : { node := p.node } = p := by
  obtain ⟨node, ticking⟩ := p
  cases h.ticking
  rfl

/-- The process when a message has been delivered to it. -/
def Process.received (p : Process) (sender : NodeId) (msg : Message) : Process :=
  { p with node := p.node.addMessage sender msg }

/-- Adding a message to the node of an idle process is what receiving the message does. -/
theorem Process.Idle.received {p : Process} (h : p.Idle) (sender : NodeId) (msg : Message) :
    { node := p.node.addMessage sender msg } = p.received sender msg := by
  rw [Process.received, h.ticking]

namespace Cluster

variable {z : Hazard} {s s' : Cluster} {i : NodeId} {p p' : Process}

/-! ## Steps of one member -/

/-- The step is not one of the quorum's own: neither an action of one of its members nor the
delivery of a message from one of them to another. -/
def strays (quorum : Finset NodeId) (s : Cluster) : Op → Bool
  | .act i _ => i ∉ quorum
  | .deliver k => !s.network[k]?.any fun pkt => pkt.src ∈ quorum && pkt.dst ∈ quorum
  | .lose _ => true

/-- The step is marked, or it is not one of the quorum's own. -/
def marksOrStrays (z : Hazard) (quorum : Finset NodeId) (s : Cluster) (op : Op) : Bool :=
  s.marks z op || s.strays quorum op

/-- A process that does nothing leaves the cluster as it is. -/
theorem update_self (s : Cluster) (i : NodeId) : s.update i (s.procs i) = s := by
  have hnone : packets i ((s.procs i).node.history.drop (s.node i).history.length) = [] := by
    rw [node, List.drop_length]
    rfl
  rw [update, hnone, List.append_nil, Function.update_eq_self]

/-- What a member sends in two steps, it sends in both together. -/
theorem update_update (h : (s.node i).history <+: p.node.history)
    (h' : p.node.history <+: p'.node.history) : (s.update i p).update i p' = s.update i p' := by
  obtain ⟨a, ha⟩ := h
  obtain ⟨b, hb⟩ := h'
  have hnode : (s.update i p).node i = p.node := by rw [update_node, Function.update_self]
  have hfirst : p.node.history.drop (s.node i).history.length = a := by rw [← ha, List.drop_left]
  have hsecond : p'.node.history.drop p.node.history.length = b := by rw [← hb, List.drop_left]
  have hboth : p'.node.history.drop (s.node i).history.length = a ++ b := by
    rw [← hb, ← ha, List.append_assoc, List.drop_left]
  rw [update, hnode, hsecond]
  simp only [update, hfirst, hboth, Function.update_idem, List.append_assoc, packets,
    List.filterMap_append]

/-- What is sent to somebody else is on its way there. -/
theorem mem_packets_of_sent {evs : List Event} {w : NodeId} {msg : Message}
    (h : .send w msg ∈ evs) (hne : w ≠ i) : { src := i, dst := w, msg := msg } ∈ packets i evs :=
  List.mem_filterMap.2 ⟨_, h, if_neg hne⟩

/-- What a member of the quorum can do by itself, the cluster can do. -/
theorem reaches_does {quorum : Finset NodeId} (hi : i ∈ s.members.ids) (hown : i ∈ quorum)
    (h : Process.Does z (s.procs i) p) :
    Reaches step (marksOrStrays z quorum) s (s.update i p) := by
  obtain ⟨as, hrun, havoid⟩ := h
  induction as generalizing s with
  | nil =>
    cases hrun
    rw [update_self]
    exact Reaches.refl
  | cons a as ih =>
    obtain ⟨q, hq, hrun⟩ := exec_cons_eq.1 hrun
    obtain ⟨hbad, havoid⟩ := avoids_cons havoid hq
    have hstep : step s (.act i a) = some (s.update i q) := by
      rw [step, if_pos hi]
      exact congrArg (Option.map _) hq
    have hproc : (s.update i q).procs i = q := Function.update_self ..
    have hlater : (s.node i).history <+: q.node.history :=
      (Process.step_later (i := .act a) hq).history
    have hlater' : q.node.history <+: p.node.history :=
      exec_relation (R := fun p p' : Process => p.node.history <+: p'.node.history)
        (fun _ => List.prefix_refl _) (fun _ _ _ => List.IsPrefix.trans)
        (fun _ a _ h => (Process.step_later (i := .act a) h).history) hrun
    have hrest := ih (s := s.update i q) hi (by rw [hproc]; exact hrun)
      (by rw [hproc]; exact havoid)
    rw [update_update hlater hlater'] at hrest
    have hnot : s.marksOrStrays z quorum (.act i a) = false :=
      Bool.or_eq_false_iff.2 ⟨hbad, by simp [strays, hown]⟩
    exact (Reaches.single hstep hnot).trans hrest

/-- What a member sends gets into flight. -/
theorem mem_network_update {w : NodeId} {msg : Message} (h : Sends (s.node i) p.node w msg)
    (hne : w ≠ i) : { src := i, dst := w, msg := msg } ∈ (s.update i p).network := by
  obtain ⟨evs, heq, hmem⟩ := h
  refine List.mem_append_right _ (mem_packets_of_sent ?_ hne)
  rwa [heq, List.drop_left]

/-- A message in flight can be delivered. -/
theorem exists_delivered {pkt : Packet} (hpkt : pkt ∈ s.network) : ∃ k s₁,
    s.network[k]? = some pkt ∧ step s (.deliver k) = some s₁ ∧ s₁.members = s.members ∧
      s₁.procs =
        Function.update s.procs pkt.dst ((s.procs pkt.dst).received pkt.src pkt.msg) ∧
      ∀ pkt' ∈ s.network, pkt' ≠ pkt → pkt' ∈ s₁.network := by
  obtain ⟨k, hk⟩ := List.mem_iff_getElem?.1 hpkt
  refine ⟨k, { s with
      procs := Function.update s.procs pkt.dst ((s.procs pkt.dst).received pkt.src pkt.msg)
      network := s.network.eraseIdx k }, hk, ?_, rfl, rfl, fun pkt' hpkt' hne => ?_⟩
  · rw [step, hk]
    rfl
  · obtain ⟨k', hk'⟩ := List.mem_iff_getElem?.1 hpkt'
    refine List.mem_eraseIdx_iff_getElem?.2 ⟨k', fun heq => hne ?_, hk'⟩
    exact Option.some.inj (hk'.symm.trans (heq ▸ hk))

/-- What a member of the quorum can do by itself once a message that another one has sent to it is
delivered, the cluster can do; the other messages stay in flight, and what the member sends gets
there. -/
theorem reaches_serves {quorum : Finset NodeId} {pkt : Packet} (hpkt : pkt ∈ s.network)
    (hids : pkt.dst ∈ s.members.ids) (hsrc : pkt.src ∈ quorum) (hdst : pkt.dst ∈ quorum)
    (h : Process.Does z ((s.procs pkt.dst).received pkt.src pkt.msg) p) :
    ∃ s', Reaches step (marksOrStrays z quorum) s s' ∧
      s'.procs = Function.update s.procs pkt.dst p ∧
      (∀ pkt' ∈ s.network, pkt' ≠ pkt → pkt' ∈ s'.network) ∧
      ∀ w msg, w ≠ pkt.dst → Sends (s.node pkt.dst) p.node w msg →
        { src := pkt.dst, dst := w, msg := msg } ∈ s'.network := by
  obtain ⟨k, s₁, hk, hstep, hmem, hprocs, hkept⟩ := exists_delivered hpkt
  have hproc : s₁.procs pkt.dst = (s.procs pkt.dst).received pkt.src pkt.msg := by
    rw [hprocs, Function.update_self]
  rw [← hproc] at h
  have hnot : s.marksOrStrays z quorum (.deliver k) = false := by
    simp [marksOrStrays, marks, strays, hk, hsrc, hdst]
  have hdoes := reaches_does (hmem ▸ hids) hdst h
  refine ⟨_, (Reaches.single hstep hnot).trans hdoes, ?_, ?_, fun w msg hne hsends => ?_⟩
  · rw [update, hprocs]
    exact Function.update_idem ..
  · exact fun pkt' hpkt' hne => List.mem_append_left _ (hkept pkt' hpkt' hne)
  · refine mem_network_update ?_ hne
    obtain ⟨evs, heq, hmem⟩ := hsends
    refine ⟨evs, ?_, hmem⟩
    rw [node, hproc]
    exact heq

/-! ## Members at rest -/

/-- Members between two ticks, with nothing to handle, in a run of the cluster. What they do as
leaders before they are overruled is not marked. -/
structure Resting (z : Hazard) (members : Members) (quorum : Finset NodeId) (s : Cluster) :
    Prop where
  reached : ∃ ops, exec step ops (init members) = some s
  subset : ∀ i ∈ quorum, i ∈ members.ids
  idle : ∀ i ∈ quorum, (s.procs i).Idle
  committed : ∀ i ∈ quorum, (s.node i).commitIndex < (s.node i).log.length
  commits : ∀ i ∈ quorum, (s.node i).role = .kLeader → ∀ nd, z.commits nd = false

namespace Resting

variable {members : Members} {quorum : Finset NodeId}

/-- A node of the resting majority sends to the other members. -/
theorem channels (h : Resting z members quorum s) (hi : i ∈ quorum) :
    (s.node i).channels = members.ids := by
  obtain ⟨ops, hrun⟩ := h.reached
  have hmem := members_run hrun
  rw [(conserved_run hrun).channels i (hmem ▸ h.subset i hi), hmem]

/-- Every node goes by its own id. -/
theorem myId (h : Resting z members quorum s) (i : NodeId) : (s.node i).myId = i := by
  obtain ⟨ops, hrun⟩ := h.reached
  exact (conserved_run hrun).myId i

/-- The nodes of the resting majority are members. -/
theorem ids (h : Resting z members quorum s) (hi : i ∈ quorum) : i ∈ s.members.ids := by
  obtain ⟨ops, hrun⟩ := h.reached
  rw [members_run hrun]
  exact h.subset i hi

/-- A leader of the resting majority holds a leader state. -/
theorem leaderState (h : Resting z members quorum s) (hi : i ∈ quorum)
    (hr : (s.node i).role = .kLeader) : (s.node i).leaderState.isSome := by
  obtain ⟨ops, hrun⟩ := h.reached
  exact (roles_run hrun i (h.subset i hi)).leader.2 hr

/-- One of them goes on, and rests again. -/
theorem step_one (h : Resting z members quorum s)
    (hreach : Reaches step (marksOrStrays z quorum) s s') {nd : Node}
    (hprocs : s'.procs = Function.update s.procs i { node := nd })
    (hinc : nd.incoming = {}) (hc : nd.commitIndex < nd.log.length) (hr : nd.role ≠ .kLeader) :
    Resting z members quorum s' := by
  have hnode : s'.node i = nd := by rw [node, hprocs, Function.update_self]
  have hother : ∀ j, j ≠ i → s'.procs j = s.procs j := fun j hj => by
    rw [hprocs, Function.update_of_ne hj]
  have hothers : ∀ j, j ≠ i → s'.node j = s.node j := fun j hj => congrArg _ (hother j hj)
  obtain ⟨ops, hrun⟩ := h.reached
  obtain ⟨ops', hrun', -⟩ := hreach
  refine ⟨⟨ops ++ ops', exec_append.2 ⟨s, hrun, hrun'⟩⟩, h.subset, fun j hj => ?_, fun j hj => ?_,
    fun j hj => ?_⟩ <;> rcases eq_or_ne j i with rfl | hne
  · rw [hprocs, Function.update_self]
    exact ⟨rfl, hinc⟩
  · rw [hother j hne]
    exact h.idle j hj
  · rw [hnode]
    exact hc
  · rw [hothers j hne]
    exact h.committed j hj
  · exact fun hlead => absurd (hnode ▸ hlead) hr
  · rw [hothers j hne]
    exact h.commits j hj

end Resting

/-- Only one member has gone on, and its log is the same. -/
structure OnlyOne (i : NodeId) (s s' : Cluster) : Prop where
  others : ∀ j, j ≠ i → s'.procs j = s.procs j
  log : (s'.node i).log = (s.node i).log

/-- Where only one node acts and keeps its log, every log is kept. -/
theorem OnlyOne.logs (h : OnlyOne i s s') (j : NodeId) : (s'.node j).log = (s.node j).log := by
  rcases eq_or_ne j i with rfl | hne
  · exact h.log
  · rw [node, h.others j hne, node]

/-- Where one process is replaced by one with the same log, only that member has gone on. -/
theorem onlyOne_update {nd : Node} (hprocs : s'.procs = Function.update s.procs i { node := nd })
    (hlog : nd.log = (s.node i).log) : OnlyOne i s s' where
  others j hj := by rw [hprocs, Function.update_of_ne hj]
  log := by
    rw [node, hprocs, Function.update_self]
    exact hlog

namespace Resting

variable {members : Members} {quorum : Finset NodeId}

/-- A member stands, and asks the others; it leads at once only if there are none. -/
theorem stands (h : Resting z members quorum s) (hz : z.SparesVotes) (hi : i ∈ quorum)
    (hr : (s.node i).role ≠ .kLeader) :
    ∃ s' req, Reaches step (marksOrStrays z quorum) s s' ∧ OnlyOne i s s' ∧
      (s'.node i).currentTerm = (s.node i).currentTerm + 1 ∧
      ((s'.node i).role = .kLeader ∨ Resting z members quorum s' ∧
        (s'.node i).Standing {i} ∧ 2 ≤ members.ids.length ∧
        req.candidateTerm = (s'.node i).currentTerm ∧ req.lastItem = (s.node i).lastItem ∧
        ∀ w ∈ members.ids, w ≠ i →
          { src := i, dst := w, msg := .requestVoteRequest req } ∈ s'.network) := by
  have hch := h.channels hi
  have hme := h.myId i
  have hinc : (s.node i).incoming = {} := (h.idle i hi).incoming
  obtain ⟨nd, req, hdoes, hterm, hlog, hreqTerm, hreqLast, hsends, hends⟩ :=
    Process.stands hz (hch ▸ nodup_ids members) (by rw [hme, hch]; exact h.subset i hi) hinc
      (h.committed i hi) hr
  have hreach := reaches_does (h.ids hi) hi ((h.idle i hi).eq ▸ hdoes)
  have hnode : (s.update i { node := nd }).node i = nd := by
    rw [update_node, Function.update_self]
  refine ⟨_, req, hreach, onlyOne_update rfl hlog, by rw [hnode]; exact hterm, ?_⟩
  rw [hnode]
  rcases hends with hlead | ⟨hs, hinc, hmany⟩
  · exact .inl hlead
  · refine .inr ⟨?_, hme ▸ hs, hch ▸ hmany, hreqTerm, hreqLast,
      fun w hw hne => mem_network_update (hsends w (hch ▸ hw)) hne⟩
    exact h.step_one hreach rfl hinc hs.committed (hs.role ▸ NodeState.noConfusion)

/-- A member that is asked in a later term follows, and answers with its vote if it may. -/
theorem hears (h : Resting z members quorum s) (hz : z.SparesVotes) {w : NodeId}
    {req : RequestVoteRequest} (hi : i ∈ quorum) (hw : w ∈ quorum) (hne : i ≠ w)
    (hpkt : { src := i, dst := w, msg := .requestVoteRequest req } ∈ s.network)
    (ht : (s.node w).currentTerm < req.candidateTerm) :
    ∃ s', Reaches step (marksOrStrays z quorum) s s' ∧ OnlyOne w s s' ∧
      Resting z members quorum s' ∧
      (s'.node w).role = .kFollower ∧ (s'.node w).currentTerm = req.candidateTerm ∧
      (∀ pkt ∈ s.network, pkt.dst ≠ w → pkt ∈ s'.network) ∧
      ((s.node w).lastItem ≤ req.lastItem →
        { src := w, dst := i, msg := .requestVoteResponse (vote req.candidateTerm) } ∈
          s'.network) := by
  obtain ⟨nd, hdoes, hr, hterm, hlog, hc, hinc, hvote⟩ := Process.hears hz
    (h.leaderState hw) (fun hr => h.commits w hw hr _) (by rw [h.channels hw]; exact h.subset i hi)
    (by rw [h.myId]; exact hne) (h.idle w hw).incoming (h.committed w hw) ht
  obtain ⟨s', hreach, hprocs, hkept, hsent⟩ :=
    reaches_serves hpkt (h.ids hw) hi hw ((h.idle w hw).received i _ ▸ hdoes)
  have hnode : s'.node w = nd := by rw [node, hprocs, Function.update_self]
  refine ⟨s', hreach, onlyOne_update hprocs hlog, h.step_one hreach hprocs hinc hc ?_, ?_, ?_,
    fun pkt hmem hdst => hkept pkt hmem fun heq => hdst (heq ▸ rfl), fun hle => ?_⟩
  · exact hr ▸ NodeState.noConfusion
  · rw [hnode, hr]
  · rw [hnode, hterm]
  · exact hsent i _ hne (hvote hle)

/-- A candidate counts a vote. -/
theorem counts (h : Resting z members quorum s) (hz : z.SparesVotes) {w : NodeId}
    {votes : Finset NodeId} (hi : i ∈ quorum) (hw : w ∈ quorum) (hs : (s.node i).Standing votes)
    (hpkt : { src := w, dst := i, msg := .requestVoteResponse (vote (s.node i).currentTerm) } ∈
      s.network) :
    ∃ s', Reaches step (marksOrStrays z quorum) s s' ∧ OnlyOne i s s' ∧
      (s'.node i).currentTerm = (s.node i).currentTerm ∧
      (∀ pkt ∈ s.network, pkt.dst ≠ i → pkt ∈ s'.network) ∧
      ((s'.node i).role = .kLeader ∨ Resting z members quorum s' ∧
        (s'.node i).Standing (insert w votes) ∧
        (insert w votes).card * 2 ≤ members.ids.length) := by
  have hs' : ((s.node i).addMessage w
      (.requestVoteResponse (vote (s.node i).currentTerm))).Standing votes :=
    ⟨hs.role, hs.votedFor, hs.candidateState, hs.committed⟩
  have hinc : (s.node i).incoming = {} := (h.idle i hi).incoming
  have hm : ((s.node i).addMessage w
      (.requestVoteResponse (vote (s.node i).currentTerm))).incoming.messages =
        [(w, .requestVoteResponse (vote (s.node i).currentTerm))] := by
    rw [addMessage, hinc, messages_add]
  obtain ⟨nd, hdoes, hterm, hlog, -, hends⟩ := Process.counts hz hs' hm
  obtain ⟨s', hreach, hprocs, hkept, -⟩ :=
    reaches_serves hpkt (h.ids hi) hw hi ((h.idle i hi).received w _ ▸ hdoes)
  have hnode : s'.node i = nd := by rw [node, hprocs, Function.update_self]
  refine ⟨s', hreach, onlyOne_update hprocs hlog, by rw [hnode]; exact hterm,
    fun pkt hmem hdst => hkept pkt hmem fun heq => hdst (heq ▸ rfl), ?_⟩
  rw [hnode]
  rcases hends with hlead | ⟨hs, hinc, hfew⟩
  · exact .inl hlead
  · refine .inr ⟨?_, hs, h.channels hi ▸ hfew⟩
    exact h.step_one hreach hprocs hinc hs.committed (hs.role ▸ NodeState.noConfusion)

end Resting

/-! ## The campaign -/

/-- Only members of the quorum have gone on, and all logs are the same. -/
structure Within (quorum : Finset NodeId) (s s' : Cluster) : Prop where
  others : ∀ j, j ∉ quorum → s'.procs j = s.procs j
  logs : ∀ j, (s'.node j).log = (s.node j).log

/-- Nothing has changed outside the quorum when nothing has changed. -/
theorem Within.refl (quorum : Finset NodeId) (s : Cluster) : Within quorum s s :=
  ⟨fun _ _ => rfl, fun _ => rfl⟩

/-- What stays within the quorum twice in a row stays within it. -/
theorem Within.trans {quorum : Finset NodeId} {s₁ : Cluster} (h : Within quorum s s₁)
    (h' : Within quorum s₁ s') : Within quorum s s' :=
  ⟨fun j hj => (h'.others j hj).trans (h.others j hj), fun j => (h'.logs j).trans (h.logs j)⟩

/-- An act of one node of the quorum stays within the quorum. -/
theorem OnlyOne.within {quorum : Finset NodeId} (h : OnlyOne i s s') (hi : i ∈ quorum) :
    Within quorum s s' :=
  ⟨fun j hj => h.others j fun heq => hj (heq ▸ hi), h.logs⟩

/-- A member of the quorum leads, and no other one is past its term. -/
structure Leads (quorum : Finset NodeId) (i : NodeId) (s : Cluster) : Prop where
  mem : i ∈ quorum
  role : (s.node i).role = .kLeader
  le : ∀ w ∈ quorum, (s.node w).currentTerm ≤ (s.node i).currentTerm

/-- Member `i` of the quorum stands with these votes. The others have been asked, in a term that is
new to them and by a candidate whose log is at least as up to date as theirs. -/
structure Campaign (z : Hazard) (members : Members) (quorum : Finset NodeId) (i : NodeId)
    (req : RequestVoteRequest) (votes : Finset NodeId) (s : Cluster) : Prop
    extends Resting z members quorum s where
  mem : i ∈ quorum
  standing : (s.node i).Standing votes
  self : i ∈ votes
  few : votes.card * 2 ≤ members.ids.length
  term : (s.node i).currentTerm = req.candidateTerm
  le : ∀ w ∈ quorum, (s.node w).currentTerm ≤ req.candidateTerm
  asked : ∀ w ∈ quorum, w ∉ votes →
    { src := i, dst := w, msg := .requestVoteRequest req } ∈ s.network ∧
      (s.node w).currentTerm < req.candidateTerm ∧ (s.node w).lastItem ≤ req.lastItem

namespace Campaign

variable {members : Members} {quorum votes : Finset NodeId} {req : RequestVoteRequest}

/-- One more member votes. -/
theorem step_vote (h : Campaign z members quorum i req votes s) (hz : z.SparesVotes) {w : NodeId}
    (hw : w ∈ quorum) (hnew : w ∉ votes) :
    ∃ s', Reaches step (marksOrStrays z quorum) s s' ∧ Within quorum s s' ∧
      (Leads quorum i s' ∨ Campaign z members quorum i req (insert w votes) s') := by
  have hne : i ≠ w := fun heq => hnew (heq ▸ h.self)
  obtain ⟨hpkt, hlt, hle⟩ := h.asked w hw hnew
  obtain ⟨s₁, hreach₁, hone₁, hrest₁, -, hterm₁, hkept₁, hvote⟩ :=
    h.hears hz h.mem hw hne hpkt hlt
  have hnode₁ : ∀ {k}, k ≠ w → s₁.node k = s.node k := fun hk => congrArg _ (hone₁.others _ hk)
  have hreply := hvote hle
  rw [← h.term, ← hnode₁ hne] at hreply
  obtain ⟨s₂, hreach₂, hone₂, hterm₂, hkept₂, hends⟩ :=
    hrest₁.counts hz h.mem hw ((hnode₁ hne).symm ▸ h.standing) hreply
  have hnode₂ : ∀ {k}, k ≠ i → s₂.node k = s₁.node k := fun hk => congrArg _ (hone₂.others _ hk)
  have hterm : (s₂.node i).currentTerm = req.candidateTerm := by
    rw [hterm₂, hnode₁ hne, h.term]
  have hall : ∀ k ∈ quorum, (s₂.node k).currentTerm ≤ req.candidateTerm := by
    intro k hk
    by_cases hki : k = i
    · rw [hki, hterm]
    · rw [hnode₂ hki]
      by_cases hkw : k = w
      · rw [hkw, hterm₁]
      · rw [hnode₁ hkw]
        exact h.le k hk
  refine ⟨s₂, hreach₁.trans hreach₂, (hone₁.within hw).trans (hone₂.within h.mem), ?_⟩
  rcases hends with hlead | ⟨hrest₂, hs₂, hfew⟩
  · exact .inl ⟨h.mem, hlead, hterm.symm ▸ hall⟩
  · right
    refine ⟨hrest₂, h.mem, hs₂, Finset.mem_insert_of_mem h.self, hfew, hterm, hall, ?_⟩
    intro k hk hnot
    rw [Finset.mem_insert, not_or] at hnot
    have hki : k ≠ i := fun heq => hnot.2 (heq ▸ h.self)
    obtain ⟨hpkt, hlt, hle⟩ := h.asked k hk hnot.2
    rw [hnode₂ hki, hnode₁ hnot.1]
    exact ⟨hkept₂ _ (hkept₁ _ hpkt hnot.1) hki, hlt, hle⟩

/-- With the votes of a majority the campaign is won. -/
theorem exists_leads (hz : z.SparesVotes) (hmaj : members.ids.length < 2 * quorum.card) :
    ∀ {n : Nat} {votes : Finset NodeId} {s : Cluster},
      Campaign z members quorum i req votes s → (quorum \ votes).card = n →
      ∃ s', Reaches step (marksOrStrays z quorum) s s' ∧ Within quorum s s' ∧
        Leads quorum i s' := by
  intro n
  induction n with
  | zero =>
    intro votes s h hn
    have hall : quorum ⊆ votes := Finset.sdiff_eq_empty_iff_subset.1 (Finset.card_eq_zero.1 hn)
    have hcard := Finset.card_le_card hall
    have hfew := h.few
    omega
  | succ n ih =>
    intro votes s h hn
    have hne : (quorum \ votes).Nonempty := Finset.card_pos.1 (by omega)
    obtain ⟨w, hw⟩ := hne
    obtain ⟨hmem, hnew⟩ := Finset.mem_sdiff.1 hw
    obtain ⟨s₁, hreach₁, hwithin₁, hlead | hcamp⟩ := h.step_vote hz hmem hnew
    · exact ⟨s₁, hreach₁, hwithin₁, hlead⟩
    · have hn' : (quorum \ insert w votes).card = n := by
        rw [Finset.sdiff_insert, Finset.card_erase_of_mem hw, hn, Nat.add_sub_cancel]
      obtain ⟨s', hreach, hwithin, hlead⟩ := ih hcamp hn'
      exact ⟨s', hreach₁.trans hreach, hwithin₁.trans hwithin, hlead⟩

end Campaign

namespace Resting

variable {members : Members} {quorum : Finset NodeId}

/-- A member that no other one is past, by its term or by its log, wins if it stands. -/
theorem exists_leads_of_max (h : Resting z members quorum s) (hz : z.SparesVotes)
    (hmaj : members.ids.length < 2 * quorum.card) (hi : i ∈ quorum)
    (hr : (s.node i).role ≠ .kLeader)
    (hterm : ∀ w ∈ quorum, (s.node w).currentTerm ≤ (s.node i).currentTerm)
    (hlast : ∀ w ∈ quorum, (s.node w).lastItem ≤ (s.node i).lastItem) :
    ∃ s', Reaches step (marksOrStrays z quorum) s s' ∧ Within quorum s s' ∧ Leads quorum i s' := by
  obtain ⟨s₁, req, hreach, hone, ht, hends⟩ := h.stands hz hi hr
  have hnode : ∀ {k}, k ≠ i → s₁.node k = s.node k := fun hk => congrArg _ (hone.others _ hk)
  have hle : ∀ w ∈ quorum, (s₁.node w).currentTerm ≤ (s₁.node i).currentTerm := by
    intro w hw
    by_cases hwi : w = i
    · rw [hwi]
    · rw [hnode hwi, ht]
      exact Nat.le_succ_of_le (hterm w hw)
  rcases hends with hlead | ⟨hrest, hs, hmany, hreqTerm, hreqLast, hsent⟩
  · exact ⟨s₁, hreach, hone.within hi, hi, hlead, hle⟩
  · have hcamp : Campaign z members quorum i req {i} s₁ := by
      refine ⟨hrest, hi, hs, Finset.mem_singleton_self i, hmany, hreqTerm.symm, ?_, ?_⟩
      · exact hreqTerm.symm ▸ hle
      · intro w hw hnot
        have hwi : w ≠ i := fun heq => hnot (Finset.mem_singleton.2 heq)
        have := hterm w hw
        refine ⟨hsent w (h.subset w hw) hwi, ?_, ?_⟩
        · rw [hnode hwi, hreqTerm, ht]
          omega
        · rw [hnode hwi, hreqLast]
          exact hlast w hw
    obtain ⟨s', hreach', hwithin, hlead⟩ := hcamp.exists_leads hz hmaj rfl
    exact ⟨s', hreach.trans hreach', (hone.within hi).trans hwithin, hlead⟩

/-- A majority at rest can come to have a leader that none of it is past. -/
theorem exists_leads (h : Resting z members quorum s) (hz : z.SparesVotes)
    (hmaj : members.ids.length < 2 * quorum.card) :
    ∃ s' i, Reaches step (marksOrStrays z quorum) s s' ∧ Within quorum s s' ∧
      Leads quorum i s' := by
  have hne : quorum.Nonempty := Finset.card_pos.1 (by omega)
  obtain ⟨j, hj, hterm⟩ := quorum.exists_max_image (fun w => (s.node w).currentTerm) hne
  obtain ⟨i, hi, hlast⟩ := quorum.exists_max_image (fun w => (s.node w).lastItem) hne
  by_cases hr : (s.node j).role = .kLeader
  · exact ⟨s, j, Reaches.refl, Within.refl quorum s, hj, hr, hterm⟩
  by_cases hij : i = j
  · subst hij
    obtain ⟨s', hs'⟩ := h.exists_leads_of_max hz hmaj hi hr hterm hlast
    exact ⟨s', i, hs'⟩
  -- `j` stands, so that `i` is overruled if it leads
  obtain ⟨s₁, req, hreach₁, hone₁, ht₁, hends⟩ := h.stands hz hj hr
  have hnode₁ : ∀ {k}, k ≠ j → s₁.node k = s.node k := fun hk => congrArg _ (hone₁.others _ hk)
  rcases hends with hlead | ⟨hrest₁, hs₁, -, hreqTerm, -, hsent⟩
  · refine ⟨s₁, j, hreach₁, hone₁.within hj, hj, hlead, fun w hw => ?_⟩
    by_cases hwj : w = j
    · rw [hwj]
    · rw [hnode₁ hwj, ht₁]
      exact Nat.le_succ_of_le (hterm w hw)
  have hlt : (s₁.node i).currentTerm < req.candidateTerm := by
    have := hterm i hi
    rw [hnode₁ hij, hreqTerm, ht₁]
    omega
  obtain ⟨s₂, hreach₂, hone₂, hrest₂, hr₂, ht₂, -, -⟩ := hrest₁.hears hz hj hi
    (Ne.symm hij) (hsent i (h.subset i hi) hij) hlt
  have hnode₂ : ∀ {k}, k ≠ i → s₂.node k = s₁.node k := fun hk => congrArg _ (hone₂.others _ hk)
  have hlast₂ : ∀ w, (s₂.node w).lastItem = (s.node w).lastItem := fun w =>
    (lastItem_congr (hone₂.logs w)).trans (lastItem_congr (hone₁.logs w))
  have hterm₂ : ∀ w ∈ quorum, (s₂.node w).currentTerm ≤ (s₂.node i).currentTerm := by
    intro w hw
    rw [ht₂]
    by_cases hwi : w = i
    · rw [hwi, ht₂]
    · rw [hnode₂ hwi, hreqTerm]
      by_cases hwj : w = j
      · rw [hwj]
      · have := hterm w hw
        rw [hnode₁ hwj, ht₁]
        omega
  obtain ⟨s', hreach', hwithin, hlead⟩ := hrest₂.exists_leads_of_max hz hmaj hi
    (hr₂ ▸ NodeState.noConfusion) hterm₂ fun w hw => by
      rw [hlast₂, hlast₂]
      exact hlast w hw
  exact ⟨s', i, hreach₁.trans (hreach₂.trans hreach'),
    (hone₁.within hj).trans ((hone₂.within hi).trans hwithin), hlead⟩

end Resting

end Cluster

open Cluster

/-- The unsafe steps have nothing to do with votes for members that do not lead. -/
theorem sparesVotes_unsafe : (outOfRange.or unsafeStep).SparesVotes where
  request hr := by simp [Hazard.or, outOfRange, unsafeStep, votesAsLeader, commitsOldEntry,
    countsOldReply, hr]
  response _ := rfl

/-- The two parts of what a run of the quorum avoids. -/
theorem avoids_marksOrStrays {z : Hazard} {quorum : Finset NodeId} {ops : List Op} {s : Cluster}
    (h : Avoids step (marksOrStrays z quorum) ops s = true) :
    Avoids step (marks z) ops s = true ∧ Avoids step (strays quorum) ops s = true :=
  ⟨avoids_mono (fun s op hm => by simp [marksOrStrays, hm]) h,
    avoids_mono (fun s op hs => by simp [marksOrStrays, hs]) h⟩

/-- **A majority can elect a leader.** In every state of a run without unsafe steps, members that
are a majority, between two ticks and with nothing to handle can come by further steps of their own
and deliveries among them to have a leader that none of them is past. The other members take no
part, and no log changes; if none of the majority led before, no step is unsafe, so that all that
holds in such runs holds of the leader. -/
theorem leader_electable (members : Members) (ops : List Op) (s : Cluster)
    (hrun : exec step ops (init members) = some s)
    (havoid : Avoids step (marks (outOfRange.or unsafeStep)) ops (init members) = true)
    {quorum : Finset NodeId} (hsub : ∀ i ∈ quorum, i ∈ members.ids)
    (hmaj : members.ids.length < 2 * quorum.card) (hidle : ∀ i ∈ quorum, (s.procs i).Idle) :
    ∃ ops' s' i, exec step ops' s = some s' ∧ Avoids step (strays quorum) ops' s = true ∧
      Leads quorum i s' ∧ Within quorum s s' ∧
      ((∀ j ∈ quorum, (s.node j).role ≠ .kLeader) →
        Avoids step (marks (outOfRange.or unsafeStep)) ops' s = true) := by
  have hcommitted : ∀ i ∈ quorum, (s.node i).commitIndex < (s.node i).log.length :=
    fun i hi => commitIndex_lt_run hrun havoid i (hsub i hi)
  by_cases hr : ∀ j ∈ quorum, (s.node j).role ≠ .kLeader
  · have hrest : Resting (outOfRange.or unsafeStep) members quorum s :=
      ⟨⟨ops, hrun⟩, hsub, hidle, hcommitted, fun j hj hlead => absurd hlead (hr j hj)⟩
    obtain ⟨s', i, ⟨ops', hrun', havoid'⟩, hwithin, hlead⟩ :=
      hrest.exists_leads sparesVotes_unsafe hmaj
    obtain ⟨hsafe, hown⟩ := avoids_marksOrStrays havoid'
    exact ⟨ops', s', i, hrun', hown, hlead, hwithin, fun _ => hsafe⟩
  · have hrest : Resting {} members quorum s :=
      ⟨⟨ops, hrun⟩, hsub, hidle, hcommitted, fun _ _ _ _ => rfl⟩
    obtain ⟨s', i, ⟨ops', hrun', havoid'⟩, hwithin, hlead⟩ :=
      hrest.exists_leads Hazard.sparesVotes_empty hmaj
    obtain ⟨-, hown⟩ := avoids_marksOrStrays havoid'
    exact ⟨ops', s', i, hrun', hown, hlead, hwithin, fun h => absurd h hr⟩

/-- Node 1 leads and has brought its entry to node 2; without node 1, nodes 2 and 3 can elect one of
them. -/
theorem leader_electable_firstEntryRun :
    ∃ s, exec step firstEntryRun (init threeMembers) = some s ∧ (s.node 1).role = .kLeader ∧
      ∃ ops s' i, exec step ops s = some s' ∧ Avoids step (strays {2, 3}) ops s = true ∧
        Leads {2, 3} i s' ∧ Within {2, 3} s s' ∧
        Avoids step (marks (outOfRange.or unsafeStep)) ops s = true := by
  obtain ⟨s, hrun, hs⟩ : ∃ s, exec step firstEntryRun (init threeMembers) = some s ∧
      (decide ((s.node 1).role = .kLeader) &&
        [2, 3].all fun i => (s.procs i).ticking.isNone && (s.node i).incoming.messages.isEmpty &&
          decide ((s.node i).role ≠ .kLeader)) = true :=
    exists_of_any (by decide +kernel)
  simp only [List.all_cons, List.all_nil, Bool.and_true, Bool.and_eq_true, decide_eq_true_eq,
    Option.isNone_iff_eq_none, List.isEmpty_iff] at hs
  obtain ⟨hlead, ⟨⟨htick₂, hinc₂⟩, hr₂⟩, ⟨htick₃, hinc₃⟩, hr₃⟩ := hs
  have hidle : ∀ i ∈ ({2, 3} : Finset NodeId), (s.procs i).Idle := by
    intro i hi
    rcases Finset.mem_insert.1 hi with rfl | hi
    · exact ⟨htick₂, Incoming.eq_empty hinc₂⟩
    · cases Finset.mem_singleton.1 hi
      exact ⟨htick₃, Incoming.eq_empty hinc₃⟩
  have hroles : ∀ i ∈ ({2, 3} : Finset NodeId), (s.node i).role ≠ .kLeader := by
    intro i hi
    rcases Finset.mem_insert.1 hi with rfl | hi
    · exact hr₂
    · cases Finset.mem_singleton.1 hi
      exact hr₃
  obtain ⟨ops, s', i, hrun', hown, hleads, hwithin, havoid⟩ := leader_electable threeMembers
    firstEntryRun s hrun (by decide +kernel) (by decide) (by decide) hidle
  exact ⟨s, hrun, hlead, ops, s', i, hrun', hown, hleads, hwithin, havoid hroles⟩

end ToFTDS.Consensus
