import ToFTDS.Consensus.NextIndex

/-!
# Well-formed logs

The terms of a log go up from the sentinel's and not past the node's own term
(`Node.WellFormed`). A follower's log is rebuilt from slices of other logs, so the same is asked of
every request that was ever sent: its entries go up, from `prev_log_term` on, to `leader_term` at
most (`AppendEntriesRequest.WellFormed`). A leader builds only such requests, and a request that is
accepted has the follower's own term and fits behind an item with its `prev_log_term`.
-/

namespace ToFTDS.Consensus

open Run Node Cluster

/-- The terms of the items go up. -/
def TermsSorted (log : Log) : Prop := log.Pairwise fun a b => a.leaderTerm ≤ b.leaderTerm

/-- The log starts with the sentinel, its terms go up, and none is past the node's. -/
structure Node.WellFormed (nd : Node) : Prop where
  nonempty : nd.log ≠ []
  sentinel : nd.log[0]? = some sentinel
  sorted : TermsSorted nd.log
  bounded : ∀ item ∈ nd.log, item.leaderTerm ≤ nd.currentTerm

/-- The terms of the entries go up, from `prev_log_term` to `leader_term`. -/
structure AppendEntriesRequest.WellFormed (req : AppendEntriesRequest) : Prop where
  sorted : TermsSorted req.entries
  prev : ∀ item ∈ req.entries, req.prevLogTerm ≤ item.leaderTerm
  bounded : ∀ item ∈ req.entries, item.leaderTerm ≤ req.leaderTerm

/-- The items up to an index are of no later term than the one at the index. -/
theorem TermsSorted.le_of_mem_take {log : Log} (h : TermsSorted log) {i : Nat} {item : LogItem}
    (hi : log[i]? = some item) : ∀ a ∈ log.take (i + 1), a.leaderTerm ≤ item.leaderTerm := by
  obtain ⟨hlt, rfl⟩ := List.getElem?_eq_some_iff.1 hi
  intro a ha
  have hs : TermsSorted (log.take i ++ [log[i]]) := by
    rw [← List.take_succ_eq_append_getElem hlt]
    exact List.Pairwise.sublist (List.take_sublist _ _) h
  rw [List.take_succ_eq_append_getElem hlt, List.mem_append, List.mem_singleton] at ha
  rcases ha with ha | rfl
  · exact (List.pairwise_append.1 hs).2.2 a ha _ (List.mem_singleton_self _)
  · exact Nat.le_refl _

/-- The items behind an index are of no earlier term than the one at the index. -/
theorem TermsSorted.le_of_mem_drop {log : Log} (h : TermsSorted log) {i : Nat} {item : LogItem}
    (hi : log[i]? = some item) : ∀ a ∈ log.drop (i + 1), item.leaderTerm ≤ a.leaderTerm := by
  obtain ⟨hlt, rfl⟩ := List.getElem?_eq_some_iff.1 hi
  have hs : TermsSorted (log[i] :: log.drop (i + 1)) := by
    rw [← List.drop_eq_getElem_cons hlt]
    exact List.Pairwise.sublist (List.drop_sublist _ _) h
  exact (List.pairwise_cons.1 hs).1

namespace Node.WellFormed

variable {nd nd' : Node}

/-- A node with the same log and no earlier term. -/
theorem frame (h : nd.WellFormed) (hlog : nd'.log = nd.log)
    (ht : nd.currentTerm ≤ nd'.currentTerm) : nd'.WellFormed where
  nonempty := hlog ▸ h.nonempty
  sentinel := hlog ▸ h.sentinel
  sorted := hlog ▸ h.sorted
  bounded item hi := (h.bounded item (hlog ▸ hi)).trans ht

/-- A leader builds well-formed requests. -/
theorem builds (h : nd.WellFormed) {req : AppendEntriesRequest} (hb : nd.Builds req) :
    req.WellFormed := by
  obtain ⟨item, hi, hp⟩ := hb.prev
  refine ⟨?_, ?_, ?_⟩
  · rw [hb.entries]
    exact List.Pairwise.sublist (List.drop_sublist _ _) h.sorted
  · rw [hb.entries, hp]
    exact h.sorted.le_of_mem_drop hi
  · rw [hb.entries, hb.leaderTerm]
    exact fun a ha => h.bounded a (List.mem_of_mem_drop ha)

/-- A well-formed request of the node's term goes well with its log. -/
theorem accept (h : nd.WellFormed) {req : AppendEntriesRequest} (hreq : req.WellFormed)
    (ht : req.leaderTerm = nd.currentTerm) {item : LogItem}
    (hi : nd.log[req.prevLogIndex]? = some item) (hp : item.leaderTerm = req.prevLogTerm) :
    (nd.accept req).WellFormed := by
  have hlt : req.prevLogIndex + 1 ≤ nd.log.length := (List.getElem?_eq_some_iff.1 hi).1
  have hzero : (nd.accept req).log[0]? = some ToFTDS.Consensus.sentinel := by
    rw [← h.sentinel]
    exact getElem?_splice_of_lt hlt (Nat.succ_pos _)
  refine ⟨?_, hzero, ?_, ?_⟩
  · rintro heq
    rw [heq] at hzero
    cases hzero
  · refine pairwise_splice h.sorted hreq.sorted fun a ha b hb => ?_
    calc a.leaderTerm ≤ item.leaderTerm := h.sorted.le_of_mem_take hi a ha
      _ = req.prevLogTerm := hp
      _ ≤ b.leaderTerm := hreq.prev b hb
  · intro a ha
    rcases mem_splice ha with ha | ha
    · exact h.bounded a ha
    · exact ht ▸ hreq.bounded a ha

/-- A leader appends an item of its own term. -/
theorem append (h : nd.WellFormed) (command : Command × PromiseId) :
    (nd.addNewCommand command).WellFormed := by
  have hlen : 0 < nd.log.length := List.length_pos_iff.2 h.nonempty
  refine ⟨by simp [addNewCommand], ?_, ?_, ?_⟩
  · rw [← h.sentinel]
    exact List.getElem?_append_left hlen
  · refine List.pairwise_append.2 ⟨h.sorted, List.pairwise_singleton _ _, fun a ha b hb => ?_⟩
    cases List.mem_singleton.1 hb
    exact h.bounded a ha
  · intro a ha
    rcases List.mem_append.1 ha with ha | ha
    · exact h.bounded a ha
    · cases List.mem_singleton.1 ha
      exact Nat.le_refl _

end Node.WellFormed

/-- A well-formed node, which has sent well-formed requests. -/
structure WellFormedNode (nd : Node) : Prop where
  node : nd.WellFormed
  sent : ∀ {w req}, .send w (.appendEntriesRequest req) ∈ nd.history → req.WellFormed

/-- What sends no requests. -/
theorem WellFormedNode.frame {nd nd' : Node} (h : WellFormedNode nd) (hnode : nd'.WellFormed)
    (hev : NoNew Event.request nd nd') : WellFormedNode nd' :=
  ⟨hnode, fun hs => h.sent (hev.mem hs rfl)⟩

/-- One move of a member keeps all members well-formed. -/
theorem wellFormed_move {z : Hazard} {ids : List NodeId} {nodes : NodeId → Node} {i : NodeId}
    {nd : Node} (hI : ∀ j ∈ ids, WellFormedNode (nodes j)) (h : MemberMove z ids nodes i nd) :
    ∀ j ∈ ids, WellFormedNode (Function.update nodes i nd j) := by
  obtain ⟨hi, -, -, hm⟩ := h
  refine forall_update (P := fun _ => WellFormedNode) ?_ hI
  have hW := hI i hi
  generalize nodes i = nd₀ at hm hW
  cases hm with
  | chore h =>
    have hq := h.quiet
    exact hW.frame (hW.node.frame hq.log (Nat.le_of_eq hq.currentTerm.symm))
      (hq.noNew Event.not_request_of_quiet)
  | observe term ht =>
    exact hW.frame (hW.node.frame rfl (Nat.le_of_lt ht)) (noNew_of_history_eq rfl)
  | commit ls id =>
    have hq := quiet_foldl_resolve (List.range' (nd₀.commitIndex + 1) (id - nd₀.commitIndex)) nd₀
    exact hW.frame (hW.node.frame hq.log (Nat.le_of_eq hq.currentTerm.symm))
      (noNew_commit (fun _ => rfl) (fun _ _ _ => rfl) _ _ _ _ _)
  | acceptEntries sender req resp hg hs ht hprev =>
    obtain ⟨item, hi, hp⟩ := hprev
    refine hW.frame
      ((hW.node.accept ((hI sender hg.1).sent hg.2) ht hi hp).frame rfl (Nat.le_refl _))
      ((noNew_accept (fun _ => rfl) nd₀ req).trans (noNew_note (by simp [Event.request])))
  | refused | matched | countVote =>
    exact hW.frame (hW.node.frame rfl (Nat.le_refl _)) (noNew_of_history_eq rfl)
  | refuseEntries | refuseVote | grantVote | becomeLeader =>
    exact hW.frame (hW.node.frame rfl (Nat.le_refl _)) (noNew_note (by simp [Event.request]))
  | sendEntries whom req hr hw hb =>
    refine ⟨hW.node.frame rfl (Nat.le_refl _), fun {w req'} hs => ?_⟩
    simp only [note, List.mem_append, List.mem_singleton, Event.send.injEq,
      Message.appendEntriesRequest.injEq] at hs
    rcases hs with hs | ⟨-, rfl⟩
    · exact hW.sent hs
    · exact hW.node.builds hb
  | append command rest =>
    exact hW.frame ((hW.node.frame rfl (Nat.le_refl _) :
        Node.WellFormed { nd₀ with incomingCommands := rest }).append command)
      (noNew_addNewCommand (fun _ => rfl) (fun _ _ _ => rfl) _ command)
  | stand =>
    exact hW.frame (hW.node.frame rfl (Nat.le_succ _)) (noNew_note (by simp [Event.request]))

/-- Every log is well formed at the start. -/
theorem wellFormed_init (members : Members) :
    ∀ i ∈ members.ids, WellFormedNode (initialNode members i) := by
  intro i hi
  refine ⟨⟨by simp [initialNode, Node.new], rfl, List.pairwise_singleton _ _, fun item hitem => ?_⟩,
    nofun⟩
  cases List.mem_singleton.1 hitem
  exact Nat.le_refl _

/-- **Log well-formedness.** In every run each log is well-formed, and no term ever goes down. -/
theorem logs_well_formed (members : Members) (ops ops' : List Op) (s s' : Cluster)
    (hrun : exec step ops (init members) = some s) (hrun' : exec step ops' s = some s') :
    ∀ i ∈ members.ids, (s.node i).WellFormed ∧
      (s.node i).currentTerm ≤ (s'.node i).currentTerm := by
  have hI : ∀ i ∈ members.ids, WellFormedNode (s.node i) :=
    invariant_run (z := {}) (I := fun nodes => ∀ i ∈ members.ids, WellFormedNode (nodes i))
      (fun _ _ _ => wellFormed_move) (wellFormed_init members) hrun
      (avoids_of_forall marks_empty ops _)
  exact fun i hi => ⟨(hI i hi).node, (later_exec hrun' i).currentTerm⟩

/-- The entry of term 1 stands in a well-formed log. -/
theorem logs_well_formed_firstEntryRun :
    ∃ s, exec step firstEntryRun (init threeMembers) = some s ∧
      (s.node 1).log.length = 2 ∧ (s.node 1).WellFormed := by
  obtain ⟨s, hrun, hs⟩ : ∃ s, exec step firstEntryRun (init threeMembers) = some s ∧
      decide ((s.node 1).log.length = 2) = true := exists_of_any (by decide +kernel)
  exact ⟨s, hrun, of_decide_eq_true hs,
    (logs_well_formed threeMembers firstEntryRun [] s s hrun rfl 1 (by decide)).1⟩

end ToFTDS.Consensus
