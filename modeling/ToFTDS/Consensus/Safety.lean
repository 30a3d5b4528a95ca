import ToFTDS.Lib.OrderStatistic
import ToFTDS.Consensus.Queries
import ToFTDS.Consensus.Refinement
import ToFTDS.Consensus.Replies

/-!
# What is committed stays

A leader commits by counting: an index that a majority of the `match_index` entries have reached.
That makes the index chosen (`Ledger.Chosen`) as long as the entries have been reached in its own
term and the item there is of its own term too. The code asks for neither. `countsOldReply` marks
the replies of an earlier term that raise `match_index` all the same, and `commitsOldEntry` the
commits that rest on no item of the leader's term.

In the runs without such steps every commit index is covered by a chosen entry (`SafeNode`), so the
leaders of later terms have what is committed (`later_leaders_complete`). With election safety no
node loses a committed item (`commit_index_kept`), and no two nodes commit different commands
(`state_machine_safety`).
-/

namespace ToFTDS.Consensus

open Run Node Cluster

/-- A leader handles a successful reply that was sent in an earlier term, and raises `match_index`
for it. -/
def countsOldReply : Hazard where
  handles nd sender msg :=
    match msg with
    | .appendEntriesResponse resp => nd.role = .kLeader && resp.currentTerm < nd.currentTerm &&
        nd.leaderState.any fun ls => resp.raises ls sender
    | _ => false

/-- An old reply that a leader handles without being marked raises nothing. -/
theorem not_raises_of_not_countsOldReply {nd : Node} {ls : LeaderState} {sender : NodeId}
    {resp : AppendEntriesResponse}
    (hz : countsOldReply.handles nd sender (.appendEntriesResponse resp) = false)
    (hr : nd.role = .kLeader) (hls : nd.leaderState = some ls)
    (hlt : resp.currentTerm < nd.currentTerm) : resp.raises ls sender = false := by
  simpa [countsOldReply, hr, hls, hlt] using hz

/-- A leader has a majority for an index past its commit index, and from this index on for no item
of its own term. -/
def commitsOldEntry : Hazard where
  commits nd :=
    match nd.leaderState with
    | some ls =>
      (List.range' (nd.commitIndex + 1) (nd.getLastLogIndex - nd.commitIndex)).any fun i =>
        nd.majorityMatched ls i &&
          !(List.range' i (nd.getLastLogIndex + 1 - i)).any fun j =>
            nd.majorityMatched ls j && nd.log[j]?.map LogItem.leaderTerm = some nd.currentTerm
    | none => false

namespace Node

/-! ## What `CommitIfPossible` picks -/

/-- Without `commitsOldEntry`, what is committed is an item of the leader's own term. -/
theorem idToCommit_own {nd : Node} {ls : LeaderState} {id : Nat} (hls : nd.leaderState = some ls)
    (h : nd.idToCommit ls = some id) (hz : commitsOldEntry.commits nd = false) :
    nd.commitIndex < id ∧ id < nd.log.length ∧ nd.majorityMatched ls id = true ∧
      ∃ item, nd.log[id]? = some item ∧ item.leaderTerm = nd.currentTerm := by
  obtain ⟨h1, h2, h3, h4⟩ := scan_eq_some h
  have hid : id < nd.log.length := by
    have : nd.getLastLogIndex = nd.log.length - 1 := rfl
    omega
  refine ⟨h1, hid, h3, ?_⟩
  simp only [commitsOldEntry, hls, List.any_eq_false, List.mem_range'_1, Bool.and_eq_true,
    Bool.not_eq_true', not_and, decide_eq_true_eq] at hz
  by_contra hno
  refine hz id ⟨h1, h2⟩ h3 fun j hj hmaj hterm => ?_
  have hj' : j = id := by
    by_contra hne
    rw [h4 j (by omega) (by omega)] at hmaj
    cases hmaj
  rw [hj'] at hterm
  exact hno (Option.map_eq_some_iff.1 hterm)

end Node

/-- `log` holds up to `k` what terms up to `t` have settled. -/
abbrev Settled (ids : List NodeId) : Ledger NodeId LogItem → Nat → Log → Nat → Prop :=
  Ledger.Settled LogItem.leaderTerm (quorum ids) sentinel

/-- The events in which a node makes use of a commit index. -/
def Event.commital : Event → Bool
  | .send _ (.appendEntriesRequest _) | .setCommands .. | .committed .. => true
  | _ => false

/-- What a member knows is committed is settled. -/
structure SafeNode (ids : List NodeId) (a : Ledger NodeId LogItem) (nd : Node) : Prop where
  /-- A leader counts what members have acknowledged to it in its term. -/
  matched : ∀ {ls}, nd.role = .kLeader → nd.leaderState = some ls →
    (∀ f ∈ ls.matchIndex.keys, f ∈ ids) ∧ ∀ f, ls.matchIndex.at f ≤ a.held nd.currentTerm f
  commit : Settled ids a nd.currentTerm nd.log nd.commitIndex
  request : ∀ {w req}, .send w (.appendEntriesRequest req) ∈ nd.history →
    (a.leader req.leaderTerm).isSome ∧
      Settled ids a req.leaderTerm (a.canon req.leaderTerm) req.leaderCommit ∧
      req.leaderCommit ≤ req.prevLogIndex + req.entries.length
  committed : ∀ {t c l}, .committed t c l ∈ nd.history →
    a.Chosen LogItem.leaderTerm (quorum ids) t c ∧ AgreeTo c l (a.canon t)
  answer : ∀ {q start count result}, .setCommands q start count result ∈ nd.history →
    ∃ t l k, Settled ids a t l k ∧ result = window l start count k

namespace SafeNode

variable {ids : List NodeId} {a a' : Ledger NodeId LogItem} {nd nd' : Node}

/-- What is settled for a member stays settled as the ledger grows. -/
theorem mono (h : SafeNode ids a nd) (hx : a.Extends a') : SafeNode ids a' nd where
  matched hr hls := by
    obtain ⟨h1, h2⟩ := h.matched hr hls
    exact ⟨h1, fun f => Nat.le_trans (h2 f) (hx.held _ f)⟩
  commit := h.commit.extends hx
  request hs := by
    obtain ⟨h1, h2, h3⟩ := h.request hs
    refine ⟨hx.leader_isSome h1, (h2.extends hx).congr ?_, h3⟩
    exact (agreeTo_of_isPrefix (hx.canon (.inr h1)) h2.lt).symm
  committed hc := by
    obtain ⟨h1, h2⟩ := h.committed hc
    exact ⟨hx.chosen h1, (hx.agree_canon (.inr h1.2.1.1) h2.lt_right).2 h2⟩
  answer hs := by
    obtain ⟨t, l, k, h1, h2⟩ := h.answer hs
    exact ⟨t, l, k, h1.extends hx, h2⟩

/-- What does not lower the commit index or touch the log in front of it. -/
theorem frame (h : SafeNode ids a nd) (ht : nd.currentTerm ≤ nd'.currentTerm)
    (hls : nd'.role = .kLeader → nd.role = .kLeader ∧ nd'.currentTerm = nd.currentTerm ∧
      nd'.leaderState = nd.leaderState)
    (hlog : nd'.log = nd.log) (hc : nd'.commitIndex = nd.commitIndex)
    (hev : NoNew Event.commital nd nd') : SafeNode ids a nd' where
  matched hr hls' := by
    obtain ⟨h1, h2, h3⟩ := hls hr
    rw [h2]
    exact h.matched h1 (h3 ▸ hls')
  commit := by
    rw [hlog, hc]
    exact h.commit.mono ht
  request hs := h.request (hev.mem hs rfl)
  committed hs := h.committed (hev.mem hs rfl)
  answer hs := h.answer (hev.mem hs rfl)

/-- Answering a query. -/
theorem answerQuery (h : SafeNode ids a nd) {q : QueryId} {start maxCount : UInt64}
    {result : List Command} (hres : nd.persistentCommands start maxCount = .ok result) :
    SafeNode ids a (nd.emit (.setCommands q start maxCount result)) :=
  { h with
    request := fun hs => h.request (by simpa [emit] using hs)
    committed := fun hc => h.committed (by simpa [emit] using hc)
    answer := fun {q' start' count' result'} hs => by
      simp only [emit, List.mem_append, List.mem_singleton, Event.setCommands.injEq] at hs
      rcases hs with hs | ⟨-, rfl, rfl, rfl⟩
      · exact h.answer hs
      · rw [persistentCommands_eq h.commit.lt] at hres
        exact ⟨_, _, _, h.commit, (Except.ok.inj hres).symm⟩ }

/-- Counting a reply of the leader's own term. -/
theorem count (h : SafeNode ids a nd) {ls : LeaderState} {sender : NodeId} {m n : Nat}
    (hr : nd.role = .kLeader) (hls : nd.leaderState = some ls) (hs : sender ∈ ids)
    (hm : m ≤ a.held nd.currentTerm sender) :
    SafeNode ids a { nd with
      leaderState := some
        { nextIndex := ls.nextIndex.set sender n
          matchIndex := ls.matchIndex.set sender (max (ls.matchIndex.at sender) m) } } :=
  { h with
    matched := by
      rintro ls' - hls'
      cases hls'
      obtain ⟨h1, h2⟩ := h.matched hr hls
      refine ⟨fun f hf => ?_, fun f => ?_⟩
      · rcases (IndexMap.mem_keys_set _ _ _ _).1 hf with rfl | hf
        · exact hs
        · exact h1 f hf
      · dsimp only
        rw [IndexMap.at_set_eq]
        split
        · next heq =>
          subst heq
          exact Nat.max_le.2 ⟨h2 f, hm⟩
        · exact h2 f }

/-- A commit of an item of the leader's own term. -/
theorem commitOwn (h : SafeNode ids a nd) {i : NodeId} (hN : NodeSim ids a i nd)
    (hch : nd.channels = ids) (hids : ids.Nodup) {ls : LeaderState} {id : Nat}
    (hr : nd.role = .kLeader) (hls : nd.leaderState = some ls) (hid : nd.idToCommit ls = some id)
    (hz : commitsOldEntry.commits nd = false) :
    nd.commitIndex ≤ id ∧
      SafeNode ids a ({ (List.range' (nd.commitIndex + 1) (id - nd.commitIndex)).foldl resolve nd
        with commitIndex := id }.emit (.committed nd.currentTerm id nd.log)) := by
  obtain ⟨hlt, hlen, hmaj, item, hitem, hterm⟩ := idToCommit_own hls hid hz
  obtain ⟨hkeys, hheld⟩ := h.matched hr hls
  have hcan := hN.canon hr
  have hag : AgreeTo id nd.log (a.canon nd.currentTerm) := by
    rw [hcan]
    exact AgreeTo.refl hlen
  have hchosen : a.Chosen LogItem.leaderTerm (quorum ids) nd.currentTerm id := by
    refine ⟨by omega, ⟨?_, item, by rw [hcan]; exact hitem, hterm⟩,
      ls.matchIndex.keys.filter fun k => id ≤ ls.matchIndex.at k, ⟨fun f hf => ?_, ?_⟩,
      fun f hf => ?_⟩
    · rw [hN.leads.1 hr]
      rfl
    · exact List.mem_toFinset.2 (hkeys f (Finset.mem_filter.1 hf).1)
    · rw [majorityMatched, totalNodes, hch, decide_eq_true_eq] at hmaj
      rw [List.toFinset_card_of_nodup hids]
      omega
    · exact Nat.le_trans (Finset.mem_filter.1 hf).2 (hheld f)
  refine ⟨Nat.le_of_lt hlt, ?_⟩
  have hq := quiet_foldl_resolve (List.range' (nd.commitIndex + 1) (id - nd.commitIndex)) nd
  have hnew : NoNew Event.commital nd
      ((List.range' (nd.commitIndex + 1) (id - nd.commitIndex)).foldl resolve nd) :=
    noNew_foldl_resolve (fun _ => rfl) _ nd
  generalize (List.range' (nd.commitIndex + 1) (id - nd.commitIndex)).foldl resolve nd = nd₁
    at hq hnew ⊢
  have h₁ : SafeNode ids a nd₁ := h.frame (Nat.le_of_eq hq.currentTerm.symm)
    (fun hr => ⟨hq.role ▸ hr, hq.currentTerm, hq.leaderState⟩) hq.log hq.commitIndex hnew
  exact
    { h₁ with
      commit := by
        change Settled ids a nd₁.currentTerm nd₁.log id
        rw [hq.currentTerm, hq.log]
        have h0 := h.commit.1
        exact ⟨h0, .inr ⟨_, id, Nat.le_refl _, hchosen, Nat.le_refl _, hag⟩⟩
      request := fun hs => h₁.request (by simpa [emit] using hs)
      committed := fun {t c l} hc => by
        simp only [emit, List.mem_append, List.mem_singleton, Event.committed.injEq] at hc
        rcases hc with hc | ⟨rfl, rfl, rfl⟩
        · exact h₁.committed hc
        · exact ⟨hchosen, hag⟩
      answer := fun hs => h₁.answer (by simpa [emit] using hs) }

/-- The leader's entries keep what is settled, and so does its commit index. -/
theorem accept (h : SafeNode ids a nd)
    (hI : a.Inv LogItem.leaderTerm (quorum ids)) {req : AppendEntriesRequest} {c : NodeId}
    (hlead : a.leader nd.currentTerm = some c)
    (hsl : SliceOf req.prevLogIndex req.entries (a.canon nd.currentTerm))
    (hag : AgreeTo req.prevLogIndex nd.log (a.canon nd.currentTerm))
    (hset : Settled ids a nd.currentTerm (a.canon nd.currentTerm) req.leaderCommit)
    (hle : req.leaderCommit ≤ req.prevLogIndex + req.entries.length) :
    nd.commitIndex ≤ (nd.accept req).commitIndex ∧ SafeNode ids a (nd.accept req) := by
  have hled : (a.leader nd.currentTerm).isSome := by
    rw [hlead]
    rfl
  have hend := agreeTo_splice_end hag hsl
  -- what is settled is in the leader's log, and splicing keeps what the log shares with it
  have hkept : Settled ids a nd.currentTerm (splice (req.prevLogIndex + 1) req.entries nd.log)
      nd.commitIndex := by
    have hcan := hI.agree_of_settled (fun q q' => Majority.inter) h.commit (Nat.le_refl _) hled
      hset.1
    exact h.commit.congr ((hcan.splice hag hsl).trans hcan.symm)
  have hnew := noNew_accept (p := Event.commital) (fun _ => rfl) nd req
  have hcommit : nd.commitIndex ≤ (nd.accept req).commitIndex ∧
      Settled ids a nd.currentTerm (nd.accept req).log (nd.accept req).commitIndex := by
    simp only [Node.accept]
    split
    · next hlt =>
      rw [Nat.min_eq_left hle]
      exact ⟨Nat.le_of_lt hlt, hset.congr (hend.mono hle)⟩
    · exact ⟨Nat.le_refl _, hkept⟩
  refine ⟨hcommit.1, ?_⟩
  exact
    { matched := h.matched
      commit := hcommit.2
      request := fun hs => h.request (hnew.mem hs rfl)
      committed := fun hc => h.committed (hnew.mem hc rfl)
      answer := fun hs => h.answer (hnew.mem hs rfl) }

/-- A leader sends with its entries what it has committed. -/
theorem sendEntries (h : SafeNode ids a nd) {i : NodeId} (hN : NodeSim ids a i nd)
    (hr : nd.role = .kLeader) {whom : NodeId} {req : AppendEntriesRequest} (hb : nd.Builds req) :
    SafeNode ids a (nd.note [.send whom (.appendEntriesRequest req)]) :=
  { h with
    request := fun {w req'} hs => by
      simp only [note, List.mem_append, List.mem_singleton, Event.send.injEq,
        Message.appendEntriesRequest.injEq] at hs
      rcases hs with hs | ⟨-, rfl⟩
      · exact h.request hs
      · have hlt := h.commit.lt
        have hlen := hb.length
        rw [hb.leaderTerm, hb.leaderCommit, hN.canon hr, hN.leads.1 hr]
        exact ⟨rfl, h.commit, by omega⟩
    committed := fun hc => h.committed (by simpa [note] using hc)
    answer := fun hs => h.answer (by simpa [note] using hs) }

/-- A chore answers queries from what is committed, and touches nothing else. -/
theorem chore (h : SafeNode ids a nd) (hc : Chore nd nd') : SafeNode ids a nd' := by
  have hq := hc.quiet
  have hframe : NoNew Event.commital nd nd' → SafeNode ids a nd' :=
    h.frame (Nat.le_of_eq hq.currentTerm.symm)
      (fun hr => ⟨hq.role ▸ hr, hq.currentTerm, hq.leaderState⟩) hq.log hq.commitIndex
  cases hc with
  | idle inc reqs queries evs hevs =>
    refine hframe ⟨evs, rfl, fun e he => ?_⟩
    rw [hevs e he]
    rfl
  | answer q start maxCount result hres => exact h.answerQuery hres
  | addCommand command => exact hframe ⟨[_], rfl, by simp [Event.commital]⟩
  | redirect leaderId => exact hframe (noNew_redirectCommands (fun _ _ => rfl) nd leaderId)

/-- A new leader has counted nothing. -/
theorem becomeLeader (h : SafeNode ids a nd) (hch : nd.channels = ids) :
    SafeNode ids a ({ nd with
      votedFor := none
      candidateState := none
      leaderState := some nd.initialLeaderState
      role := .kLeader }.note [.becameLeader nd.currentTerm nd.log]) :=
  { h with
    matched := by
      rintro ls - hls
      cases hls
      refine ⟨fun f hf => ?_, fun f => ?_⟩
      · rw [(initialLeaderState_keys nd).2, hch] at hf
        exact List.mem_toFinset.1 hf
      · rw [initialLeaderState_matchIndex]
        exact Nat.zero_le _
    request := fun hs => h.request (by simpa [note] using hs)
    committed := fun hc => h.committed (by simpa [note] using hc)
    answer := fun hs => h.answer (by simpa [note] using hs) }

/-- A new item leaves the others where they are. -/
theorem append (h : SafeNode ids a nd) (command : Command × PromiseId) :
    SafeNode ids a (nd.addNewCommand command) := by
  have hnew :=
    noNew_addNewCommand (p := Event.commital) (fun _ => rfl) (fun _ _ _ => rfl) nd command
  exact
    { matched := h.matched
      commit := h.commit.congr
        (agreeTo_of_isPrefix (List.prefix_append _ _) h.commit.lt).symm
      request := fun hs => h.request (hnew.mem hs rfl)
      committed := fun hc => h.committed (hnew.mem hc rfl)
      answer := fun hs => h.answer (hnew.mem hs rfl) }

end SafeNode

/-- One move of a member keeps what it knows is committed, as long as it counts only for its own
term. -/
theorem safe_move {z : Hazard} (hzc : commitsOldEntry.Le z) (hzr : countsOldReply.Le z)
    {ids : List NodeId} (hids : ids.Nodup) {a : Ledger NodeId LogItem} {nodes : NodeId → Node}
    {i : NodeId} {nd : Node} (hS : Sim ids a nodes) (hI : ∀ j ∈ ids, SafeNode ids a (nodes j))
    (h : MemberMove z ids nodes i nd) :
    (nodes i).commitIndex ≤ nd.commitIndex ∧ SafeNode ids a nd := by
  obtain ⟨hi, -, hch, hm⟩ := h
  have hN := hS.nodes i hi
  have hK := hI i hi
  generalize nodes i = nd₀ at hm hN hK hch
  cases hm with
  | chore hc =>
    exact ⟨Nat.le_of_eq hc.quiet.commitIndex.symm, hK.chore hc⟩
  | observe term ht =>
    exact ⟨Nat.le_refl _, hK.frame (Nat.le_of_lt ht) nofun rfl rfl (noNew_of_history_eq rfl)⟩
  | commit ls id hr hls hid hz =>
    have hz : commitsOldEntry.commits nd₀.core = false := hzc.commits hz
    exact hK.commitOwn hN hch hids hr hls hid hz
  | refuseEntries | refuseVote | grantVote =>
    exact ⟨Nat.le_refl _, hK.frame (Nat.le_refl _) (fun hr => ⟨hr, rfl, rfl⟩) rfl rfl
      (noNew_note (by simp [Event.commital]))⟩
  | acceptEntries sender req resp hg hs ht hprev hz hresp =>
    obtain ⟨-, hlead, hsl, e, he, hpt⟩ := (hS.nodes sender hg.1).sent hg.2
    obtain ⟨hled, hset, hle⟩ := (hI sender hg.1).request hg.2
    obtain ⟨item, hitem, hterm⟩ := hprev
    rw [ht] at hlead hsl he hled hset
    have hag : AgreeTo req.prevLogIndex nd₀.log (a.canon nd₀.currentTerm) := by
      rw [← hN.log] at hitem ⊢
      exact hS.inv.agree_at hled hitem he (hterm.trans hpt)
    obtain ⟨h1, h2⟩ := hK.accept hS.inv hlead hsl hag hset hle
    exact ⟨h1, h2.frame (Nat.le_refl _) (fun hr => ⟨hr, rfl, rfl⟩) rfl rfl
      (noNew_note (by simp [Event.commital]))⟩
  | refused sender resp ls hg ht hr hls =>
    have hcount := hK.matched hr hls
    refine ⟨Nat.le_refl _, { hK with matched := ?_ }⟩
    rintro ls' - hls'
    cases hls'
    exact hcount
  | matched sender resp ls m hg ht hr hls hs hm hz =>
    obtain ⟨hlead, m', hm', hheld⟩ := (hS.nodes sender hg.1).sent hg.2 hs
    obtain rfl : m = m' := Option.some.inj (hm.symm.trans hm')
    refine ⟨Nat.le_refl _, hK.count hr hls hg.1 ?_⟩
    rcases Nat.lt_or_ge resp.currentTerm nd₀.currentTerm with hlt | hge
    · -- an older reply that gets here reports what has been counted
      have hraises := not_raises_of_not_countsOldReply (hzr.handles hz) hr hls hlt
      exact Nat.le_trans (AppendEntriesResponse.le_of_not_raises hraises hs hm)
        ((hK.matched hr hls).2 sender)
    · exact Nat.le_antisymm ht hge ▸ hheld
  | countVote =>
    exact ⟨Nat.le_refl _, hK.frame (Nat.le_refl _) (fun hr => ⟨hr, rfl, rfl⟩) rfl rfl
      (noNew_of_history_eq rfl)⟩
  | becomeLeader cs hr hcs hmaj => exact ⟨Nat.le_refl _, hK.becomeLeader hch⟩
  | sendEntries whom req hr hw hb => exact ⟨Nat.le_refl _, hK.sendEntries hN hr hb⟩
  | append command rest hr hc hz =>
    refine ⟨Nat.le_refl _, SafeNode.append ?_ command⟩
    exact hK.frame (Nat.le_refl _) (fun hr => ⟨hr, rfl, rfl⟩) rfl rfl (noNew_of_history_eq rfl)
  | stand =>
    exact ⟨Nat.le_refl _, hK.frame (Nat.le_succ _) nofun rfl rfl
      (noNew_note (by simp [Event.commital]))⟩

/-- Nothing but the sentinel is committed at the start. -/
theorem safe_init (members : Members) :
    ∀ i ∈ members.ids, SafeNode members.ids (Ledger.init sentinel) (initialNode members i) := by
  intro i hi
  exact ⟨nofun, ⟨AgreeTo.refl Nat.zero_lt_one, .inl rfl⟩, nofun, nofun, nofun⟩

section
variable {z : Hazard} (hzc : commitsOldEntry.Le z) (hzr : countsOldReply.Le z) {members : Members}
  {s s' : Cluster} {ops : List Op}

include hzc hzr

/-- From a state in which what is known to be committed is settled, this stays so, and no commit
index goes down. -/
theorem safe_exec {a : Ledger NodeId LogItem} (hc : s.Conserved) (hmem : s.members = members)
    (hS : Sim members.ids a s.node) (hK : ∀ i ∈ members.ids, SafeNode members.ids a (s.node i))
    (hrun : exec step ops s = some s') (hz : Avoids step (marks z) ops s = true)
    (hU : UniqueLeaders members.ids s'.node) :
    ∃ a', a.Extends a' ∧ Sim members.ids a' s'.node ∧ ∀ i ∈ members.ids,
      (s.node i).commitIndex ≤ (s'.node i).commitIndex ∧ SafeNode members.ids a' (s'.node i) := by
  refine sim_exec (K := fun a i nd => (s.node i).commitIndex ≤ nd.commitIndex ∧
    SafeNode members.ids a nd) ?_ ?_ hc hmem hS (fun i hi => ⟨Nat.le_refl _, hK i hi⟩) hrun hz hU
  · rintro a a' i nd hx ⟨h1, h2⟩
    exact ⟨h1, h2.mono hx⟩
  · intro a nodes i nd hS hI hm
    obtain ⟨h1, h2⟩ := safe_move hzc hzr (nodup_ids members) hS (fun j hj => (hI j hj).2) hm
    exact ⟨Nat.le_trans (hI i hm.mem).1 h1, h2⟩

/-- The rule for safety over a run from the start. -/
theorem safe_run (hrun : exec step ops (init members) = some s)
    (hz : Avoids step (marks z) ops (init members) = true) (hU : UniqueLeaders members.ids s.node) :
    ∃ a, Sim members.ids a s.node ∧ ∀ i ∈ members.ids, SafeNode members.ids a (s.node i) := by
  obtain ⟨a, -, hS, hK⟩ := safe_exec hzc hzr (init_conserved members) rfl (sim_init members)
    (safe_init members) hrun hz hU
  exact ⟨a, hS, fun i hi => (hK i hi).2⟩

end

/-! ## Leader completeness -/

/-- Every node that enters `BecomeLeader` between `s` and `s'` has what the leader of an earlier
term had committed by `s`. -/
def Cluster.LaterLeadersComplete (s s' : Cluster) : Prop :=
  ∀ i ∈ s.members.ids, ∀ t c log, .committed t c log ∈ (s.node i).history →
    ∀ j ∈ s.members.ids, ∀ t' log',
      .becameLeader t' log' ∈ (s'.node j).history.drop (s.node j).history.length → t < t' →
      ∀ k, 1 ≤ k → k ≤ c → ∃ item, log[k]? = some item ∧ log'[k]? = some item

/-- **Leader completeness.** In a run in which no term has had two different leaders, and in which
leaders count only replies of their own term and commit only with an item of it, whoever becomes
the leader of a later term has every committed item. -/
theorem later_leaders_complete (members : Members) (ops ops' : List Op) (s s' : Cluster)
    (hrun : exec step ops (init members) = some s) (hrun' : exec step ops' s = some s')
    (honce : s'.OneLeaderPerTerm)
    (havoid : Avoids step (marks (commitsOldEntry.or countsOldReply)) (ops ++ ops') (init members)
      = true) : s.LaterLeadersComplete s' := by
  have hall := exec_append.2 ⟨s, hrun, hrun'⟩
  rw [Cluster.OneLeaderPerTerm, members_run hall] at honce
  obtain ⟨a, hS, hK⟩ := safe_run (Hazard.Le.refl _).or_left (Hazard.Le.refl _).or_right hall havoid
    honce
  intro i hi t c log hcom j hj t' log' hbec hlt k hk hkc
  rw [members_run hrun] at hi hj
  obtain ⟨hchosen, hag⟩ := (hK i hi).committed ((history_exec hrun' i).subset hcom)
  obtain ⟨hlead, rfl⟩ := (hS.nodes j hj).became (List.mem_of_mem_drop hbec)
  have hled : (a.leader t').isSome := by
    rw [hlead]
    rfl
  have hboth : AgreeTo c log (a.baseLog t') := hag.trans
    (hS.inv.agree_baseLog (fun q q' => Majority.inter) hchosen hlt hled).symm
  have hlen : k < log.length := Nat.lt_of_le_of_lt hkc hboth.lt_left
  exact ⟨log[k], List.getElem?_eq_getElem hlen,
    (hboth.getElem?_eq hkc).symm.trans (List.getElem?_eq_getElem hlen)⟩

/-- Node 1 has committed `x` in term 1. -/
def firstCommitRun : List Op := firstReplyRun ++ [.act 1 .beginTick]

/-- Then node 2 is elected in term 2, with the votes of itself and of 3. -/
def nextLeaderRun : List Op :=
  tickOps 2 0 true ++ .deliver 11 :: tickOps 3 1 ++ tickOps 2 1 ++ .deliver 11 :: tickOps 2 2

/-- Node 1 commits in term 1, and node 2 leads term 2. -/
theorem exec_nextLeaderRun :
    ∃ s s', exec step firstCommitRun (init threeMembers) = some s ∧
      exec step nextLeaderRun s = some s' ∧ (s.node 1).commitIndex = 1 ∧
      (s'.node 2).role = .kLeader := by
  obtain ⟨s, hrun, hs⟩ : ∃ s, exec step firstCommitRun (init threeMembers) = some s ∧
      ((s.node 1).commitIndex = 1 && (exec step nextLeaderRun s).any fun s' =>
        (s'.node 2).role = .kLeader : Bool) = true := exists_of_any (by decide +kernel)
  simp only [Bool.and_eq_true, decide_eq_true_eq] at hs
  obtain ⟨s', hrun', hs'⟩ := (Option.any_eq_true _ _).1 hs.2
  exact ⟨s, s', hrun, hrun', hs.1, of_decide_eq_true hs'⟩

/-- The leader of term 2 has what node 1 has committed in term 1. -/
theorem later_leaders_complete_nextLeaderRun :
    ∃ s s', exec step firstCommitRun (init threeMembers) = some s ∧
      exec step nextLeaderRun s = some s' ∧ (s.node 1).commitIndex = 1 ∧
      (s'.node 2).role = .kLeader ∧ s.LaterLeadersComplete s' := by
  obtain ⟨s, s', hrun, hrun', hcommit, hrole⟩ := exec_nextLeaderRun
  have hall := exec_append.2 ⟨s, hrun, hrun'⟩
  have honce : s'.OneLeaderPerTerm :=
    oneLeaderPerTerm_run (Hazard.Le.refl _) hall (by decide +kernel)
  exact ⟨s, s', hrun, hrun', hcommit, hrole,
    later_leaders_complete threeMembers _ _ s s' hrun hrun' honce (by decide +kernel)⟩

/-- Node 1 leads term 1 and appends `x`, node 3 leads term 2 and appends `z`, neither of which
reaches anybody. Node 1 is elected again in term 3, brings `x` to node 2, and commits it. -/
def oldEntryRun : List Op :=
  firstLeaderRun ++ .act 1 (.addCommand "x") :: tickOps 1 1 ++
  tickOps 3 0 true ++ .deliver 6 :: tickOps 2 1 ++ tickOps 3 1 ++ .deliver 6 :: tickOps 3 2 ++
  .act 3 (.addCommand "z") :: tickOps 3 1 ++
  .deliver 5 :: tickOps 1 3 ++ tickOps 1 1 true ++ .deliver 10 :: tickOps 2 1 ++ tickOps 1 1 ++
  .deliver 11 :: tickOps 1 2 ++ .deliver 11 :: tickOps 2 1 ++ .deliver 12 :: tickOps 1 2 ++
  .deliver 12 :: tickOps 2 1 ++ .deliver 13 :: tickOps 1 3 ++ [.act 1 .beginTick]

/-- Node 3 hears of term 3, stands in term 4, and has the votes of itself and of 2, as the term of
its last item is larger. -/
def overtakenLeaderRun : List Op :=
  .deliver 10 :: tickOps 3 3 ++ tickOps 3 1 true ++ .deliver 16 :: tickOps 2 1 ++ tickOps 3 1 ++
  .deliver 16 :: tickOps 3 2

/-- The leader of term 4 has `z` where the leader of term 3 had committed `x`. -/
theorem not_later_leaders_complete :
    ¬ ∀ s s', exec step oldEntryRun (init threeMembers) = some s →
      exec step overtakenLeaderRun s = some s' → s'.OneLeaderPerTerm →
      s.LaterLeadersComplete s' := by
  obtain ⟨s, hrun, hs⟩ : ∃ s, exec step oldEntryRun (init threeMembers) = some s ∧
      (.committed 3 1 [sentinel, { command := "x", leaderTerm := 1 }] ∈ (s.node 1).history &&
        (exec step overtakenLeaderRun s).any fun s' =>
          .becameLeader 4 [sentinel, { command := "z", leaderTerm := 2 }] ∈
            (s'.node 3).history.drop (s.node 3).history.length : Bool) = true :=
    exists_of_any (by decide +kernel)
  simp only [Bool.and_eq_true, decide_eq_true_eq] at hs
  obtain ⟨s', hrun', hs'⟩ := (Option.any_eq_true _ _).1 hs.2
  have hall := exec_append.2 ⟨s, hrun, hrun'⟩
  have honce : s'.OneLeaderPerTerm :=
    oneLeaderPerTerm_run (Hazard.Le.refl _) hall (by decide +kernel)
  have hids := ids_threeMembers hrun
  intro h
  obtain ⟨item, hx, hz⟩ := h s s' hrun hrun' honce 1 (by simp [hids]) 3 1 _ hs.1 3 (by simp [hids])
    4 _ (of_decide_eq_true hs') (by omega) 1 (Nat.le_refl 1) (Nat.le_refl 1)
  simp only [List.getElem?_cons_succ, List.getElem?_cons_zero, Option.some.injEq] at hx hz
  rw [← hx] at hz
  simp at hz

/-! ## State machine safety -/

/-- The steps that a cluster has to avoid to be safe. -/
def unsafeStep : Hazard := votesAsLeader.or (commitsOldEntry.or countsOldReply)

/-- Two moments of a run without such steps, with what is settled at either. -/
theorem safe_moments {members : Members} {ops ops' : List Op} {s s' : Cluster}
    (hrun : exec step ops (init members) = some s) (hrun' : exec step ops' s = some s')
    (havoid : Avoids step (marks unsafeStep) (ops ++ ops') (init members) = true) :
    ∃ a', a'.Inv LogItem.leaderTerm (quorum members.ids) ∧ ∀ i ∈ members.ids,
      Settled members.ids a' (s.node i).currentTerm (s.node i).log (s.node i).commitIndex ∧
      (s.node i).commitIndex ≤ (s'.node i).commitIndex ∧
      SafeNode members.ids a' (s'.node i) := by
  have hzc : commitsOldEntry.Le unsafeStep := (Hazard.Le.refl _).or_left.or_right
  have hzr : countsOldReply.Le unsafeStep := (Hazard.Le.refl _).or_right.or_right
  have hzv : votesAsLeader.Le unsafeStep := (Hazard.Le.refl _).or_left
  obtain ⟨h1, h2⟩ := avoids_append hrun havoid
  have hU := (elections_run hzv (exec_append.2 ⟨s, hrun, hrun'⟩) havoid).uniqueLeaders
  obtain ⟨a, hS, hK⟩ := safe_run hzc hzr hrun h1 (hU.mono (history_exec hrun'))
  obtain ⟨a', hx, hS', hK'⟩ := safe_exec hzc hzr (conserved_run hrun) (members_run hrun) hS hK hrun'
    h2 hU
  exact ⟨a', hS'.inv, fun i hi => ⟨(hK i hi).commit.extends hx, hK' i hi⟩⟩

/-- What a node has committed in `s` and what a node has committed in `s'` are the same commands. -/
def Cluster.CommittedAgree (s s' : Cluster) : Prop :=
  ∀ i ∈ s.members.ids, ∀ j ∈ s.members.ids, ∀ k, 1 ≤ k → k ≤ (s.node i).commitIndex →
    k ≤ (s'.node j).commitIndex → ∃ item item', (s.node i).log[k]? = some item ∧
      (s'.node j).log[k]? = some item' ∧ item.command = item'.command

/-- Of any two answers to `GetPersistentCommands` with the same arguments one begins the other. -/
def Cluster.AnswersComparable (s : Cluster) : Prop :=
  ∀ i ∈ s.members.ids, ∀ j ∈ s.members.ids, ∀ q q' start maxCount result result',
    .setCommands q start maxCount result ∈ (s.node i).history →
    .setCommands q' start maxCount result' ∈ (s.node j).history →
    result <+: result' ∨ result' <+: result

/-- **State machine safety.** In a run without unsafe steps, any two nodes at any two moments agree
on what both have committed, and all answers to the same query are comparable. -/
theorem state_machine_safety (members : Members) (ops ops' : List Op) (s s' : Cluster)
    (hrun : exec step ops (init members) = some s) (hrun' : exec step ops' s = some s')
    (havoid : Avoids step (marks unsafeStep) (ops ++ ops') (init members) = true) :
    s.CommittedAgree s' ∧ s'.AnswersComparable := by
  obtain ⟨a, hI, hK⟩ := safe_moments hrun hrun' havoid
  have hq : ∀ q q', quorum members.ids q → quorum members.ids q' → ∃ v ∈ q, v ∈ q' :=
    fun q q' => Majority.inter
  constructor
  · rintro i hi j hj k - hki hkj
    rw [members_run hrun] at hi hj
    have hset := (hK i hi).1
    have hset' := (hK j hj).2.2.commit
    have heq : (s.node i).log[k]? = (s'.node j).log[k]? := by
      rcases Nat.le_total (s.node i).commitIndex (s'.node j).commitIndex with hle | hle
      · exact (hI.settled_agree hq hset hset' hle).getElem?_eq hki
      · exact ((hI.settled_agree hq hset' hset hle).getElem?_eq hkj).symm
    have hlen : k < (s.node i).log.length := Nat.lt_of_le_of_lt hki hset.lt
    rw [List.getElem?_eq_getElem hlen] at heq ⊢
    exact ⟨_, _, rfl, heq.symm, rfl⟩
  · intro i hi j hj q q' start maxCount result result' hres hres'
    rw [members_run (exec_append.2 ⟨s, hrun, hrun'⟩)] at hi hj
    obtain ⟨t, l, k, hset, rfl⟩ := (hK i hi).2.2.answer hres
    obtain ⟨t', l', k', hset', rfl⟩ := (hK j hj).2.2.answer hres'
    rcases Nat.le_total k k' with hle | hle
    · exact .inl (window_isPrefix (hI.settled_agree hq hset hset' hle) hle start maxCount)
    · exact .inr (window_isPrefix (hI.settled_agree hq hset' hset hle) hle start maxCount)

/-- What node 1 has committed in term 1 agrees with what is committed in term 2. -/
theorem state_machine_safety_nextLeaderRun :
    ∃ s s', exec step firstCommitRun (init threeMembers) = some s ∧
      exec step nextLeaderRun s = some s' ∧ (s.node 1).commitIndex = 1 ∧
      s.CommittedAgree s' ∧ s'.AnswersComparable := by
  obtain ⟨s, s', hrun, hrun', hcommit, -⟩ := exec_nextLeaderRun
  exact ⟨s, s', hrun, hrun', hcommit,
    state_machine_safety threeMembers _ _ s s' hrun hrun' (by decide +kernel)⟩

/-- Of the two leaders of term 1, node 1 appends `x` and `x2` and node 2 appends `y`. Node 1 brings
its commands to node 3 and commits them in a tick that has taken the request with `y` from the
inbox. -/
def firstOfTwoCommitRun : List Op :=
  secondLeaderRun ++
  [.act 1 (.addCommand "x"), .act 1 (.addCommand "x2"), .act 2 (.addCommand "y")] ++
  tickOps 1 2 ++ tickOps 2 1 ++ tickOps 1 2 ++ tickOps 2 2 ++
  .deliver 13 :: tickOps 3 1 ++ .deliver 15 :: tickOps 1 3 ++ tickOps 1 2 ++
  [.deliver 13, .act 1 .beginTick]

/-- In the log of node 1 `y` replaces the committed commands. -/
def replacedCommitRun : List Op := [.act 1 .handle, .act 1 .handle]

/-- With the reply of node 1, node 2 commits its command as well. -/
def secondOfTwoCommitRun : List Op :=
  replacedCommitRun ++ .deliver 18 :: tickOps 2 3 ++ tickOps 2 2 ++ [.act 2 .beginTick]

/-- Two nodes commit different commands at index 1. -/
theorem not_state_machine_safety :
    ¬ ∀ s s', exec step firstOfTwoCommitRun (init threeMembers) = some s →
      exec step secondOfTwoCommitRun s = some s' → s.CommittedAgree s' ∧ s'.AnswersComparable := by
  obtain ⟨s, hrun, hs⟩ : ∃ s, exec step firstOfTwoCommitRun (init threeMembers) = some s ∧
      ((s.node 1).commitIndex = 2 && (s.node 1).log[1]?.map LogItem.command = some "x" &&
        (exec step secondOfTwoCommitRun s).any fun s' =>
          (s'.node 2).commitIndex = 1 && (s'.node 2).log[1]?.map LogItem.command = some "y" : Bool)
        = true := exists_of_any (by decide +kernel)
  simp only [Bool.and_eq_true, decide_eq_true_eq] at hs
  obtain ⟨s', hrun', hs'⟩ := (Option.any_eq_true _ _).1 hs.2
  simp only [Bool.and_eq_true, decide_eq_true_eq] at hs'
  have hids := ids_threeMembers hrun
  intro h
  obtain ⟨item, item', hx, hy, heq⟩ := (h s s' hrun hrun').1 1 (by simp [hids]) 2 (by simp [hids]) 1
    (Nat.le_refl 1) (by omega) (by omega)
  have hx' : item.command = "x" := by simpa [hx] using hs.1.2
  have hy' : item'.command = "y" := by simpa [hy] using hs'.2
  rw [hx', hy'] at heq
  simp at heq

/-! ## No node loses what it has committed -/

/-- The commit index of a member is within its log and does not go down until `s'`, and a query
reads nothing past the log. -/
def Cluster.CommitIndexKept (s s' : Cluster) : Prop :=
  ∀ i ∈ s.members.ids, (s.node i).commitIndex < (s.node i).log.length ∧
    (s.node i).commitIndex ≤ (s'.node i).commitIndex ∧
    ∀ start maxCount, ∃ result, (s.node i).persistentCommands start maxCount = .ok result

/-- **The committed prefix is kept.** In a run without unsafe steps every commit index is within the
log and never goes down. -/
theorem commit_index_kept (members : Members) (ops ops' : List Op) (s s' : Cluster)
    (hrun : exec step ops (init members) = some s) (hrun' : exec step ops' s = some s')
    (havoid : Avoids step (marks unsafeStep) (ops ++ ops') (init members) = true) :
    s.CommitIndexKept s' := by
  obtain ⟨a, -, hK⟩ := safe_moments hrun hrun' havoid
  intro i hi
  rw [members_run hrun] at hi
  obtain ⟨hset, hle, -⟩ := hK i hi
  exact ⟨hset.lt, hle, fun start maxCount => ⟨_, persistentCommands_eq hset.lt start maxCount⟩⟩

/-- The commit index of node 1 is kept into term 2. -/
theorem commit_index_kept_nextLeaderRun :
    ∃ s s', exec step firstCommitRun (init threeMembers) = some s ∧
      exec step nextLeaderRun s = some s' ∧ (s.node 1).commitIndex = 1 ∧ s.CommitIndexKept s' := by
  obtain ⟨s, s', hrun, hrun', hcommit, -⟩ := exec_nextLeaderRun
  exact ⟨s, s', hrun, hrun', hcommit,
    commit_index_kept threeMembers _ _ s s' hrun hrun' (by decide +kernel)⟩

/-- The commit index of node 1 is past its log. -/
theorem not_commit_index_kept :
    ¬ ∀ s, exec step (firstOfTwoCommitRun ++ replacedCommitRun) (init threeMembers) = some s →
      s.CommitIndexKept s := by
  obtain ⟨s, hrun, hs⟩ : ∃ s, exec step (firstOfTwoCommitRun ++ replacedCommitRun)
      (init threeMembers) = some s ∧
      ((s.node 1).commitIndex = 2 && (s.node 1).log.length = 2 : Bool) = true :=
    exists_of_any (by decide +kernel)
  simp only [Bool.and_eq_true, decide_eq_true_eq] at hs
  have hids := ids_threeMembers hrun
  intro h
  obtain ⟨hlt, -⟩ := h s hrun 1 (by simp [hids])
  omega

end ToFTDS.Consensus
