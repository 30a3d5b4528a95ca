import ToFTDS.Consensus.Roles

/-!
# Whose replies `match_index` counts

`HandleAppendEntriesResponse` does not ask which term a reply belongs to: of a reply to a request of
an earlier term it takes over the `matched_until`, and for a refusal of one it lowers `next_index`.
`staleReply` marks the replies of an earlier term that move one of the two. Those that report what
the leader knows leave both maps as they are, so in the runs without marked steps `match_index`
holds nothing but what was reported in the leader's own term (`match_index_own`).
-/

namespace ToFTDS.Consensus

open Run Node Cluster

/-- The reply moves `match_index` or `next_index`: a refusal lowers `next_index`, and a success
moves one of them unless it reports no more than `match_index` has and `next_index` is past that. -/
def AppendEntriesResponse.moves (resp : AppendEntriesResponse) (ls : LeaderState)
    (sender : NodeId) : Bool :=
  !resp.success || resp.raises ls sender || ls.nextIndex.at sender ≤ ls.matchIndex.at sender

/-- A reply that moves nothing is a success that reports what is known. -/
theorem AppendEntriesResponse.le_of_not_moves {resp : AppendEntriesResponse} {ls : LeaderState}
    {sender : NodeId} {m : Nat} (h : resp.moves ls sender = false)
    (hm : resp.matchedUntil = some m) :
    resp.success = true ∧ m ≤ ls.matchIndex.at sender ∧
      ls.matchIndex.at sender < ls.nextIndex.at sender := by
  simp only [moves, Bool.or_eq_false_iff, Bool.not_eq_false', decide_eq_false_iff_not,
    Nat.not_le] at h
  obtain ⟨⟨hs, hraises⟩, hnext⟩ := h
  exact ⟨hs, le_of_not_raises hraises hs hm, hnext⟩

/-- A leader handles a reply to a request of one of its earlier terms, and moves `match_index` or
`next_index` for it. -/
def staleReply : Hazard where
  handles nd sender msg :=
    match msg with
    | .appendEntriesResponse resp => nd.role = .kLeader && resp.answers < nd.currentTerm &&
        nd.leaderState.any fun ls => resp.moves ls sender
    | _ => false

/-- A reply of an earlier term that a leader handles without being marked moves nothing. -/
theorem not_moves_of_not_staleReply {nd : Node} {ls : LeaderState} {sender : NodeId}
    {resp : AppendEntriesResponse}
    (hz : staleReply.handles nd sender (.appendEntriesResponse resp) = false)
    (hr : nd.role = .kLeader) (hls : nd.leaderState = some ls)
    (hlt : resp.answers < nd.currentTerm) : resp.moves ls sender = false := by
  simpa [staleReply, hr, hls, hlt] using hz

/-- Node `f` has reported `m` to node `i`, in a successful reply to a request that `i` had sent to
it in term `t`. -/
def Reported (nodes : NodeId → Node) (i : NodeId) (t : Nat) (f : NodeId) (m : Nat) : Prop :=
  ∃ req resp, .send f (.appendEntriesRequest req) ∈ (nodes i).history ∧ req.leaderTerm = t ∧
    .answered i req resp ∈ (nodes f).history ∧
    .send i (.appendEntriesResponse resp) ∈ (nodes f).history ∧
    resp.success = true ∧ resp.matchedUntil = some m

/-- Each `match_index` of a leader is 0 or was reported to it in its current term, with `P t f m`
for what `f` has reported in term `t`. -/
def OwnReports (P : Nat → NodeId → Nat → Prop) (nd : Node) : Prop :=
  nd.role = .kLeader → ∀ ls, nd.leaderState = some ls →
    ∀ f, ls.matchIndex.at f = 0 ∨ P nd.currentTerm f (ls.matchIndex.at f)

section
variable {P P' : Nat → NodeId → Nat → Prop} {nd nd' : Node}

/-- The invariant survives more reports. -/
theorem OwnReports.mono (hP : ∀ t f m, P t f m → P' t f m) (h : OwnReports P nd) :
    OwnReports P' nd :=
  fun hr ls hls f => (h hr ls hls f).imp id (hP _ _ _)

/-- The invariant reads term, role and leader state only. -/
theorem OwnReports.frame (h : OwnReports P nd) (ht : nd'.currentTerm = nd.currentTerm)
    (hr : nd'.role = nd.role) (hls : nd'.leaderState = nd.leaderState) : OwnReports P nd' := by
  intro hr' ls hls' f
  rw [ht]
  exact h (hr ▸ hr') ls (hls ▸ hls') f

/-- An entry of `match_index` becomes one of the indices that have been reported. -/
theorem OwnReports.set (h : OwnReports P nd) {ls : LeaderState} {sender : NodeId} {m n : Nat}
    (hr : nd.role = .kLeader) (hls : nd.leaderState = some ls)
    (hm : m = ls.matchIndex.at sender ∨ P nd.currentTerm sender m) :
    OwnReports P { nd with
      leaderState := some
        { nextIndex := ls.nextIndex.set sender n, matchIndex := ls.matchIndex.set sender m } } := by
  rintro - ls' hls' f
  cases hls'
  dsimp only
  rw [IndexMap.at_set_eq]
  split
  · next heq =>
    subst heq
    rcases hm with rfl | hm
    · exact h hr ls hls f
    · exact .inr hm
  · exact h hr ls hls f

/-- `match_index` takes over what has been reported. -/
theorem OwnReports.matched (h : OwnReports P nd) {ls : LeaderState} {sender : NodeId} {m n : Nat}
    (hr : nd.role = .kLeader) (hls : nd.leaderState = some ls)
    (hm : m ≤ ls.matchIndex.at sender ∨ P nd.currentTerm sender m) :
    OwnReports P { nd with
      leaderState := some
        { nextIndex := ls.nextIndex.set sender n
          matchIndex := ls.matchIndex.set sender (max (ls.matchIndex.at sender) m) } } := by
  refine h.set hr hls ?_
  rcases Nat.le_total m (ls.matchIndex.at sender) with hle | hle
  · exact .inl (Nat.max_eq_left hle)
  · rw [Nat.max_eq_right hle]
    exact hm.imp (fun hm => Nat.le_antisymm hm hle) id

end

/-- The replies and the leaders' `match_index`. -/
def Reports (ids : List NodeId) (nodes : NodeId → Node) : Prop :=
  Replies ids nodes ∧ ∀ i ∈ ids, OwnReports (Reported nodes i) (nodes i)

/-- A move that takes no index from a stale reply keeps the reports. -/
theorem reports_move {z : Hazard} (hz : staleReply.Le z) {ids : List NodeId}
    {nodes : NodeId → Node} {i : NodeId} {nd : Node} (hI : Reports ids nodes)
    (h : MemberMove z ids nodes i nd) : Reports ids (Function.update nodes i nd) := by
  refine ⟨replies_move hI.1 h, ?_⟩
  obtain ⟨hi, -, -, hm⟩ := h
  have hx := history_update (i := i) hm.later.history
  have hP : ∀ j t f m, Reported nodes j t f m → Reported (Function.update nodes i nd) j t f m := by
    rintro j t f m ⟨req, resp, h1, h2, h3, h4, h5⟩
    exact ⟨req, resp, (hx j).subset h1, h2, (hx f).subset h3, (hx f).subset h4, h5⟩
  refine forall_update ?_ fun j hj => (hI.2 j hj).mono (hP j)
  have hO := (hI.2 i hi).mono (hP i)
  cases hm with
  | chore h =>
    have h := h.quiet
    exact hO.frame h.currentTerm h.role h.leaderState
  | observe term ht => nofun
  | commit ls id =>
    have h := quiet_foldl_resolve
      (List.range' ((nodes i).commitIndex + 1) (id - (nodes i).commitIndex)) (nodes i)
    exact hO.frame h.currentTerm h.role h.leaderState
  | refused sender resp ls hg ht hr hls hs hzz =>
    rintro - ls' hls' f
    cases hls'
    exact hO hr ls hls f
  | matched sender resp ls m hg ht hr hls hs hmu hzz =>
    obtain ⟨req, h1, ⟨-, h2⟩, h3, -⟩ := (hI.1 sender hg.1).reply hg.2
    rcases Nat.lt_or_ge resp.answers (nodes i).currentTerm with hlt | hge
    · -- an older reply that gets here reports what is known
      have hmoves := not_moves_of_not_staleReply (hz.handles hzz) hr hls hlt
      exact hO.matched hr hls (.inl (AppendEntriesResponse.le_of_not_moves hmoves hmu).2.1)
    · refine hO.matched hr hls (.inr (hP _ _ _ _ ?_))
      exact ⟨req, resp, h2, Nat.le_antisymm ((hI.1 i hi).requestTerm h2) (h3 ▸ hge), h1, hg.2, hs,
        hmu⟩
  | becomeLeader cs hr hcs hmaj =>
    rintro - ls hls f
    cases hls
    exact .inl (initialLeaderState_matchIndex _ f)
  | stand => nofun
  | _ => exact hO.frame rfl rfl rfl

/-- Every `match_index` is reported after every run without such moves. -/
theorem reports_run {z : Hazard} (hz : staleReply.Le z) {members : Members} {ops : List Op}
    {s : Cluster} (hrun : exec step ops (init members) = some s)
    (havoid : Avoids step (marks z) ops (init members) = true) : Reports members.ids s.node :=
  invariant_run (fun _ _ _ => reports_move hz) ⟨replies_init members, fun _ _ => nofun⟩ hrun havoid

/-- Every leader has a `match_index`, which for every node is 0 or an index that the node has
reported in a successful reply to a request of the leader's current term. -/
def Cluster.OwnMatchIndex (s : Cluster) : Prop :=
  ∀ i ∈ s.members.ids, (s.node i).role = .kLeader → ∃ ls, (s.node i).leaderState = some ls ∧
    ∀ f, ls.matchIndex.at f = 0 ∨
      Reported s.node i (s.node i).currentTerm f (ls.matchIndex.at f)

/-- If the step from `s` to `s'` handles a reply to a request of an earlier term at a node that
still leads afterwards, then `match_index` and `next_index` of the node are as before. -/
def Cluster.IgnoresStaleReply (s : Cluster) (op : Op) (s' : Cluster) : Prop :=
  ∀ i asLeader f resp rest, op = .act i .handle →
    (s.procs i).ticking = some { asLeader, todo := (f, .appendEntriesResponse resp) :: rest } →
    resp.answers < (s.node i).currentTerm → (s'.node i).role = .kLeader →
    (s'.node i).leaderState = (s.node i).leaderState

/-- A node that leads after a stale reply that is not marked has its leader state from before. -/
theorem leaderState_of_staleReply {ids : Finset NodeId} {nd nd' : Node}
    {resp : AppendEntriesResponse} {f : NodeId} (hN : RoleNode ids nd) (hf : f ∈ ids)
    (h : nd.handleAppendEntriesResponse resp f = .ok nd')
    (hz : staleReply.handles (nd.observeTerm resp.currentTerm).core f (.appendEntriesResponse resp)
      = false) (hlt : resp.answers < nd.currentTerm) (hlead : nd'.role = .kLeader) :
    nd'.leaderState = nd.leaderState := by
  rcases handleAppendEntriesResponse_ok h with ⟨hr, rfl⟩ | ⟨hr, ls, hls, hcases⟩
  · exact absurd hlead hr
  rcases nd.observeTerm_cases resp.currentTerm with ⟨-, heq⟩ | ⟨-, heq⟩ <;>
    rw [heq] at hr hls hz hcases
  · have hmoves := not_moves_of_not_staleReply hz hr hls hlt
    rcases hcases with ⟨hs, -⟩ | ⟨-, m, hm, rfl⟩
    · simp [AppendEntriesResponse.moves, hs] at hmoves
    · obtain ⟨-, hle, hnext⟩ := AppendEntriesResponse.le_of_not_moves hmoves hm
      obtain ⟨hnextKeys, hmatchKeys⟩ := hN.keys hls
      rw [hls, Nat.max_eq_left hle, Nat.max_eq_left hnext,
        IndexMap.set_at_self _ (hnextKeys ▸ hf), IndexMap.set_at_self _ (hmatchKeys ▸ hf)]
  · cases hr

/-- In every reachable state a reply comes from a member, whose entries exist. -/
theorem ignoresStaleReply_of_step {members : Members} {ops : List Op} {s s' : Cluster} {op : Op}
    (hrun : exec step ops (init members) = some s) (h : s.step op = some s')
    (hz : s.marks staleReply op = false) : s.IgnoresStaleReply op s' := by
  rintro i asLeader f resp rest rfl htick hlt hlead
  rcases step_cases h with ⟨i', a, p, heq, hi, hp, rfl⟩ | ⟨k, pkt, heq, -⟩ | ⟨k, heq, -⟩ <;>
    cases heq
  obtain ⟨asLeader', m, rest', nd, htick', hnode, rfl⟩ := Process.step_handle hp
  cases htick.symm.trans htick'
  rw [update_node, Function.update_self] at hlead ⊢
  simp only [marks, Process.marks, htick] at hz
  have hids := members_run hrun
  have hsent : Sent s.members.ids s.node i f (.appendEntriesResponse resp) :=
    (conserved_run hrun).pending i (f, .appendEntriesResponse resp)
      (by simp [Process.pending, htick])
  rw [hids] at hi hsent
  exact leaderState_of_staleReply (roles_run hrun i hi) (List.mem_toFinset.2 hsent.1) hnode hz hlt
    hlead

/-- **`match_index` counts only this leadership's acknowledgements**, in a run in which no leader
moves `match_index` or `next_index` for a reply to a request of an earlier term. -/
theorem match_index_own (members : Members) (ops : List Op) (s : Cluster)
    (hrun : exec step ops (init members) = some s)
    (havoid : Avoids step (marks staleReply) ops (init members) = true) :
    s.OwnMatchIndex ∧ ∀ op s', s.step op = some s' → s.marks staleReply op = false →
      s.IgnoresStaleReply op s' := by
  refine ⟨?_, fun op s' h hz => ignoresStaleReply_of_step hrun h hz⟩
  obtain ⟨hrep, hown⟩ := reports_run (Hazard.Le.refl _) hrun havoid
  intro i hi hr
  rw [members_run hrun] at hi
  obtain ⟨ls, hls⟩ := Option.isSome_iff_exists.1 ((hrep i hi).leader hr)
  exact ⟨ls, hls, hown i hi hr ls hls⟩

/-- Node 2 replies to the leader of term 3, which has handled this reply in a tick that takes the
one of term 1 from the inbox as well. -/
def lateReplyRun : List Op :=
  secondTermRun ++ .deliver 10 :: tickOps 2 1 ++
  [.deliver 11, .deliver 6, .act 1 .beginTick, .act 1 .handle, .act 1 .handle]

/-- The leader of term 3 counts what node 2 has reported to it, and makes nothing of the reply of
term 1, which reports the same. -/
theorem match_index_own_lateReplyRun :
    ∃ s s', exec step lateReplyRun (init threeMembers) = some s ∧
      s.step (.act 1 .handle) = some s' ∧ s.OwnMatchIndex ∧
      (s.node 1).leaderState.any (fun ls => ls.matchIndex.at 2 = 1) = true ∧
      (s'.node 1).leaderState = (s.node 1).leaderState := by
  let resp : AppendEntriesResponse :=
    { currentTerm := 1, success := true, matchedUntil := some 1, answers := 1 }
  obtain ⟨s, hrun, hs⟩ : ∃ s, exec step lateReplyRun (init threeMembers) = some s ∧
      ((s.node 1).currentTerm = 3 &&
        (s.node 1).leaderState.any (fun ls => ls.matchIndex.at 2 = 1) &&
        (s.procs 1).ticking.any (fun t => t.todo = [(2, .appendEntriesResponse resp)]) &&
        !s.marks staleReply (.act 1 .handle) &&
        (s.step (.act 1 .handle)).any fun s' => (s'.node 1).role = .kLeader : Bool) = true :=
    exists_of_any (by decide +kernel)
  simp only [Bool.and_eq_true, Bool.not_eq_true', decide_eq_true_eq] at hs
  obtain ⟨⟨⟨⟨hterm, hmatch⟩, htick⟩, hz⟩, hstep⟩ := hs
  obtain ⟨⟨asLeader, todo⟩, htick, htodo⟩ := (Option.any_eq_true _ _).1 htick
  obtain rfl := of_decide_eq_true htodo
  obtain ⟨s', hstep, hrole⟩ := (Option.any_eq_true _ _).1 hstep
  obtain ⟨hown, hignores⟩ := match_index_own threeMembers _ s hrun (by decide +kernel)
  refine ⟨s, s', hrun, hstep, hown, hmatch, ?_⟩
  refine hignores _ s' hstep hz 1 _ 2 resp [] rfl htick ?_ (of_decide_eq_true hrole)
  rw [hterm]
  decide

/-- The reply of term 1 raises `match_index` in term 3, in which node 2 has reported nothing. -/
theorem not_match_index_own :
    ¬ ∀ s, exec step (secondTermRun ++ .deliver 6 :: tickOps 1 2) (init threeMembers) = some s →
      s.OwnMatchIndex := by
  obtain ⟨s, hrun, hs⟩ : ∃ s, exec step (secondTermRun ++ .deliver 6 :: tickOps 1 2)
      (init threeMembers) = some s ∧
      ((s.node 1).role = .kLeader && (s.node 1).currentTerm = 3 &&
        (s.node 1).leaderState.any (fun ls => ls.matchIndex.at 2 = 1) &&
        (s.node 2).history.all fun
          | .answered _ req _ => req.leaderTerm ≠ 3
          | _ => true : Bool) = true :=
    exists_of_any (by decide +kernel)
  intro h
  simp only [Bool.and_eq_true, decide_eq_true_eq, List.all_eq_true] at hs
  obtain ⟨⟨⟨hr, ht⟩, hm⟩, hall⟩ := hs
  have hids := ids_threeMembers hrun
  obtain ⟨ls, hls, hown⟩ := h s hrun 1 (by simp [hids]) hr
  rw [hls] at hm
  have hm : ls.matchIndex.at 2 = 1 := by simpa using hm
  rcases hown 2 with h0 | ⟨req, resp, -, hterm, hans, -⟩
  · omega
  · have := hall _ hans
    simp [hterm, ht] at this

end ToFTDS.Consensus
