import ToFTDS.Lib.OrderStatistic
import ToFTDS.Consensus.Promises

/-!
# The scan of `CommitIfPossible`

The first loop of `CommitIfPossible` keeps the last index that a majority of the `match_index`
entries has reached. With one entry per member this is the `q`-th largest of them, `q` being the
smallest strict majority (`idToCommit_eq`). The second loop answers what is pending between the old
commit index and the new one (`commit_scan_order_statistic`).

A new leader starts with a `match_index` of 0 for every member, so that its commit index may well be
past what a majority has reached according to `match_index`: only an index that it commits itself is
counted (`not_commit_scan_order_statistic`).
-/

namespace ToFTDS.Consensus

open Node

/-- The values of `match_index`. -/
def LeaderState.matchValues (ls : LeaderState) : Multiset Nat :=
  ls.matchIndex.keys.val.map ls.matchIndex.at

namespace Node

/-- A strict majority of the members has reached index `i`, according to `match_index`. -/
def HeldByMajority (nd : Node) (ls : LeaderState) (i : Nat) : Prop :=
  nd.totalNodes < 2 * (ls.matchIndex.keys.filter fun k => i ≤ ls.matchIndex.at k).card

/-- The `match_index` that a strict majority of the members reaches: the `q`-th largest, with
`q = total_nodes_ / 2 + 1`. (It is 0 if there are no members.) -/
def quorumIndex (nd : Node) (ls : LeaderState) : Nat :=
  (kthLargest ls.matchValues (nd.totalNodes / 2 + 1)).getD 0

section
variable {nd : Node} {ls : LeaderState}

/-- The test of the scan is that a majority holds the index. -/
theorem majorityMatched_iff (nd : Node) (ls : LeaderState) (i : Nat) :
    nd.majorityMatched ls i = true ↔ nd.HeldByMajority ls i := by
  rw [majorityMatched, decide_eq_true_eq, HeldByMajority]
  omega

/-- A majority holds an index when enough match values reach it. -/
theorem heldByMajority_iff (nd : Node) (ls : LeaderState) (i : Nat) :
    nd.HeldByMajority ls i ↔ nd.totalNodes / 2 + 1 ≤ ls.matchValues.countP (i ≤ ·) := by
  have hcount : ls.matchValues.countP (i ≤ ·) =
      (ls.matchIndex.keys.filter fun k => i ≤ ls.matchIndex.at k).card := by
    rw [LeaderState.matchValues, Multiset.countP_map]
    rfl
  rw [hcount, HeldByMajority]
  omega

/-- What a strict majority has reached is what is at most the `q`-th largest. -/
theorem heldByMajority_iff_le (hkeys : ls.matchIndex.keys.card = nd.totalNodes) {i : Nat}
    (hi : 0 < i) : nd.HeldByMajority ls i ↔ i ≤ nd.quorumIndex ls := by
  rcases Nat.eq_zero_or_pos nd.totalNodes with hzero | hpos
  · have hempty : ls.matchValues = 0 := by
      rw [LeaderState.matchValues, Finset.card_eq_zero.1 (hkeys.trans hzero)]
      rfl
    rw [heldByMajority_iff, quorumIndex, hempty]
    refine iff_of_false (by simp) ?_
    simpa [kthLargest] using Nat.ne_of_gt hi
  · obtain ⟨m, hm⟩ := kthLargest_eq_some (s := ls.matchValues) (q := nd.totalNodes / 2 + 1)
      (Nat.succ_pos _)
      (by rw [LeaderState.matchValues, Multiset.card_map, ← Finset.card_def]; omega)
    rw [heldByMajority_iff, quorumIndex, hm, Option.getD_some]
    exact (le_kthLargest_iff (Nat.succ_pos _) hm i).symm

/-- Who has reached an index has reached those in front of it. -/
theorem HeldByMajority.mono {i j : Nat} (h : nd.HeldByMajority ls j) (hij : i ≤ j) :
    nd.HeldByMajority ls i := by
  refine Nat.lt_of_lt_of_le h (Nat.mul_le_mul_left 2 (Finset.card_le_card ?_))
  exact Finset.monotone_filter_right _ fun k _ hk => Nat.le_trans hij hk

/-- The scan finds the `q`-th largest `match_index`, as far as the log goes. -/
theorem idToCommit_eq (hkeys : ls.matchIndex.keys.card = nd.totalNodes) :
    nd.idToCommit ls =
      if nd.commitIndex < min nd.getLastLogIndex (nd.quorumIndex ls) then
        some (min nd.getLastLogIndex (nd.quorumIndex ls))
      else none := by
  refine scan_threshold fun i hi => ?_
  rw [majorityMatched_iff, heldByMajority_iff_le hkeys (Nat.zero_lt_of_lt hi)]

end

/-- The promises that are pending under the indices, in their order. -/
def pendingUnder (nd : Node) (l : List Nat) : List PromiseId :=
  l.filterMap fun i => nd.itemsToResponse.lookup i

/-- The loop of `CommitIfPossible` answers what is pending under its indices, and nothing else. -/
theorem foldl_resolve_answers (l : List Nat) (hl : l.Nodup) (nd : Node) :
    (l.foldl resolve nd).history =
        nd.history ++ (nd.pendingUnder l).map (fun p => .setValue p {}) ∧
      ∀ i, (l.foldl resolve nd).itemsToResponse.lookup i =
        if i ∈ l then none else nd.itemsToResponse.lookup i := by
  induction l generalizing nd with
  | nil => simp [pendingUnder]
  | cons j l ih =>
    obtain ⟨hj, hl⟩ := List.nodup_cons.1 hl
    obtain ⟨hhist, hlook⟩ := ih hl (nd.resolve j)
    have hrest : (nd.resolve j).pendingUnder l = nd.pendingUnder l := by
      refine List.filterMap_congr fun i hi => ?_
      rw [lookup_resolve, if_neg]
      rintro rfl
      exact hj hi
    refine ⟨?_, fun i => ?_⟩
    · rw [List.foldl_cons, hhist, hrest]
      cases hp : nd.itemsToResponse.lookup j with
      | none => simp [pendingUnder, resolve, hp]
      | some p => simp [pendingUnder, resolve, hp, emit]
    · rw [List.foldl_cons, hlook, lookup_resolve]
      by_cases h1 : i = j <;> by_cases h2 : i ∈ l <;> simp [h1, h2]

/-- The node after it has committed up to index `id`. -/
def commitTo (nd : Node) (id : Nat) : Node :=
  { (List.range' (nd.commitIndex + 1) (id - nd.commitIndex)).foldl resolve nd with
    commitIndex := id }.emit (.committed nd.currentTerm id nd.log)

@[simp] theorem commitTo_commitIndex (nd : Node) (id : Nat) :
    (nd.commitTo id).commitIndex = id := rfl

/-- Committing answers the promises up to the index and records the commit. -/
theorem commitTo_history (nd : Node) (id : Nat) :
    (nd.commitTo id).history = nd.history ++
      (nd.pendingUnder (List.range' (nd.commitIndex + 1) (id - nd.commitIndex))).map
        (fun p => .setValue p {}) ++ [.committed nd.currentTerm id nd.log] :=
  congrArg (· ++ _) (foldl_resolve_answers _ List.nodup_range' nd).1

/-- Committing removes the promises between the old commit index and the new one. -/
theorem commitTo_lookup (nd : Node) (id i : Nat) :
    (nd.commitTo id).itemsToResponse.lookup i =
      if nd.commitIndex < i ∧ i ≤ id then none else nd.itemsToResponse.lookup i := by
  refine ((foldl_resolve_answers _ List.nodup_range' nd).2 i).trans (if_congr ?_ rfl rfl)
  rw [List.mem_range'_1]
  omega

/-- `CommitIfPossible` with something to commit. -/
theorem commitIfPossible_eq_commitTo {nd : Node} {ls : LeaderState} {id : Nat}
    (hls : nd.leaderState = some ls) (hid : nd.idToCommit ls = some id) :
    nd.commitIfPossible = .ok (nd.commitTo id) := by
  have hq := quiet_foldl_resolve (List.range' (nd.commitIndex + 1) (id - nd.commitIndex)) nd
  have hev : ∀ loop : Node, nd.Quiet loop →
      Event.committed loop.currentTerm id loop.log = .committed nd.currentTerm id nd.log := by
    intro loop hq
    rw [hq.currentTerm, hq.log]
  simp only [commitIfPossible, hls, hid]
  exact congrArg (fun e => Except.ok (Node.emit _ e)) (hev _ hq)

/-- `nd'` is what `CommitIfPossible` should make of `nd`, a leader with the state `ls`. -/
structure CommitsQuorum (nd : Node) (ls : LeaderState) (nd' : Node) : Prop where
  commitIndex : nd'.commitIndex = max nd.commitIndex (min nd.getLastLogIndex (nd.quorumIndex ls))
  inLog : nd'.commitIndex < nd.log.length
  /-- If the commit index goes up, a majority has reached every index up to it. -/
  held : nd.commitIndex < nd'.commitIndex → ∀ i ≤ nd'.commitIndex, nd.HeldByMajority ls i
  /-- What is pending past the old commit index and up to the new one is not pending any more. -/
  removed : ∀ i, nd'.itemsToResponse.lookup i =
    if nd.commitIndex < i ∧ i ≤ nd'.commitIndex then none else nd.itemsToResponse.lookup i
  /-- It is answered, and no other promise is. -/
  answered : nd'.history = nd.history ++
    (nd.pendingUnder (List.range' (nd.commitIndex + 1) (nd'.commitIndex - nd.commitIndex))).map
      (fun p => .setValue p {}) ++
    if nd.commitIndex < nd'.commitIndex then
      [.committed nd.currentTerm nd'.commitIndex nd.log]
    else []
  /-- A second call changes nothing. -/
  again : nd'.commitIfPossible = .ok nd'

/-- A call with nothing to commit changes nothing. -/
theorem commitIfPossible_of_ge {nd : Node} {ls : LeaderState} (hls : nd.leaderState = some ls)
    (hkeys : ls.matchIndex.keys.card = nd.totalNodes)
    (hge : min nd.getLastLogIndex (nd.quorumIndex ls) ≤ nd.commitIndex) :
    nd.commitIfPossible = .ok nd := by
  simp only [commitIfPossible, hls, idToCommit_eq hkeys, if_neg (Nat.not_lt.2 hge)]

/-- **The commit scan computes the quorum order statistic**, for every leader state with one
`match_index` entry per member and every commit index within the log. (Past it, and in an empty log,
the sums of the source wrap, and those here do not.) -/
theorem commit_scan_order_statistic (nd : Node) (ls : LeaderState)
    (hls : nd.leaderState = some ls) (hkeys : ls.matchIndex.keys.card = nd.totalNodes)
    (hlog : nd.log ≠ []) (hcommit : nd.commitIndex ≤ nd.getLastLogIndex) :
    ∃ nd', nd.commitIfPossible = .ok nd' ∧ nd.CommitsQuorum ls nd' := by
  have hlast : nd.getLastLogIndex < nd.log.length :=
    Nat.sub_lt (List.length_pos_iff.2 hlog) Nat.one_pos
  obtain ⟨id, hid⟩ : ∃ id, id = min nd.getLastLogIndex (nd.quorumIndex ls) := ⟨_, rfl⟩
  rcases Nat.lt_or_ge nd.commitIndex id with hlt | hge
  · have hscan : nd.idToCommit ls = some id := by
      rw [idToCommit_eq hkeys, ← hid, if_pos hlt]
    refine ⟨nd.commitTo id, commitIfPossible_eq_commitTo hls hscan, ?_, ?_, fun _ i hi => ?_,
      nd.commitTo_lookup id, ?_, ?_⟩
    · rw [commitTo_commitIndex]
      omega
    · rw [commitTo_commitIndex]
      omega
    · have hheld : nd.HeldByMajority ls id :=
        (heldByMajority_iff_le hkeys (Nat.zero_lt_of_lt hlt)).2 (by omega)
      exact hheld.mono hi
    · rw [commitTo_history, commitTo_commitIndex, if_pos hlt]
    · have hq := quiet_foldl_resolve (List.range' (nd.commitIndex + 1) (id - nd.commitIndex)) nd
      have htotal : (nd.commitTo id).totalNodes = nd.totalNodes := congrArg List.length hq.channels
      have hlast : (nd.commitTo id).getLastLogIndex = nd.getLastLogIndex :=
        congrArg (fun log : Log => log.length - 1) hq.log
      refine commitIfPossible_of_ge (hq.leaderState.trans hls) (hkeys.trans htotal.symm) ?_
      rw [hlast, quorumIndex, htotal]
      exact Nat.le_of_eq hid.symm
  · rw [hid] at hge
    have hok := commitIfPossible_of_ge hls hkeys hge
    refine ⟨nd, hok, ?_, Nat.lt_of_le_of_lt hcommit hlast, fun h => absurd h (Nat.lt_irrefl _),
      fun i => ?_, ?_, hok⟩
    · omega
    · rw [if_neg (by omega)]
    · simp [pendingUnder]

/-- The node of a leader of three members with one entry, which is pending, and which two of them
have, with `commit` its commit index. -/
def leaderOfThree (ls : LeaderState) (commit : Nat) : Node where
  myId := 1
  channels := [1, 2, 3]
  currentTerm := 1
  log := [sentinel, { command := "x", leaderTerm := 1 }]
  commitIndex := commit
  role := .kLeader
  leaderState := some ls
  itemsToResponse := Finmap.singleton 1 0
  promises := 1

/-- The `match_index` entries of the three members. -/
def threeMatched (a b c : Nat) : LeaderState where
  matchIndex := ((IndexMap.set ∅ 1 a).set 2 b).set 3 c

/-- A leader of three that matches one follower at index 1 commits it. -/
theorem commit_scan_order_statistic_leaderOfThree :
    ∃ nd', (leaderOfThree (threeMatched 1 1 0) 0).commitIfPossible = .ok nd' ∧
      (leaderOfThree (threeMatched 1 1 0) 0).CommitsQuorum (threeMatched 1 1 0) nd' ∧
      nd'.commitIndex = 1 := by
  obtain ⟨nd', hok, h⟩ :=
    commit_scan_order_statistic (leaderOfThree (threeMatched 1 1 0) 0) (threeMatched 1 1 0) rfl
      (by decide) (by decide) (by decide)
  have hone : (leaderOfThree (threeMatched 1 1 0) 0).commitIfPossible.map Node.commitIndex =
      .ok 1 := by rfl
  rw [hok] at hone
  exact ⟨nd', hok, h, Except.ok.inj hone⟩

/-- A new leader has committed an entry that none of its `match_index` entries counts yet. -/
theorem not_commit_scan_order_statistic :
    ¬ ∀ (nd nd' : Node) (ls : LeaderState), nd.leaderState = some ls →
      ls.matchIndex.keys.card = nd.totalNodes → nd.log ≠ [] →
      nd.commitIndex ≤ nd.getLastLogIndex → nd.commitIfPossible = .ok nd' →
      ∀ i ≤ nd'.commitIndex, nd.HeldByMajority ls i := by
  intro h
  have hheld := h (leaderOfThree (threeMatched 0 0 0) 1) _ (threeMatched 0 0 0) rfl (by decide)
    (by decide) (by decide) rfl 1 (Nat.le_refl _)
  rw [HeldByMajority] at hheld
  exact absurd hheld (by decide)

end Node

end ToFTDS.Consensus
