import ToFTDS.Consensus.Runs

/-!
# The role of a node over a batch of messages

`Tick` looks at the role once and then handles all messages that wait, each of which can change the
role. `OfficeStep` lists what one message does to the role of a node and to what the node counts in
it; a batch makes a leader of a candidate exactly if no message in it has a higher term and the
votes in it complete a majority (`role_after_batch`).

`TickLeader` looks at the role again before it acts as a leader (`node.cpp:440`). `TickFollower` and
`TickCandidate` do not before they stand for election, so a candidate that wins in a tick in which
its timer has expired gives up the office it has just won (`leader_keeps_office`).
-/

namespace ToFTDS.Consensus

open Node

namespace Message

/-- The message grants its receiver a vote in `term`. -/
def grantsVote (term : Nat) : Message → Bool
  | .requestVoteResponse resp => resp.voteGranted && decide (resp.candidateTerm = term)
  | _ => false

/-- The index up to which the message says that its sender's log matches. -/
def matchedUntil : Message → Option Nat
  | .appendEntriesResponse resp => if resp.success then resp.matchedUntil else none
  | _ => none

end Message

namespace Node

/-! ## What one message does -/

/-- The votes that a candidate counts. -/
def votes (nd : Node) : Finset NodeId := (nd.candidateState.map CandidateState.votes).getD ∅

/-- `votes` are a majority. -/
def Majority (nd : Node) (votes : Finset NodeId) : Prop := nd.totalNodes + 1 ≤ votes.card * 2

instance (nd : Node) (votes : Finset NodeId) : Decidable (nd.Majority votes) :=
  inferInstanceAs (Decidable (_ ≤ _))

/-- The role, its term and what the node counts in it are the same. -/
structure SameOffice (nd nd' : Node) : Prop where
  channels : nd'.channels = nd.channels
  currentTerm : nd'.currentTerm = nd.currentTerm
  role : nd'.role = nd.role
  candidateState : nd'.candidateState = nd.candidateState
  matchIndex :
    nd'.leaderState.map LeaderState.matchIndex = nd.leaderState.map LeaderState.matchIndex

/-- A node holds the office that it holds. -/
theorem SameOffice.refl (nd : Node) : SameOffice nd nd := ⟨rfl, rfl, rfl, rfl, rfl⟩

/-- Keeping the office composes. -/
theorem SameOffice.trans {nd nd₁ nd' : Node} (h : SameOffice nd nd₁) (h' : SameOffice nd₁ nd') :
    SameOffice nd nd' where
  channels := h'.channels.trans h.channels
  currentTerm := h'.currentTerm.trans h.currentTerm
  role := h'.role.trans h.role
  candidateState := h'.candidateState.trans h.candidateState
  matchIndex := h'.matchIndex.trans h.matchIndex

/-- A quiet step keeps the office. -/
theorem Quiet.sameOffice {nd nd' : Node} (h : Quiet nd nd') : SameOffice nd nd' :=
  ⟨h.channels, h.currentTerm, h.role, h.candidateState, by rw [h.leaderState]⟩

/-- The office is read off the core. -/
theorem sameOffice_core {nd nd' : Node} (h : nd'.core = nd.core) : SameOffice nd nd' where
  channels := by
    have : nd'.core.channels = nd.core.channels := by rw [h]
    exact this
  currentTerm := by
    have : nd'.core.currentTerm = nd.core.currentTerm := by rw [h]
    exact this
  role := by
    have : nd'.core.role = nd.core.role := by rw [h]
    exact this
  candidateState := by
    have : nd'.core.candidateState = nd.core.candidateState := by rw [h]
    exact this
  matchIndex := by
    have : nd'.core.leaderState = nd.core.leaderState := by rw [h]
    exact congrArg (Option.map LeaderState.matchIndex) this

/-- What a message of `sender` does to a node that has observed the message's term: nothing, or a
candidate counts a vote, which can make it the leader, or a leader notes how far a log matches. -/
inductive OfficeStep (sender : NodeId) (msg : Message) (nd nd' : Node) : Prop
  | same (hvote : ¬ (nd.role = .kCandidate ∧ msg.grantsVote nd.currentTerm = true))
      (hmatch : ¬ (nd.role = .kLeader ∧ msg.matchedUntil.isSome = true))
      (h : SameOffice nd nd')
  | vote (cs : CandidateState) (hrole : nd.role = .kCandidate)
      (hgrant : msg.grantsVote nd.currentTerm = true) (hcs : nd.candidateState = some cs)
      (hmin : ¬ nd.Majority (insert sender cs.votes))
      (h : SameOffice { nd with candidateState := some { votes := insert sender cs.votes } } nd')
  | win (cs : CandidateState) (hrole : nd.role = .kCandidate)
      (hgrant : msg.grantsVote nd.currentTerm = true) (hcs : nd.candidateState = some cs)
      (hmaj : nd.Majority (insert sender cs.votes))
      (h : SameOffice { nd with
        candidateState := none
        leaderState := some nd.initialLeaderState
        role := .kLeader } nd')
  | matched (ls : LeaderState) (m : Nat) (hrole : nd.role = .kLeader)
      (hm : msg.matchedUntil = some m) (hls : nd.leaderState = some ls)
      (h : SameOffice { nd with
        leaderState := some
          { ls with
            matchIndex := ls.matchIndex.set sender (max (ls.matchIndex.at sender) m) } } nd')

/-- `HandleRequestVoteResponse`, by what becomes of the vote. -/
theorem handleRequestVoteResponse_office {nd nd' : Node} {resp : RequestVoteResponse}
    {fromWho : NodeId} (h : nd.handleRequestVoteResponse resp fromWho = .ok nd') :
    OfficeStep fromWho (.requestVoteResponse resp) (nd.observeTerm resp.currentTerm) nd' := by
  unfold handleRequestVoteResponse at h
  generalize nd.observeTerm resp.currentTerm = nd₁ at h ⊢
  dsimp only at h
  split at h
  · next hrole =>
    cases h
    exact .same (fun hv => hrole hv.1) (by simp [Message.matchedUntil]) (.refl _)
  next hrole =>
  split at h
  · next hgranted =>
    cases h
    exact .same (by simp [Message.grantsVote, hgranted]) (by simp [Message.matchedUntil]) (.refl _)
  next hgranted =>
  split at h
  · next hterm =>
    cases h
    exact .same (by simp [Message.grantsVote, hterm]) (by simp [Message.matchedUntil]) (.refl _)
  next hterm =>
  have hgrant : (Message.requestVoteResponse resp).grantsVote nd₁.currentTerm = true := by
    simp [Message.grantsVote, Bool.not_eq_false _ ▸ hgranted, not_not.1 hterm]
  split at h
  · cases h
  next cs hcs =>
  split at h
  · next hmaj =>
    obtain ⟨l, rfl, -⟩ := becomeLeader_ok h
    refine .win cs (not_not.1 hrole) hgrant hcs hmaj ?_
    rw [sendEach_eq]
    exact ⟨rfl, rfl, rfl, rfl, rfl⟩
  · next hmin =>
    cases h
    exact .vote cs (not_not.1 hrole) hgrant hcs hmin (.refl _)

/-- A handled AppendEntriesResponse notes at most a match index in the office. -/
theorem handleAppendEntriesResponse_office {nd nd' : Node} {resp : AppendEntriesResponse}
    {fromWho : NodeId} (h : nd.handleAppendEntriesResponse resp fromWho = .ok nd') :
    OfficeStep fromWho (.appendEntriesResponse resp) (nd.observeTerm resp.currentTerm) nd' := by
  rcases handleAppendEntriesResponse_ok h with
    ⟨hrole, rfl⟩ | ⟨hrole, ls, hls, ⟨hs, rfl⟩ | ⟨hs, m, hm, rfl⟩⟩
  · exact .same (by simp [Message.grantsVote]) (fun hv => hrole hv.1) (.refl _)
  · refine .same (by simp [Message.grantsVote]) (by simp [Message.matchedUntil, hs]) ?_
    exact ⟨rfl, rfl, rfl, rfl, by rw [hls]; rfl⟩
  · exact .matched ls m hrole (by simp [Message.matchedUntil, hs, hm]) hls ⟨rfl, rfl, rfl, rfl, rfl⟩

/-- The handling of one message, by what it does to the role. -/
theorem handleMessage_office {nd nd' : Node} {sender : NodeId} {msg : Message}
    (h : nd.handleMessage sender msg = .ok nd') :
    OfficeStep sender msg (nd.observeTerm msg.term) nd' := by
  rcases handleMessage_ok h with
    ⟨req, resp, rfl, -, -, rfl⟩ | ⟨req, rfl, -, rfl⟩ | ⟨resp, rfl, h⟩ | ⟨resp, rfl, h⟩
  · refine .same (by simp [Message.grantsVote]) (by simp [Message.matchedUntil]) ?_
    obtain ⟨h1, h2, h3, h4⟩ := nd.handleAppendEntriesRequest_roles req
    refine ⟨?_, h2, h1, h3, congrArg _ h4⟩
    exact ((grows_handleAppendEntriesRequest nd req).channels).trans
      (grows_observeTerm nd req.leaderTerm).channels.symm
  · refine .same (by simp [Message.grantsVote]) (by simp [Message.matchedUntil]) ?_
    rcases nd.handleRequestVoteRequest_cases req with
      ⟨-, heq⟩ | ⟨-, -, heq⟩ | ⟨-, -, heq⟩ <;> rw [heq] <;> exact ⟨rfl, rfl, rfl, rfl, rfl⟩
  · exact handleAppendEntriesResponse_office h
  · exact handleRequestVoteResponse_office h

/-- A message of a higher term makes a follower. -/
theorem role_of_newTerm {nd nd' : Node} {sender : NodeId} {msg : Message}
    (h : nd.handleMessage sender msg = .ok nd') (hlt : nd.currentTerm < msg.term) :
    nd'.role = .kFollower := by
  have hfollower : (nd.observeTerm msg.term).role = .kFollower := by
    rcases nd.observeTerm_cases msg.term with ⟨hle, -⟩ | ⟨-, heq⟩
    · exact absurd hle (Nat.not_le_of_lt hlt)
    · rw [heq]
  cases handleMessage_office h with
  | same _ _ h => exact h.role.trans hfollower
  | vote _ hrole | win _ hrole | matched _ _ hrole => exact nomatch hrole.symm.trans hfollower

/-- In its own term only a candidate changes its role. -/
theorem role_of_le {nd nd' : Node} {sender : NodeId} {msg : Message}
    (h : nd.handleMessage sender msg = .ok nd') (hle : msg.term ≤ nd.currentTerm) :
    nd'.currentTerm = nd.currentTerm ∧ (nd.role ≠ .kCandidate → nd'.role = nd.role) := by
  have hoffice := handleMessage_office h
  rw [observeTerm_eq_self hle] at hoffice
  cases hoffice with
  | same _ _ h | matched _ _ _ _ _ h => exact ⟨h.currentTerm, fun _ => h.role⟩
  | vote _ hrole _ _ _ h | win _ hrole _ _ _ h => exact ⟨h.currentTerm, fun hne => absurd hrole hne⟩

/-! ## Batches -/

/-- The loops of `HandleIncomingMessages`, over the messages `l`. -/
def handleAll (nd : Node) (l : List (NodeId × Message)) : Except Fault Node :=
  l.foldlM (fun nd m => nd.handleMessage m.1 m.2) nd

/-- A batch is handled from its first message on. -/
theorem handleAll_cons {nd nd' : Node} {m : NodeId × Message} {l : List (NodeId × Message)} :
    nd.handleAll (m :: l) = .ok nd' ↔
      ∃ nd₁, nd.handleMessage m.1 m.2 = .ok nd₁ ∧ nd₁.handleAll l = .ok nd' := bind_eq_ok

/-- Handling two batches in one go is handling one after the other. -/
theorem handleAll_append {nd : Node} (l l' : List (NodeId × Message)) :
    nd.handleAll (l ++ l') = nd.handleAll l >>= fun nd₁ => nd₁.handleAll l' :=
  List.foldlM_append

/-- The last message of a batch is handled in the state that the others lead to. -/
theorem handleAll_concat {nd nd' : Node} {m : NodeId × Message} {l : List (NodeId × Message)} :
    nd.handleAll (l ++ [m]) = .ok nd' ↔
      ∃ nd₁, nd.handleAll l = .ok nd₁ ∧ nd₁.handleMessage m.1 m.2 = .ok nd' := by
  rw [handleAll_append, bind_eq_ok]
  refine exists_congr fun nd₁ => and_congr_right fun _ => ?_
  rw [handleAll_cons]
  constructor
  · rintro ⟨nd₂, h1, h2⟩
    cases h2
    exact h1
  · exact fun h => ⟨nd', h, rfl⟩

/-- The votes that a node in its term has when the messages `l` are handled. -/
def votesWith (nd : Node) (l : List (NodeId × Message)) : Finset NodeId :=
  nd.votes ∪ ((l.filter fun m => m.2.grantsVote nd.currentTerm).map Prod.fst).toFinset

/-- The votes that the messages `l` grant complete a majority. -/
def WinsWith (nd : Node) (l : List (NodeId × Message)) : Prop :=
  (∃ m ∈ l, m.2.grantsVote nd.currentTerm = true) ∧ nd.Majority (nd.votesWith l)

/-- A granted vote of the term adds its sender to the votes. -/
theorem votesWith_concat_of_grants {nd : Node} {l : List (NodeId × Message)} {m : NodeId × Message}
    (h : m.2.grantsVote nd.currentTerm = true) :
    nd.votesWith (l ++ [m]) = insert m.1 (nd.votesWith l) := by
  have hone : [m].filter (fun m => m.2.grantsVote nd.currentTerm) = [m] := by simp [h]
  rw [votesWith, votesWith, List.filter_append, hone, List.map_append, List.toFinset_append,
    ← Finset.union_assoc, Finset.union_comm]
  rfl

/-- Any other message leaves the votes as they are. -/
theorem votesWith_concat_of_not_grants {nd : Node} {l : List (NodeId × Message)}
    {m : NodeId × Message} (h : ¬ m.2.grantsVote nd.currentTerm = true) :
    nd.votesWith (l ++ [m]) = nd.votesWith l := by
  simp [votesWith, List.filter_append, h]

/-- More votes are still a majority. -/
theorem Majority.mono {nd : Node} {votes votes' : Finset NodeId} (h : nd.Majority votes)
    (hsub : votes ⊆ votes') : nd.Majority votes' :=
  Nat.le_trans h (Nat.mul_le_mul_right 2 (Finset.card_le_card hsub))

/-- Votes are not lost to later messages. -/
theorem votesWith_subset_append (nd : Node) (l l' : List (NodeId × Message)) :
    nd.votesWith l ⊆ nd.votesWith (l ++ l') := by
  rw [votesWith, votesWith, List.filter_append, List.map_append, List.toFinset_append]
  exact Finset.union_subset_union_right Finset.subset_union_left

/-- A batch that wins the election wins it with any messages behind it. -/
theorem WinsWith.append {nd : Node} {l : List (NodeId × Message)} (h : nd.WinsWith l)
    (l' : List (NodeId × Message)) : nd.WinsWith (l ++ l') := by
  obtain ⟨⟨m, hm, hgrant⟩, hmaj⟩ := h
  exact ⟨⟨m, List.mem_append_left _ hm, hgrant⟩, hmaj.mono (votesWith_subset_append nd l l')⟩

/-- The election is won by the messages so far, or by the last one if it is a granted vote. -/
theorem winsWith_concat {nd : Node} {l : List (NodeId × Message)} {m : NodeId × Message} :
    nd.WinsWith (l ++ [m]) ↔ nd.WinsWith l ∨
      m.2.grantsVote nd.currentTerm = true ∧ nd.Majority (nd.votesWith (l ++ [m])) := by
  by_cases hm : m.2.grantsVote nd.currentTerm = true
  · constructor
    · exact fun h => .inr ⟨hm, h.2⟩
    · rintro (h | h)
      · exact h.append [m]
      · exact ⟨⟨m, List.mem_append_right _ List.mem_cons_self, hm⟩, h.2⟩
  · simp only [WinsWith, votesWith_concat_of_not_grants hm, List.mem_append, List.mem_singleton,
      or_and_right, exists_or, exists_eq_left, hm, Bool.false_eq_true, false_and, or_false]

/-- Votes that do not win complete no majority. -/
theorem not_majority_votesWith {nd : Node} {l : List (NodeId × Message)} (hopen : ¬ nd.WinsWith l)
    (hvotes : ¬ nd.Majority nd.votes) : ¬ nd.Majority (nd.votesWith l) := by
  intro hmaj
  by_cases hone : ∃ m ∈ l, m.2.grantsVote nd.currentTerm = true
  · exact hopen ⟨hone, hmaj⟩
  · have hnone : l.filter (fun m => m.2.grantsVote nd.currentTerm) = [] :=
      List.filter_eq_nil_iff.2 fun m hm hgrant => hone ⟨m, hm, hgrant⟩
    rw [votesWith, hnone] at hmaj
    exact hvotes (by simpa using hmaj)

/-- A follower is a follower after any batch. -/
theorem follower_batch {nd nd' : Node} {l : List (NodeId × Message)}
    (h : nd.handleAll l = .ok nd') (hr : nd.role = .kFollower) : nd'.role = .kFollower := by
  induction l generalizing nd with
  | nil =>
    cases h
    exact hr
  | cons m l ih =>
    obtain ⟨nd₁, h1, h2⟩ := handleAll_cons.1 h
    refine ih h2 ?_
    rcases Nat.lt_or_ge nd.currentTerm m.2.term with hlt | hle
    · exact role_of_newTerm h1 hlt
    · exact ((role_of_le h1 hle).2 (by rw [hr]; exact nofun)).trans hr

/-- Whatever the role, a message of a higher term in a batch makes a follower. -/
theorem newTerm_batch {nd nd' : Node} {l : List (NodeId × Message)}
    (h : nd.handleAll l = .ok nd') {m : NodeId × Message} (hm : m ∈ l)
    (hlt : nd.currentTerm < m.2.term) : nd'.role = .kFollower := by
  induction l generalizing nd with
  | nil => cases hm
  | cons m' l ih =>
    obtain ⟨nd₁, h1, h2⟩ := handleAll_cons.1 h
    rcases Nat.lt_or_ge nd.currentTerm m'.2.term with hlt' | hle
    · exact follower_batch h2 (role_of_newTerm h1 hlt')
    · rcases List.mem_cons.1 hm with rfl | hm
      · exact absurd hlt (Nat.not_lt_of_le hle)
      · exact ih h2 hm (by rw [(role_of_le h1 hle).1]; exact hlt)

/-- A leader keeps office and term through a batch that holds no newer term. -/
theorem leader_batch {nd nd' : Node} {l : List (NodeId × Message)}
    (h : nd.handleAll l = .ok nd') (hr : nd.role = .kLeader)
    (hle : ∀ m ∈ l, m.2.term ≤ nd.currentTerm) :
    nd'.role = .kLeader ∧ nd'.currentTerm = nd.currentTerm := by
  induction l generalizing nd with
  | nil =>
    cases h
    exact ⟨hr, rfl⟩
  | cons m l ih =>
    obtain ⟨nd₁, h1, h2⟩ := handleAll_cons.1 h
    obtain ⟨ht, hrole⟩ := role_of_le h1 (hle m List.mem_cons_self)
    obtain ⟨hr', ht'⟩ := ih h2 ((hrole (by rw [hr]; exact nofun)).trans hr)
      (fun m' hm' => ht ▸ hle m' (List.mem_cons_of_mem _ hm'))
    exact ⟨hr', ht'.trans ht⟩

/-- The votes of a candidate are those of its candidate state. -/
theorem votes_of_some {nd : Node} {cs : CandidateState} (h : nd.candidateState = some cs) :
    nd.votes = cs.votes := by
  rw [votes, h]
  rfl

/-- What the candidate `nd` has become as `nd'` by the messages `l`: it counts the votes in them
until they complete a majority. -/
structure Counted (nd : Node) (l : List (NodeId × Message)) (nd' : Node) : Prop where
  channels : nd'.channels = nd.channels
  currentTerm : nd'.currentTerm = nd.currentTerm
  wins : nd.WinsWith l → nd'.role = .kLeader
  stands : ¬ nd.WinsWith l → nd'.role = .kCandidate ∧ nd'.votes = nd.votesWith l

/-- What a majority is does not change over a counted batch. -/
theorem Counted.majority {nd nd' : Node} {l : List (NodeId × Message)} (h : Counted nd l nd')
    (votes : Finset NodeId) : nd'.Majority votes ↔ nd.Majority votes := by
  rw [Majority, Majority, totalNodes, totalNodes, h.channels]

/-- The next message of no higher term. -/
theorem Counted.message {nd nd₁ nd' : Node} {l : List (NodeId × Message)} {m : NodeId × Message}
    (h : Counted nd l nd₁) (hle : m.2.term ≤ nd.currentTerm)
    (hm : nd₁.handleMessage m.1 m.2 = .ok nd') : Counted nd (l ++ [m]) nd' := by
  rw [← h.currentTerm] at hle
  by_cases hw : nd.WinsWith l
  · -- it has won already, and stays the leader
    have hrole := h.wins hw
    obtain ⟨ht, hkeeps⟩ := role_of_le hm hle
    have hrole' : nd'.role = .kLeader := (hkeeps (by rw [hrole]; exact nofun)).trans hrole
    exact ⟨(grows_handleMessage hm).channels.trans h.channels, ht.trans h.currentTerm,
      fun _ => hrole', fun hno => absurd (hw.append [m]) hno⟩
  · obtain ⟨hrole, hvotes⟩ := h.stands hw
    have hoffice := handleMessage_office hm
    rw [observeTerm_eq_self hle] at hoffice
    have hcount : ∀ cs, nd₁.candidateState = some cs → m.2.grantsVote nd₁.currentTerm = true →
        insert m.1 cs.votes = nd.votesWith (l ++ [m]) := by
      intro cs hcs hgrant
      rw [votesWith_concat_of_grants (h.currentTerm ▸ hgrant), ← hvotes, votes_of_some hcs]
    cases hoffice with
    | same hvote _ hs =>
      have hno : ¬ m.2.grantsVote nd.currentTerm = true :=
        fun hgrant => hvote ⟨hrole, h.currentTerm ▸ hgrant⟩
      refine ⟨hs.channels.trans h.channels, hs.currentTerm.trans h.currentTerm, fun hwins => ?_,
        fun _ => ⟨hs.role.trans hrole, ?_⟩⟩
      · rcases winsWith_concat.1 hwins with hwins | hwins
        · exact absurd hwins hw
        · exact absurd hwins.1 hno
      · rw [votesWith_concat_of_not_grants hno, ← hvotes, votes, votes, hs.candidateState]
    | vote cs _ hgrant hcs hmin hs =>
      rw [h.majority, hcount cs hcs hgrant] at hmin
      refine ⟨hs.channels.trans h.channels, hs.currentTerm.trans h.currentTerm, fun hwins => ?_,
        fun _ => ⟨hs.role.trans hrole, ?_⟩⟩
      · rcases winsWith_concat.1 hwins with hwins | hwins
        · exact absurd hwins hw
        · exact absurd hwins.2 hmin
      · rw [votes_of_some hs.candidateState]
        exact hcount cs hcs hgrant
    | win cs _ hgrant hcs hmaj hs =>
      rw [h.majority, hcount cs hcs hgrant] at hmaj
      exact ⟨hs.channels.trans h.channels, hs.currentTerm.trans h.currentTerm, fun _ => hs.role,
        fun hno => absurd (winsWith_concat.2 (.inr ⟨h.currentTerm ▸ hgrant, hmaj⟩)) hno⟩
    | matched _ _ hleader => exact nomatch hleader.symm.trans hrole

/-- A candidate counts its votes through a batch that holds no newer term. -/
theorem candidate_batch {nd nd' : Node} {l : List (NodeId × Message)}
    (h : nd.handleAll l = .ok nd') (hr : nd.role = .kCandidate)
    (hle : ∀ m ∈ l, m.2.term ≤ nd.currentTerm) : Counted nd l nd' := by
  induction l using List.reverseRecOn generalizing nd' with
  | nil =>
    cases h
    exact ⟨rfl, rfl, fun hw => (nomatch hw.1), fun _ => ⟨hr, by simp [votesWith]⟩⟩
  | append_singleton l m ih =>
    obtain ⟨nd₁, h1, h2⟩ := handleAll_concat.1 h
    have hcounted := ih h1 fun m' hm' => hle m' (List.mem_append_left _ hm')
    exact hcounted.message (hle m (List.mem_append_right _ List.mem_cons_self)) h2

/-- A batch makes a leader of a candidate whose votes it completes, if it brings no higher term. -/
theorem role_after_batch {nd nd' : Node} {l : List (NodeId × Message)}
    (h : nd.handleAll l = .ok nd') (hr : nd.role ≠ .kLeader) :
    nd'.role = .kLeader ↔ nd.role = .kCandidate ∧ (∀ m ∈ l, m.2.term ≤ nd.currentTerm) ∧
      nd.WinsWith l := by
  constructor
  · intro hleader
    have hle : ∀ m ∈ l, m.2.term ≤ nd.currentTerm := by
      intro m hm
      by_contra hlt
      exact nomatch hleader.symm.trans (newTerm_batch h hm (Nat.lt_of_not_le hlt))
    cases hrole : nd.role with
    | kLeader => exact absurd hrole hr
    | kFollower => exact nomatch hleader.symm.trans (follower_batch h hrole)
    | kCandidate =>
      refine ⟨rfl, hle, ?_⟩
      by_contra hw
      exact nomatch hleader.symm.trans ((candidate_batch h hrole hle).stands hw).1
  · rintro ⟨hrole, hle, hw⟩
    exact (candidate_batch h hrole hle).wins hw

/-! ## One tick -/

/-- What a tick does before it handles the inbox keeps the office. -/
theorem beginTick_office {nd nd' : Node} (h : nd.beginTick = .ok nd') : SameOffice nd nd' := by
  obtain ⟨nd₁, h1, h2⟩ := bind_eq_ok.1 h
  have hcore := (moves_handleGetPersistentCommandRequests (z := {}) (g := fun _ _ => True) h1).2.1
  refine (sameOffice_core hcore).trans ?_
  split at h2
  · rcases commitIfPossible_ok h2 with rfl | ⟨ls, id, -, -, rfl⟩
    · exact .refl _
    · exact (quiet_foldl_resolve _ nd₁).sameOffice.trans ⟨rfl, rfl, rfl, rfl, rfl⟩
  · cases h2
    exact .refl _

/-- The node in its tick when it has handled the messages `l`. -/
def tickUpTo (nd : Node) (l : List (NodeId × Message)) : Except Fault Node :=
  nd.beginTick >>= fun nd => { nd with incoming := {} }.handleAll l

/-- It has begun its tick in the same role, and then has handled the messages. -/
theorem tickUpTo_ok {nd nd' : Node} {l : List (NodeId × Message)} (h : nd.tickUpTo l = .ok nd') :
    ∃ nd₁, SameOffice nd nd₁ ∧ nd₁.handleAll l = .ok nd' := by
  obtain ⟨nd₁, h1, h2⟩ := bind_eq_ok.1 h
  exact ⟨{ nd₁ with incoming := {} }, (beginTick_office h1).trans ⟨rfl, rfl, rfl, rfl, rfl⟩, h2⟩

/-- A tick that has handled part of the inbox goes on with the rest. -/
theorem tickUpTo_append (nd : Node) (l l' : List (NodeId × Message)) :
    nd.tickUpTo (l ++ l') = nd.tickUpTo l >>= fun nd₁ => nd₁.handleAll l' := by
  unfold tickUpTo
  rw [bind_assoc]
  exact congrArg _ (funext fun nd₁ => handleAll_append l l')

/-- A tick handles the whole inbox and then acts on the role it had before. -/
theorem tick_eq_tickUpTo (nd : Node) (expired : Bool) :
    nd.tick expired =
      nd.tickUpTo nd.incoming.messages >>= fun x => x.endTick (nd.role = .kLeader) expired := by
  rw [tick_eq, tickUpTo, bind_assoc]
  cases hb : nd.beginTick with
  | error e => rfl
  | ok nd₁ =>
    change nd₁.handleIncomingMessages >>= _ = _
    rw [← (beginTick_office hb).role, ← beginTick_incoming hb]
    rfl

/-- Whether a batch wins the election depends on the office alone. -/
theorem SameOffice.winsWith {nd nd' : Node} (h : SameOffice nd nd') (l : List (NodeId × Message)) :
    nd'.WinsWith l ↔ nd.WinsWith l := by
  rw [WinsWith, WinsWith, Majority, Majority, totalNodes, totalNodes, votesWith, votesWith, votes,
    votes, h.channels, h.currentTerm, h.candidateState]

/-- The end of a leader's tick leaves it in its term. -/
theorem finishTickLeader_currentTerm {nd nd' : Node} (h : nd.finishTickLeader = .ok nd') :
    nd'.currentTerm = nd.currentTerm := by
  unfold finishTickLeader at h
  split at h
  · next hr =>
    obtain ⟨nd₁, h1, h2⟩ := bind_eq_ok.1 h
    cases h2
    obtain ⟨l, rfl, -⟩ := sendAppendEntriesToAll_ok hr h1
    have loop : ∀ (commands : List (Command × PromiseId)) (nd : Node),
        (commands.foldl addNewCommand nd).currentTerm = nd.currentTerm := by
      intro commands
      induction commands with
      | nil => exact fun _ => rfl
      | cons command commands ih => exact fun nd => ih (nd.addNewCommand command)
    rw [addNewCommandsToLog, loop, sendEach_eq]
  · cases h
    rfl

/-- `BecomeCandidate` is the only end of a tick that begins a term. -/
theorem becomeCandidate_currentTerm (nd : Node) :
    nd.becomeCandidate.currentTerm = nd.currentTerm + 1 := by
  rw [becomeCandidate_eq, sendEach_eq]

/-- In its tick the node enters `BecomeCandidate` as `x`: this is what it is when it has handled the
messages, and the tick returns what `BecomeCandidate` makes of it, which is in a new term. -/
def StandsIn (nd : Node) (expired : Bool) (x : Node) : Prop :=
  nd.tickUpTo nd.incoming.messages = .ok x ∧ nd.tick expired = .ok x.becomeCandidate

/-- It does so exactly if it has not begun the tick as the leader and the timer has expired: nobody
asks for the role again. -/
theorem standsIn_iff {nd x : Node} {expired : Bool} : nd.StandsIn expired x ↔
    nd.tickUpTo nd.incoming.messages = .ok x ∧ nd.role ≠ .kLeader ∧ expired = true := by
  refine and_congr_right fun hx => ?_
  have htick : nd.tick expired = x.endTick (nd.role = .kLeader) expired := by
    rw [tick_eq_tickUpTo, hx]
    rfl
  rw [htick, endTick]
  by_cases hr : nd.role = .kLeader
  · simp only [hr, decide_true, if_true, ne_eq, not_true_eq_false, false_and, iff_false]
    intro h
    have hterm := finishTickLeader_currentTerm h
    rw [becomeCandidate_currentTerm] at hterm
    omega
  · simp only [hr, decide_false, Bool.false_eq_true, if_false, ne_eq, not_false_eq_true, true_and]
    cases expired with
    | true => exact iff_of_true rfl rfl
    | false =>
      refine iff_of_false (fun h => ?_) Bool.noConfusion
      have hterm := congrArg Node.currentTerm (Except.ok.inj h)
      rw [becomeCandidate_currentTerm] at hterm
      exact Nat.ne_of_lt (Nat.lt_succ_self _) hterm

/-- No leader stands for election in the node's tick. -/
structure KeepsOffice (nd : Node) (expired : Bool) : Prop where
  noElection : ∀ x, nd.StandsIn expired x → x.role ≠ .kLeader
  /-- Who wins at a message, with no higher term in a later one, leads when the tick returns. -/
  winner : ∀ before m after y z nd', nd.incoming.messages = before ++ m :: after →
    nd.tickUpTo before = .ok y → y.role ≠ .kLeader → y.handleMessage m.1 m.2 = .ok z →
    z.role = .kLeader → (∀ m' ∈ after, m'.2.term ≤ z.currentTerm) → nd.tick expired = .ok nd' →
    nd'.role = .kLeader ∧ nd'.currentTerm = z.currentTerm

/-- The node is a candidate whose timer has expired, and the messages that wait for it have no
higher term and complete a majority of votes. -/
def WinsExpired (nd : Node) (expired : Bool) : Prop :=
  nd.role = .kCandidate ∧ expired = true ∧
    (∀ m ∈ nd.incoming.messages, m.2.term ≤ nd.currentTerm) ∧ nd.WinsWith nd.incoming.messages

/-- The messages make a leader exactly of such a candidate. -/
theorem leads_after_messages {nd x : Node} (h : nd.tickUpTo nd.incoming.messages = .ok x)
    (hr : nd.role ≠ .kLeader) : x.role = .kLeader ↔ nd.WinsExpired true := by
  obtain ⟨nd₁, hs, hall⟩ := tickUpTo_ok h
  rw [role_after_batch hall (hs.role ▸ hr), hs.role, hs.currentTerm, hs.winsWith, WinsExpired]
  simp

/-- A leader that has been deposed in its tick is not the leader after the next message either. -/
theorem not_leader_of_deposed {nd y z : Node} {l : List (NodeId × Message)} {m : NodeId × Message}
    (h : nd.tickUpTo l = .ok y) (hr : nd.role = .kLeader) (hy : y.role ≠ .kLeader)
    (hm : y.handleMessage m.1 m.2 = .ok z) : z.role ≠ .kLeader := by
  obtain ⟨nd₁, hs, hall⟩ := tickUpTo_ok h
  rw [← hs.role] at hr
  have hfollower : y.role = .kFollower := by
    by_cases hle : ∀ m ∈ l, m.2.term ≤ nd₁.currentTerm
    · exact absurd (leader_batch hall hr hle).1 hy
    · push Not at hle
      obtain ⟨m', hm', hlt⟩ := hle
      exact newTerm_batch hall hm' hlt
  have hone : y.handleAll [m] = .ok z := handleAll_cons.2 ⟨z, hm, rfl⟩
  rw [follower_batch hone hfollower]
  exact nofun

/-- **A leader does not stand for election**, unless the timer has expired in the tick in which it
wins the office: `TickFollower` and `TickCandidate` do not ask for the role again. -/
theorem leader_keeps_office (nd : Node) (expired : Bool) :
    (¬ nd.WinsExpired expired → nd.KeepsOffice expired) ∧
      ∀ nd', nd.tick expired = .ok nd' → nd.KeepsOffice expired → ¬ nd.WinsExpired expired := by
  constructor
  · intro hopen
    refine ⟨?_, fun before m after y z nd' hmsgs hy hry hz hrz hafter htick => ?_⟩
    · intro x hstands hleader
      obtain ⟨hx, hr, rfl⟩ := standsIn_iff.1 hstands
      exact hopen ((leads_after_messages hx hr).1 hleader)
    · have hr : nd.role ≠ .kLeader := fun hr => not_leader_of_deposed hy hr hry hz hrz
      rw [tick_eq_tickUpTo] at htick
      obtain ⟨x, hx, hend⟩ := bind_eq_ok.1 htick
      have hx' := hx
      rw [hmsgs, tickUpTo_append, hy] at hx'
      obtain ⟨z', hz', hall⟩ := handleAll_cons.1 hx'
      obtain rfl : z = z' := Except.ok.inj (hz.symm.trans hz')
      obtain ⟨hleader, hterm⟩ := leader_batch hall hrz hafter
      cases expired with
      | true => exact absurd ((leads_after_messages hx hr).1 hleader) hopen
      | false =>
        simp only [hr, decide_false, endTick, finishTickFollower, Bool.false_eq_true,
          if_false] at hend
        cases hend
        exact ⟨hleader, hterm⟩
  · rintro nd' htick hkeeps hwins
    obtain ⟨hr, rfl, -⟩ := id hwins
    have hr' : nd.role ≠ .kLeader := by rw [hr]; decide
    rw [tick_eq_tickUpTo] at htick
    obtain ⟨x, hx, -⟩ := bind_eq_ok.1 htick
    refine hkeeps.noElection x (standsIn_iff.2 ⟨hx, hr', rfl⟩) ?_
    exact (leads_after_messages hx hr').2 hwins

/-- Node 1 of three stands in term 1, has its own vote and gets that of node 3. -/
def winningCandidate : Node where
  myId := 1
  channels := [1, 2, 3]
  currentTerm := 1
  votedFor := some 1
  log := [sentinel]
  candidateState := some { votes := {1} }
  role := .kCandidate
  incoming :=
    { requestVoteResponses := [(3, { currentTerm := 1, voteGranted := true, candidateTerm := 1 })] }

/-- With its timer expired it wins term 1 and is a candidate of term 2 when the tick returns. -/
theorem not_leader_keeps_office :
    (∃ nd', winningCandidate.tick true = .ok nd' ∧ nd'.role = .kCandidate ∧ nd'.currentTerm = 2) ∧
      ¬ ∀ (nd : Node) (expired : Bool), nd.KeepsOffice expired := by
  have hwins : winningCandidate.WinsExpired true :=
    ⟨rfl, rfl, by decide, ⟨_, List.mem_cons_self, rfl⟩, by decide⟩
  have hrun : (winningCandidate.tick true).toOption.any
      (fun nd' => nd'.role = .kCandidate && nd'.currentTerm = 2) = true := by decide +kernel
  obtain ⟨nd', hsome, hnd'⟩ := (Option.any_eq_true _ _).1 hrun
  simp only [Bool.and_eq_true, decide_eq_true_eq] at hnd'
  have htick : winningCandidate.tick true = .ok nd' := by
    cases h : winningCandidate.tick true with
    | error e => rw [h] at hsome; cases hsome
    | ok nd => rw [h] at hsome; cases hsome; rfl
  refine ⟨⟨nd', htick, hnd'⟩, fun hall => ?_⟩
  rw [tick_eq_tickUpTo] at htick
  obtain ⟨x, hx, -⟩ := bind_eq_ok.1 htick
  have hr : winningCandidate.role ≠ .kLeader := nofun
  exact (hall winningCandidate true).noElection x (standsIn_iff.2 ⟨hx, hr, rfl⟩)
    ((leads_after_messages hx hr).2 hwins)

end Node

end ToFTDS.Consensus
