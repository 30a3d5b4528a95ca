import ToFTDS.Consensus.Batches
import ToFTDS.Worker.Wire

/-!
# Messages from outside the cluster

`SendAnnotatedMessage` takes the sender's id from the message as it is (`worker.cpp:113`), and
`HandleIncomingMessages` uses it without a check: the one that it makes has no consequence
(`node.cpp:323`, `331`). For a request it looks the sender's channel up (`node.cpp:326`, `334`),
which throws, and the messages that wait behind the request are gone. It counts the vote in a
response, and notes the index in one, whoever the sender is.

`outsiders_harmless` says exactly which messages of outsiders do no harm in a tick.
-/

namespace ToFTDS.Consensus

open Node Worker.CommunicationImpl

namespace Message

/-- The message is answered on the channel of its sender. -/
def isRequest : Message → Bool
  | .appendEntriesRequest _ | .requestVoteRequest _ => true
  | .appendEntriesResponse _ | .requestVoteResponse _ => false

end Message

namespace Node

/-! ## Who throws -/

/-- `channels_.at` throws at the requests of outsiders, and nowhere else. -/
theorem handleMessage_unknownChannel {nd : Node} {m : NodeId × Message} :
    nd.handleMessage m.1 m.2 = .error .unknownChannel ↔
      m.1 ∉ nd.channels ∧ m.2.isRequest = true := by
  obtain ⟨sender, msg⟩ := m
  cases msg with
  | appendEntriesRequest req | requestVoteRequest req =>
    by_cases hs : sender ∈ nd.channels <;> simp [handleMessage, hs, Message.isRequest]
  | appendEntriesResponse resp =>
    refine iff_of_false (fun h => ?_) (by simp [Message.isRequest])
    cases (handleAppendEntriesResponse_error h).1
  | requestVoteResponse resp =>
    refine iff_of_false (fun h => ?_) (by simp [Message.isRequest])
    rcases handleRequestVoteResponse_error h with ⟨he, -⟩ | he <;> cases he

/-- Beginning a tick looks up no channel. -/
theorem beginTick_ne_unknownChannel (nd : Node) : nd.beginTick ≠ .error .unknownChannel := by
  intro h
  rcases bind_eq_error.1 h with h | ⟨nd₁, -, h⟩
  · exact nomatch handleGetPersistentCommandRequests_error h
  · split at h
    · exact nomatch (commitIfPossible_error h).1
    · cases h

/-- Ending a tick sends to channels only. -/
theorem endTick_ne_unknownChannel (nd : Node) (asLeader expired : Bool) :
    nd.endTick asLeader expired ≠ .error .unknownChannel := by
  intro h
  unfold endTick at h
  split at h
  · unfold finishTickLeader at h
    split at h
    · rcases bind_eq_error.1 h with h | ⟨nd₁, -, h⟩
      · rcases sendAppendEntriesToAll_error h with ⟨he, -⟩ | he <;> cases he
      · cases h
    · cases h
  · cases h

/-- Without requests of outsiders the messages are handled to the end of the list. -/
theorem tickUpTo_ne_unknownChannel {nd : Node} {l : List (NodeId × Message)}
    (h : ∀ m ∈ l, m.1 ∉ nd.channels → m.2.isRequest = false) :
    nd.tickUpTo l ≠ .error .unknownChannel := by
  intro heq
  rcases bind_eq_error.1 heq with heq | ⟨nd₁, h1, heq⟩
  · exact nd.beginTick_ne_unknownChannel heq
  · have hch : { nd₁ with incoming := {} }.channels = nd.channels := (beginTick_office h1).channels
    refine foldlM_ne_error (I := fun nd' : Node => nd'.channels = nd.channels)
      (fun nd' m hm hch heq => ?_) (fun nd' m nd'' hch hok => ?_) hch heq
    · obtain ⟨hout, hreq⟩ := handleMessage_unknownChannel.1 heq
      rw [h m hm (hch ▸ hout)] at hreq
      cases hreq
    · exact (grows_handleMessage hok).channels.trans hch

/-! ## What has been counted when a message is reached -/

/-- The index that a leader has noted for `id`, and 0, which no commit needs, where it has noted
none. -/
def matchedAt (nd : Node) (id : NodeId) : Nat :=
  ((nd.leaderState.map LeaderState.matchIndex).map (·.at id)).getD 0

/-- The noted index is part of the office. -/
theorem SameOffice.matchedAt {nd nd' : Node} (h : SameOffice nd nd') (id : NodeId) :
    nd'.matchedAt id = nd.matchedAt id := by
  rw [Node.matchedAt, Node.matchedAt, h.matchIndex]

/-- In a tick a candidate is one until a message of a higher term or a majority of votes. -/
theorem stands_upTo {nd y : Node} {l : List (NodeId × Message)} (h : nd.tickUpTo l = .ok y) :
    y.role = .kCandidate ↔
      nd.role = .kCandidate ∧ (∀ m ∈ l, m.2.term ≤ nd.currentTerm) ∧ ¬ nd.WinsWith l := by
  obtain ⟨nd₁, hs, hall⟩ := tickUpTo_ok h
  rw [← hs.role, ← hs.currentTerm, ← hs.winsWith]
  constructor
  · intro hr
    have hle : ∀ m ∈ l, m.2.term ≤ nd₁.currentTerm := by
      intro m hm
      by_contra hlt
      exact nomatch hr.symm.trans (newTerm_batch hall hm (Nat.lt_of_not_le hlt))
    cases hrole : nd₁.role with
    | kLeader => exact nomatch hr.symm.trans (leader_batch hall hrole hle).1
    | kFollower => exact nomatch hr.symm.trans (follower_batch hall hrole)
    | kCandidate =>
      refine ⟨rfl, hle, fun hw => ?_⟩
      exact nomatch hr.symm.trans ((candidate_batch hall hrole hle).wins hw)
  · rintro ⟨hrole, hle, hw⟩
    exact ((candidate_batch hall hrole hle).stands hw).1

/-- What it has counted by then. -/
theorem votes_upTo {nd y : Node} {l : List (NodeId × Message)} (h : nd.tickUpTo l = .ok y)
    (hr : y.role = .kCandidate) :
    y.channels = nd.channels ∧ y.currentTerm = nd.currentTerm ∧ y.votes = nd.votesWith l := by
  obtain ⟨hrole, hle, hw⟩ := (stands_upTo h).1 hr
  obtain ⟨nd₁, hs, hall⟩ := tickUpTo_ok h
  rw [← hs.role] at hrole
  rw [← hs.currentTerm] at hle
  rw [← hs.winsWith] at hw
  obtain ⟨hch, ht, -, hopen⟩ := candidate_batch hall hrole hle
  refine ⟨hch.trans hs.channels, ht.trans hs.currentTerm, (hopen hw).2.trans ?_⟩
  rw [votesWith, votesWith, votes, votes, hs.currentTerm, hs.candidateState]

/-- A leader is one until a message of a higher term; new leaders come from votes only. -/
theorem leads_upTo {nd y : Node} {l : List (NodeId × Message)} (h : nd.tickUpTo l = .ok y)
    (hno : ∀ m ∈ l, m.2.grantsVote nd.currentTerm = false) :
    y.role = .kLeader ↔ nd.role = .kLeader ∧ ∀ m ∈ l, m.2.term ≤ nd.currentTerm := by
  obtain ⟨nd₁, hs, hall⟩ := tickUpTo_ok h
  rw [← hs.role, ← hs.currentTerm]
  constructor
  · intro hr
    rcases eq_or_ne nd₁.role .kLeader with hrole | hrole
    · refine ⟨hrole, fun m hm => ?_⟩
      by_contra hlt
      exact nomatch hr.symm.trans (newTerm_batch hall hm (Nat.lt_of_not_le hlt))
    · obtain ⟨-, -, ⟨m, hm, hgrant⟩, -⟩ := (role_after_batch hall hrole).1 hr
      rw [hs.currentTerm, hno m hm] at hgrant
      cases hgrant
  · exact fun h => (leader_batch hall h.1 h.2).1

/-- A leader raises the index of a sender only, to what it has sent. -/
theorem matchedAt_message {nd nd' : Node} {m : NodeId × Message}
    (h : nd.handleMessage m.1 m.2 = .ok nd') (hr : nd.role = .kLeader)
    (hle : m.2.term ≤ nd.currentTerm) (id : NodeId) :
    nd.matchedAt id ≤ nd'.matchedAt id ∧ (nd.matchedAt id < nd'.matchedAt id →
      m.1 = id ∧ m.2.matchedUntil = some (nd'.matchedAt id)) := by
  have hoffice := handleMessage_office h
  rw [observeTerm_eq_self hle] at hoffice
  cases hoffice with
  | same _ _ h =>
    rw [h.matchedAt]
    exact ⟨Nat.le_refl _, fun hlt => absurd hlt (Nat.lt_irrefl _)⟩
  | vote _ hrole | win _ hrole => exact nomatch hrole.symm.trans hr
  | matched ls k _ hk hls h =>
    have hbefore : nd.matchedAt id = ls.matchIndex.at id := by rw [matchedAt, hls]; rfl
    have hafter : nd'.matchedAt id =
        if id = m.1 then max (ls.matchIndex.at m.1) k else ls.matchIndex.at id := by
      rw [h.matchedAt, matchedAt, ← IndexMap.at_set_eq]
      rfl
    rw [hbefore, hafter]
    rcases eq_or_ne id m.1 with rfl | hne
    · rw [if_pos rfl]
      refine ⟨Nat.le_max_left _ _, fun hlt => ⟨rfl, ?_⟩⟩
      rw [hk, Nat.max_eq_right]
      omega
    · rw [if_neg hne]
      exact ⟨Nat.le_refl _, fun hlt => absurd hlt (Nat.lt_irrefl _)⟩

/-- A leader's noted index grows over a batch of its term, and only to an index that the node itself
reports. -/
theorem matchedAt_batch {nd nd' : Node} {l : List (NodeId × Message)}
    (h : nd.handleAll l = .ok nd') (hr : nd.role = .kLeader)
    (hle : ∀ m ∈ l, m.2.term ≤ nd.currentTerm) (id : NodeId) :
    nd.matchedAt id ≤ nd'.matchedAt id ∧ (nd.matchedAt id < nd'.matchedAt id →
      ∃ m ∈ l, m.1 = id ∧ m.2.matchedUntil = some (nd'.matchedAt id)) := by
  induction l generalizing nd with
  | nil =>
    cases h
    exact ⟨Nat.le_refl _, fun hlt => absurd hlt (Nat.lt_irrefl _)⟩
  | cons m l ih =>
    obtain ⟨nd₁, h1, h2⟩ := handleAll_cons.1 h
    obtain ⟨ht, hrole⟩ := role_of_le h1 (hle m List.mem_cons_self)
    obtain ⟨hstep, hraise⟩ := matchedAt_message h1 hr (hle m List.mem_cons_self) id
    obtain ⟨hrest, hraise'⟩ := ih h2 ((hrole (by rw [hr]; exact nofun)).trans hr)
      (fun m' hm' => ht ▸ hle m' (List.mem_cons_of_mem _ hm'))
    refine ⟨Nat.le_trans hstep hrest, fun hlt => ?_⟩
    rcases Nat.lt_or_eq_of_le hrest with hlt' | heq
    · obtain ⟨m', hm', h⟩ := hraise' hlt'
      exact ⟨m', List.mem_cons_of_mem _ hm', h⟩
    · rw [← heq] at hlt ⊢
      exact ⟨m, List.mem_cons_self, hraise hlt⟩

/-- In a tick a leader's noted index grows only to one that the node itself reports. -/
theorem matchedAt_upTo {nd y : Node} {l : List (NodeId × Message)} (h : nd.tickUpTo l = .ok y)
    (hr : nd.role = .kLeader) (hle : ∀ m ∈ l, m.2.term ≤ nd.currentTerm) (id : NodeId) :
    y.currentTerm = nd.currentTerm ∧ nd.matchedAt id ≤ y.matchedAt id ∧
      (nd.matchedAt id < y.matchedAt id →
        ∃ m ∈ l, m.1 = id ∧ m.2.matchedUntil = some (y.matchedAt id)) := by
  obtain ⟨nd₁, hs, hall⟩ := tickUpTo_ok h
  rw [← hs.role] at hr
  rw [← hs.currentTerm] at hle ⊢
  rw [← hs.matchedAt]
  exact ⟨(leader_batch hall hr hle).2, matchedAt_batch hall hr hle id⟩

/-- The votes in the inboxes are handled after all that note an index. -/
theorem messages_pairwise (inc : Incoming) (term : Nat) :
    inc.messages.Pairwise fun m m' =>
      m'.2.matchedUntil.isSome = true → m.2.grantsVote term = false := by
  have hfirst : ∀ m ∈ inc.appendEntriesRequests.map (fun m => (m.1, .appendEntriesRequest m.2)) ++
      inc.requestVoteRequests.map (fun m => (m.1, .requestVoteRequest m.2)) ++
      inc.appendEntriesResponses.map (fun m => (m.1, .appendEntriesResponse m.2)),
      Message.grantsVote term m.2 = false := by
    intro m hm
    rcases List.mem_append.1 hm with hm | hm
    · rcases List.mem_append.1 hm with hm | hm <;> obtain ⟨_, -, rfl⟩ := List.mem_map.1 hm <;> rfl
    · obtain ⟨_, -, rfl⟩ := List.mem_map.1 hm
      rfl
  have hvotes : ∀ m ∈ inc.requestVoteResponses.map (fun m => (m.1, .requestVoteResponse m.2)),
      ¬ (Message.matchedUntil m.2).isSome = true := by
    intro m hm
    obtain ⟨_, -, rfl⟩ := List.mem_map.1 hm
    exact nofun
  refine List.pairwise_append.2 ⟨?_, ?_, fun m hm _ _ _ => hfirst m hm⟩
  · exact List.pairwise_of_forall_mem_list fun m hm _ _ _ => hfirst m hm
  · exact List.pairwise_of_forall_mem_list fun _ _ m hm h => absurd h (hvotes m hm)

/-! ## What outsiders do in a tick -/

/-- What the candidate and the leader count is the same. -/
structure AddsNothing (nd nd' : Node) : Prop where
  candidateState : nd'.candidateState = nd.candidateState
  matchedAt : ∀ id, nd'.matchedAt id = nd.matchedAt id

/-- The messages of outsiders do no harm in the node's tick. -/
structure OutsidersHarmless (nd : Node) (expired : Bool) : Prop where
  /-- `channels_.at` does not throw. -/
  returns : nd.tick expired ≠ .error .unknownChannel
  /-- The loops get past every message of a member. -/
  handled : ∀ before m after, nd.incoming.messages = before ++ m :: after → m.1 ∈ nd.channels →
    nd.tickUpTo (before ++ [m]) ≠ .error .unknownChannel
  /-- Once its term is observed, the message of an outsider changes no count. -/
  uncounted : ∀ before m after y z, nd.incoming.messages = before ++ m :: after →
    m.1 ∉ nd.channels → nd.tickUpTo before = .ok y → y.handleMessage m.1 m.2 = .ok z →
    AddsNothing (y.observeTerm m.2.term) z

/-- The message `m`, which waits behind the messages `before`, is from outside, and no term up to it
is higher than the node's. -/
structure Intrudes (nd : Node) (before : List (NodeId × Message)) (m : NodeId × Message) :
    Prop where
  queued : ∃ after, nd.incoming.messages = before ++ m :: after
  outsider : m.1 ∉ nd.channels
  inTerm : ∀ m' ∈ before ++ [m], m'.2.term ≤ nd.currentTerm

/-- A request of an outsider waits. -/
def OutsiderAsks (nd : Node) : Prop :=
  ∃ m ∈ nd.incoming.messages, m.1 ∉ nd.channels ∧ m.2.isRequest = true

/-- A candidate that has not won yet gets the vote of an outsider, whose vote it has not got before
(or it has had a majority from the start). -/
def OutsiderVotes (nd : Node) : Prop :=
  ∃ before m, nd.Intrudes before m ∧ nd.role = .kCandidate ∧ ¬ nd.WinsWith before ∧
    m.2.grantsVote nd.currentTerm = true ∧ (m.1 ∉ nd.votes ∨ nd.Majority nd.votes)

/-- A leader gets an index from an outsider that is larger than the one it has noted for it. -/
def OutsiderMatches (nd : Node) : Prop :=
  ∃ before m k, nd.Intrudes before m ∧ nd.role = .kLeader ∧ m.2.matchedUntil = some k ∧
    nd.matchedAt m.1 < k

/-- The three kinds of messages of outsiders that do harm. -/
def OutsiderIntrudes (nd : Node) : Prop :=
  nd.OutsiderAsks ∨ nd.OutsiderVotes ∨ nd.OutsiderMatches

/-- A node that is not a follower after it has observed a term has had it before. -/
theorem observeTerm_of_ne_follower {nd : Node} {term : Nat}
    (h : (nd.observeTerm term).role ≠ .kFollower) :
    term ≤ nd.currentTerm ∧ nd.observeTerm term = nd := by
  rcases nd.observeTerm_cases term with h' | ⟨-, heq⟩
  · exact h'
  · rw [heq] at h
    exact absurd rfl h

/-- The noted index of a leader is read off its state. -/
theorem matchedAt_of_some {nd : Node} {ls : LeaderState} (h : nd.leaderState = some ls)
    (id : NodeId) :
    nd.matchedAt id = ls.matchIndex.at id := by
  rw [matchedAt, h]
  rfl

/-- Who keeps the office has counted nothing. -/
theorem SameOffice.addsNothing {nd nd' : Node} (h : SameOffice nd nd') : AddsNothing nd nd' :=
  ⟨h.candidateState, h.matchedAt⟩

/-- An outsider's message with no higher term up to it intrudes. -/
theorem intrudes_of_term {nd : Node} {before after : List (NodeId × Message)}
    {m : NodeId × Message} (hmsgs : nd.incoming.messages = before ++ m :: after)
    (hout : m.1 ∉ nd.channels) (hbefore : ∀ m' ∈ before, m'.2.term ≤ nd.currentTerm)
    (hm : m.2.term ≤ nd.currentTerm) : nd.Intrudes before m := by
  refine ⟨⟨after, hmsgs⟩, hout, fun m' hm' => ?_⟩
  rcases List.mem_append.1 hm' with hm' | hm'
  · exact hbefore m' hm'
  · rw [List.mem_singleton.1 hm']
    exact hm

/-- An earlier message of the same sender. -/
theorem Intrudes.earlier {nd : Node} {before after : List (NodeId × Message)}
    {m m' : NodeId × Message} (h : nd.Intrudes (before ++ m' :: after) m) (hid : m'.1 = m.1) :
    nd.Intrudes before m' := by
  obtain ⟨rest, hmsgs⟩ := h.queued
  have hsplit : nd.incoming.messages = before ++ m' :: (after ++ m :: rest) := by rw [hmsgs]; simp
  refine intrudes_of_term hsplit (hid ▸ h.outsider)
    (fun m'' hm'' => h.inTerm m'' ?_) (h.inTerm m' ?_)
  · exact List.mem_append_left _ (List.mem_append_left _ hm'')
  · exact List.mem_append_left _ (List.mem_append_right _ List.mem_cons_self)

/-- Before a message that notes an index no vote has been handled. -/
theorem no_votes_before {nd : Node} {before after : List (NodeId × Message)} {m : NodeId × Message}
    (hmsgs : nd.incoming.messages = before ++ m :: after) (hm : m.2.matchedUntil.isSome = true) :
    ∀ m' ∈ before, m'.2.grantsVote nd.currentTerm = false := by
  have hpair := messages_pairwise nd.incoming nd.currentTerm
  rw [hmsgs, List.pairwise_append] at hpair
  exact fun m' hm' => hpair.2.2 m' hm' m List.mem_cons_self hm

/-- A vote of an outsider that a candidate would count is there already, and there is
no majority. -/
theorem vote_known {nd y : Node} {before after : List (NodeId × Message)} {m : NodeId × Message}
    (hno : ¬ nd.OutsiderVotes) (hmsgs : nd.incoming.messages = before ++ m :: after)
    (hout : m.1 ∉ nd.channels) (hy : nd.tickUpTo before = .ok y)
    (hrole : (y.observeTerm m.2.term).role = .kCandidate)
    (hgrant : m.2.grantsVote (y.observeTerm m.2.term).currentTerm = true) :
    y.observeTerm m.2.term = y ∧ m.1 ∈ y.votes ∧ ¬ y.Majority y.votes := by
  obtain ⟨hle, hsame⟩ := observeTerm_of_ne_follower (by rw [hrole]; decide)
  rw [hsame] at hrole hgrant
  obtain ⟨hstand, hterms, hopen⟩ := (stands_upTo hy).1 hrole
  obtain ⟨hch, ht, hvotes⟩ := votes_upTo hy hrole
  rw [ht] at hle hgrant
  have hin : ¬ (m.1 ∉ nd.votes ∨ nd.Majority nd.votes) := fun h =>
    hno ⟨before, m, intrudes_of_term hmsgs hout hterms hle, hstand, hopen, hgrant, h⟩
  push Not at hin
  rw [hvotes, Majority, totalNodes, hch]
  exact ⟨hsame, Finset.mem_union_left _ hin.1, not_majority_votesWith hopen hin.2⟩

/-- An index of an outsider that a leader would note is not above the one that it has noted. -/
theorem index_known {nd y : Node} {before after : List (NodeId × Message)} {m : NodeId × Message}
    {k : Nat} (hno : ¬ nd.OutsiderMatches) (hmsgs : nd.incoming.messages = before ++ m :: after)
    (hout : m.1 ∉ nd.channels) (hy : nd.tickUpTo before = .ok y)
    (hrole : (y.observeTerm m.2.term).role = .kLeader) (hk : m.2.matchedUntil = some k) :
    y.observeTerm m.2.term = y ∧ k ≤ y.matchedAt m.1 := by
  obtain ⟨hle, hsame⟩ := observeTerm_of_ne_follower (by rw [hrole]; decide)
  rw [hsame] at hrole
  obtain ⟨hlead, hterms⟩ := (leads_upTo hy (no_votes_before hmsgs (by rw [hk]; rfl))).1 hrole
  obtain ⟨ht, hnoted, -⟩ := matchedAt_upTo hy hlead hterms m.1
  rw [ht] at hle
  have hnot : ¬ nd.matchedAt m.1 < k := fun hlt =>
    hno ⟨before, m, k, intrudes_of_term hmsgs hout hterms hle, hlead, hk, hlt⟩
  exact ⟨hsame, by omega⟩

/-- Otherwise the message of an outsider changes no count. -/
theorem addsNothing_of_not_intrudes {nd y z : Node} {before after : List (NodeId × Message)}
    {m : NodeId × Message} (hno : ¬ nd.OutsiderIntrudes)
    (hmsgs : nd.incoming.messages = before ++ m :: after) (hout : m.1 ∉ nd.channels)
    (hy : nd.tickUpTo before = .ok y) (hz : y.handleMessage m.1 m.2 = .ok z) :
    AddsNothing (y.observeTerm m.2.term) z := by
  have hvote := vote_known (fun h => hno (.inr (.inl h))) hmsgs hout hy
  have hindex := fun k => index_known (k := k) (fun h => hno (.inr (.inr h))) hmsgs hout hy
  cases handleMessage_office hz with
  | same _ _ h => exact h.addsNothing
  | vote cs hrole hgrant hcs hmin h =>
    obtain ⟨hsame, hmem, -⟩ := hvote hrole hgrant
    rw [hsame] at hcs h ⊢
    rw [votes_of_some hcs] at hmem
    refine ⟨?_, h.matchedAt⟩
    rw [h.candidateState, hcs]
    exact congrArg (fun votes => some (CandidateState.mk votes)) (Finset.insert_eq_of_mem hmem)
  | win cs hrole hgrant hcs hmaj h =>
    obtain ⟨hsame, hmem, hmin⟩ := hvote hrole hgrant
    rw [hsame] at hcs hmaj
    rw [votes_of_some hcs] at hmem hmin
    rw [Finset.insert_eq_of_mem hmem] at hmaj
    exact absurd hmaj hmin
  | matched ls k hrole hk hls h =>
    obtain ⟨hsame, hle⟩ := hindex k hrole hk
    rw [hsame] at hls h ⊢
    rw [matchedAt_of_some hls] at hle
    refine ⟨h.candidateState, fun id => ?_⟩
    rw [h.matchedAt, matchedAt_of_some rfl, matchedAt_of_some hls, Nat.max_eq_left hle,
      IndexMap.at_set_at]

/-- If all messages are handled, then so is each of them when those in front of it have been. -/
theorem tickUpTo_reaches {nd x : Node} (h : nd.tickUpTo nd.incoming.messages = .ok x)
    {before after : List (NodeId × Message)} {m : NodeId × Message}
    (hmsgs : nd.incoming.messages = before ++ m :: after) :
    ∃ y z, nd.tickUpTo before = .ok y ∧ y.handleMessage m.1 m.2 = .ok z := by
  rw [hmsgs, tickUpTo_append] at h
  obtain ⟨y, hy, hrest⟩ := bind_eq_ok.1 h
  obtain ⟨z, hz, -⟩ := handleAll_cons.1 hrest
  exact ⟨y, z, hy, hz⟩

/-- A tick up to some message keeps the channels. -/
theorem tickUpTo_channels {nd y : Node} {l : List (NodeId × Message)} (h : nd.tickUpTo l = .ok y) :
    y.channels = nd.channels := by
  obtain ⟨nd₁, hs, hall⟩ := tickUpTo_ok h
  rw [← hs.channels]
  clear h hs
  induction l generalizing nd₁ with
  | nil =>
    cases hall
    rfl
  | cons m l ih =>
    obtain ⟨nd₂, h1, h2⟩ := handleAll_cons.1 hall
    exact (ih nd₂ h2).trans (grows_handleMessage h1).channels

/-- If an outsider asks, not all messages are handled. -/
theorem not_outsiderAsks {nd x : Node} (h : nd.tickUpTo nd.incoming.messages = .ok x) :
    ¬ nd.OutsiderAsks := by
  rintro ⟨m, hm, hout, hreq⟩
  obtain ⟨before, after, hmsgs⟩ := List.append_of_mem hm
  obtain ⟨y, z, hy, hz⟩ := tickUpTo_reaches h hmsgs
  rw [← tickUpTo_channels hy] at hout
  exact nomatch hz.symm.trans (handleMessage_unknownChannel.2 ⟨hout, hreq⟩)

/-- A vote of an outsider that is counted changes the count, or an earlier one has changed it. -/
theorem not_outsiderVotes {nd x : Node} {expired : Bool}
    (h : nd.tickUpTo nd.incoming.messages = .ok x) (hharmless : nd.OutsidersHarmless expired) :
    ¬ nd.OutsiderVotes := by
  rintro ⟨before, m, hm, hrole, hopen, hgrant, hnew⟩
  induction hn : before.length using Nat.strong_induction_on generalizing before m with
  | _ n ih =>
    obtain ⟨after, hmsgs⟩ := hm.queued
    obtain ⟨y, z, hy, hz⟩ := tickUpTo_reaches h hmsgs
    have hterms : ∀ m' ∈ before, m'.2.term ≤ nd.currentTerm :=
      fun m' hm' => hm.inTerm m' (List.mem_append_left _ hm')
    have hstand : y.role = .kCandidate := (stands_upTo hy).2 ⟨hrole, hterms, hopen⟩
    obtain ⟨hch, ht, hvotes⟩ := votes_upTo hy hstand
    have hsame : y.observeTerm m.2.term = y :=
      observeTerm_eq_self (ht ▸ hm.inTerm m (List.mem_append_right _ List.mem_cons_self))
    have hadds := hharmless.uncounted before m after y z hmsgs hm.outsider hy hz
    have hoffice := handleMessage_office hz
    rw [hsame] at hadds hoffice
    cases hoffice with
    | same hvote => exact hvote ⟨hstand, ht ▸ hgrant⟩
    | win cs _ _ hcs _ h =>
      have hnone := h.candidateState.symm.trans (hadds.candidateState.trans hcs)
      cases hnone
    | matched _ _ hlead => exact nomatch hlead.symm.trans hstand
    | vote cs _ _ hcs hmin h =>
      have heq := h.candidateState.symm.trans (hadds.candidateState.trans hcs)
      have hinsert : insert m.1 cs.votes = cs.votes :=
        congrArg CandidateState.votes (Option.some.inj heq)
      have hmem : m.1 ∈ nd.votesWith before := by
        rw [← hvotes, votes_of_some hcs]
        exact Finset.insert_eq_self.1 hinsert
      have hmin' : ¬ nd.Majority nd.votes := by
        rw [hinsert, ← votes_of_some hcs, hvotes, Majority, totalNodes, hch] at hmin
        exact fun hmaj => hmin (hmaj.mono Finset.subset_union_left)
      -- so the outsider has voted before, and the first time its vote was new
      rcases Finset.mem_union.1 hmem with hold | hearlier
      · rcases hnew with hnew | hmaj
        · exact hnew hold
        · exact hmin' hmaj
      · obtain ⟨m', hm', hid⟩ := List.mem_map.1 (List.mem_toFinset.1 hearlier)
        obtain ⟨hm', hgrant'⟩ := List.mem_filter.1 hm'
        obtain ⟨before', after', rfl⟩ := List.append_of_mem hm'
        refine ih before'.length ?_ before' m' (hm.earlier hid) (fun hw => hopen (hw.append _))
          hgrant' (hid ▸ hnew) rfl
        rw [← hn]
        simp

/-- If outsiders are harmless, none of them raises a noted index. -/
theorem not_outsiderMatches {nd x : Node} {expired : Bool}
    (h : nd.tickUpTo nd.incoming.messages = .ok x) (hharmless : nd.OutsidersHarmless expired) :
    ¬ nd.OutsiderMatches := by
  rintro ⟨before, m, k, hm, hrole, hk, hnew⟩
  induction hn : before.length using Nat.strong_induction_on generalizing before m k with
  | _ n ih =>
    obtain ⟨after, hmsgs⟩ := hm.queued
    obtain ⟨y, z, hy, hz⟩ := tickUpTo_reaches h hmsgs
    have hterms : ∀ m' ∈ before, m'.2.term ≤ nd.currentTerm :=
      fun m' hm' => hm.inTerm m' (List.mem_append_left _ hm')
    obtain ⟨ht, hnoted, hraise⟩ := matchedAt_upTo hy hrole hterms m.1
    have hlead : y.role = .kLeader :=
      (leads_upTo hy (no_votes_before hmsgs (by rw [hk]; rfl))).2 ⟨hrole, hterms⟩
    have hsame : y.observeTerm m.2.term = y :=
      observeTerm_eq_self (ht ▸ hm.inTerm m (List.mem_append_right _ List.mem_cons_self))
    have hadds := hharmless.uncounted before m after y z hmsgs hm.outsider hy hz
    have hoffice := handleMessage_office hz
    rw [hsame] at hadds hoffice
    cases hoffice with
    | same _ hmatch => exact hmatch ⟨hlead, by rw [hk]; rfl⟩
    | vote _ hstand | win _ hstand => exact nomatch hstand.symm.trans hlead
    | matched ls k' _ hk' hls h =>
      obtain rfl : k = k' := Option.some.inj (hk.symm.trans hk')
      have hle : k ≤ y.matchedAt m.1 := by
        have hmax := hadds.matchedAt m.1
        rw [h.matchedAt, matchedAt_of_some rfl, IndexMap.at_set, ← matchedAt_of_some hls] at hmax
        omega
      -- so the outsider has sent an index before, and the first one was new
      obtain ⟨m', hm', hid, hk''⟩ := hraise (by omega)
      obtain ⟨before', after', rfl⟩ := List.append_of_mem hm'
      refine ih before'.length ?_ before' m' _ (hm.earlier hid) hk'' (by rw [hid]; omega) rfl
      rw [← hn]
      simp

/-- `CommunicationImpl::SendAnnotatedMessage` at the node, with what its local structs hold before.
A message that is accepted goes into the inboxes (`TrivialMessageSender`, `node_sender.h:15`). -/
def sendAnnotated (nd : Node) (call : Uninitialised × Communication.AnnotatedMessage) : Node :=
  match (sendAnnotatedMessage call.1 call.2).sent with
  | some (sender, msg) => nd.addMessage sender msg
  | none => nd

/-- **Messages from outside the cluster** that `SendAnnotatedMessage` accepts do no harm in a tick
of any node, unless one of them is a request, a vote that a candidate counts or an index that a
leader notes; and any of these does harm, if the handling of the messages is defined. What the tick
does after that does not matter here, nor whether a sum in it wraps. -/
theorem outsiders_harmless (nd₀ : Node)
    (calls : List (Uninitialised × Communication.AnnotatedMessage)) (expired : Bool) :
    let nd := calls.foldl sendAnnotated nd₀
    (¬ nd.OutsiderIntrudes → nd.OutsidersHarmless expired) ∧
    ((∀ e, nd.tickUpTo nd.incoming.messages = .error e → e = .unknownChannel) →
      nd.OutsidersHarmless expired → ¬ nd.OutsiderIntrudes) := by
  intro nd
  clear_value nd
  constructor
  · intro hno
    have hrequests : ∀ m ∈ nd.incoming.messages, m.1 ∉ nd.channels → m.2.isRequest = false := by
      intro m hm hout
      by_contra hreq
      exact hno (.inl ⟨m, hm, hout, by simpa using hreq⟩)
    refine ⟨fun h => ?_, fun before m after hmsgs _ => ?_, fun before m after y z => ?_⟩
    · rw [tick_eq_tickUpTo] at h
      rcases bind_eq_error.1 h with h | ⟨x, -, h⟩
      · exact tickUpTo_ne_unknownChannel hrequests h
      · exact endTick_ne_unknownChannel _ _ _ h
    · refine tickUpTo_ne_unknownChannel fun m' hm' => hrequests m' ?_
      rw [hmsgs]
      rcases List.mem_append.1 hm' with hm' | hm'
      · exact List.mem_append_left _ hm'
      · rw [List.mem_singleton.1 hm']
        exact List.mem_append_right _ List.mem_cons_self
    · exact addsNothing_of_not_intrudes hno
  · intro hdefined hharmless hintrudes
    cases hall : nd.tickUpTo nd.incoming.messages with
    | error e =>
      refine hharmless.returns ?_
      rw [tick_eq_tickUpTo, hall, hdefined e hall]
      rfl
    | ok x =>
      rcases hintrudes with h | h | h
      · exact not_outsiderAsks hall h
      · exact not_outsiderVotes hall hharmless h
      · exact not_outsiderMatches hall hharmless h

/-- What the local structs hold does not matter here. -/
def noLocals : Uninitialised where
  aeReq :=
    { leaderTerm := 0, leaderId := 0, prevLogIndex := 0, prevLogTerm := 0, entries := [],
      leaderCommit := 0 }
  rvResp := {}

/-- A heartbeat of node 9, in term 1. -/
def heartbeatOfNine : Communication.AnnotatedMessage where
  message := some (.aeReq { leaderTerm := 1, leaderId := 9 })
  senderId := 9

/-- A vote of node 9, in term 1. -/
def voteOfNine : Communication.AnnotatedMessage where
  message := some (.rvResp { currentTerm := 1, voteGranted := true, candidateTerm := 1 })
  senderId := 9

/-- At a candidate of three, the heartbeat of node 9 makes the tick throw, and the vote of node 9
makes a leader. -/
theorem not_outsiders_harmless :
    ([(noLocals, heartbeatOfNine)].foldl sendAnnotated winningCandidate).tick false =
        .error .unknownChannel ∧
      ([(noLocals, voteOfNine)].foldl sendAnnotated { winningCandidate with incoming := {} }
        |>.tick false).toOption.any (fun nd => nd.role = .kLeader) = true ∧
      ¬ ∀ (nd₀ : Node) (calls : List (Uninitialised × Communication.AnnotatedMessage))
        (expired : Bool), (calls.foldl sendAnnotated nd₀).OutsidersHarmless expired := by
  have hthrows : ([(noLocals, heartbeatOfNine)].foldl sendAnnotated winningCandidate).tick false =
      .error .unknownChannel := rfl
  refine ⟨hthrows, by decide +kernel, fun h => ?_⟩
  exact (h winningCandidate [(noLocals, heartbeatOfNine)] false).returns hthrows

end Node

end ToFTDS.Consensus
