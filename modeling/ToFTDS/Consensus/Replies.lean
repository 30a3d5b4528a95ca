import ToFTDS.Consensus.Runs

/-!
# What a leader makes of the replies

Every reply to an `AppendEntriesRequest` answers one that its receiver has sent, and a successful
one reports how far the slice of that request reaches (`ReplyNode`). `HandleAppendEntriesResponse`
looks at nothing of the reply but its term, which is at least the request's. So a leader counts
replies to the requests of its earlier terms (`staleReply` in `MatchIndex`), and lowers `next_index`
for every refusal, also for several of the same request (`outOfRange` in `NextIndex`).

The counting starts in `BecomeLeader` with an entry for every channel in both maps, and a reply
`raises` the entry of its sender in `match_index` if it reports more than was known.
-/

namespace ToFTDS.Consensus

open Run Node Cluster

/-- The events of requests and replies. -/
def Event.replication : Event → Bool
  | .answered .. => true
  | .send _ (.appendEntriesRequest _) => true
  | .send _ (.appendEntriesResponse _) => true
  | _ => false

/-- Quiet events are neither requests nor replies. -/
theorem Event.not_replication_of_quiet (e : Event) (h : e.quiet = true) :
    e.replication = false := by
  cases e <;> first | rfl | cases h

/-- How node `i` sends requests and replies, with `R c req` if `c` has sent `req` to it. -/
structure ReplyNode (R : NodeId → AppendEntriesRequest → Prop) (nd : Node) : Prop where
  /-- A leader has a leader state. -/
  leader : nd.role = .kLeader → nd.leaderState.isSome
  /-- It has sent requests in its terms as a leader only. -/
  requestTerm : ∀ {w req}, .send w (.appendEntriesRequest req) ∈ nd.history →
    req.leaderTerm ≤ nd.currentTerm
  requestRole : ∀ {w req}, .send w (.appendEntriesRequest req) ∈ nd.history →
    req.leaderTerm = nd.currentTerm → nd.role = .kLeader
  /-- It replies to requests. -/
  reply : ∀ {c resp}, .send c (.appendEntriesResponse resp) ∈ nd.history →
    ∃ req, .answered c req resp ∈ nd.history ∧ R c req ∧ resp.answers = req.leaderTerm ∧
      (resp.success = true → resp.currentTerm = req.leaderTerm ∧
        resp.matchedUntil = some (req.prevLogIndex + req.entries.length))

namespace ReplyNode

variable {R R' : NodeId → AppendEntriesRequest → Prop} {nd nd' : Node}

/-- The invariant survives more requests sent. -/
theorem mono (hR : ∀ c req, R c req → R' c req) (h : ReplyNode R nd) : ReplyNode R' nd :=
  { h with
    reply := fun hs => by
      obtain ⟨req, h1, h2, h3⟩ := h.reply hs
      exact ⟨req, h1, hR _ _ h2, h3⟩ }

/-- What has nothing to do with requests and replies keeps it. -/
theorem frame (h : ReplyNode R nd) (ht : nd'.currentTerm = nd.currentTerm)
    (hr : nd'.role = nd.role) (hls : nd.leaderState.isSome → nd'.leaderState.isSome)
    (hev : NoNew Event.replication nd nd') : ReplyNode R nd' where
  leader hr' := hls (h.leader (hr ▸ hr'))
  requestTerm hs := ht ▸ h.requestTerm (hev.mem hs rfl)
  requestRole hs ht' := hr ▸ h.requestRole (hev.mem hs rfl) (ht ▸ ht')
  reply hs := by
    obtain ⟨req, h1, h2⟩ := h.reply (hev.mem hs rfl)
    exact ⟨req, hev.isPrefix.subset h1, h2⟩

/-- In a larger term nothing has been sent yet. -/
theorem raise (h : ReplyNode R nd) (ht : nd.currentTerm < nd'.currentTerm)
    (hr : nd'.role ≠ .kLeader) (hev : NoNew Event.replication nd nd') : ReplyNode R nd' where
  leader hr' := absurd hr' hr
  requestTerm hs := Nat.le_trans (h.requestTerm (hev.mem hs rfl)) (Nat.le_of_lt ht)
  requestRole hs ht' := by
    have := h.requestTerm (hev.mem hs rfl)
    omega
  reply hs := by
    obtain ⟨req, h1, h2⟩ := h.reply (hev.mem hs rfl)
    exact ⟨req, hev.isPrefix.subset h1, h2⟩

/-- A reply is noted with its request. -/
theorem answer (h : ReplyNode R nd) {sender : NodeId} {req : AppendEntriesRequest}
    {resp : AppendEntriesResponse} (hR : R sender req) (ha : resp.answers = req.leaderTerm)
    (hs : resp.success = true → resp.currentTerm = req.leaderTerm ∧
      resp.matchedUntil = some (req.prevLogIndex + req.entries.length)) :
    ReplyNode R (nd.note [.answered sender req resp, .send sender (.appendEntriesResponse resp)])
    where
  leader := h.leader
  requestTerm := fun hs => h.requestTerm (by simpa [note] using hs)
  requestRole := fun hs => h.requestRole (by simpa [note] using hs)
  reply := fun {c resp'} hs' => by
    simp only [note, List.mem_append, List.mem_cons, reduceCtorEq, Event.send.injEq,
      Message.appendEntriesResponse.injEq, List.not_mem_nil, or_false, false_or] at hs'
    rcases hs' with hs' | ⟨rfl, rfl⟩
    · obtain ⟨req', h1, h2⟩ := h.reply hs'
      exact ⟨req', List.mem_append_left _ h1, h2⟩
    · exact ⟨req, List.mem_append_right _ List.mem_cons_self, hR, ha, hs⟩

/-- Entering `BecomeLeader` keeps the invariant. -/
theorem becomeLeader (h : ReplyNode R nd) {ls : LeaderState} :
    ReplyNode R ({ nd with
      votedFor := none
      candidateState := none
      leaderState := some ls
      role := .kLeader }.note [.becameLeader nd.currentTerm nd.log]) where
  leader _ := rfl
  requestTerm hs := h.requestTerm (by simpa [note] using hs)
  requestRole _ _ := rfl
  reply {c resp} hs := by
    have hs : .send c (.appendEntriesResponse resp) ∈ nd.history := by simpa [note] using hs
    obtain ⟨req, h1, h2⟩ := h.reply hs
    exact ⟨req, List.mem_append_left _ h1, h2⟩

/-- A request that a leader sends keeps the invariant. -/
theorem sendEntries (h : ReplyNode R nd) (hr : nd.role = .kLeader) {whom : NodeId}
    {req : AppendEntriesRequest} (hb : nd.Builds req) :
    ReplyNode R (nd.note [.send whom (.appendEntriesRequest req)]) where
  leader := h.leader
  requestTerm {w req'} hs := by
    simp only [note, List.mem_append, List.mem_singleton, Event.send.injEq,
      Message.appendEntriesRequest.injEq] at hs
    rcases hs with hs | ⟨-, rfl⟩
    · exact h.requestTerm hs
    · exact Nat.le_of_eq hb.leaderTerm
  requestRole _ _ := hr
  reply {c resp} hs := by
    have hs : .send c (.appendEntriesResponse resp) ∈ nd.history := by simpa [note] using hs
    obtain ⟨req, h1, h2⟩ := h.reply hs
    exact ⟨req, List.mem_append_left _ h1, h2⟩

end ReplyNode

/-- Member `c` has sent the request to `i`. -/
def Requested (ids : List NodeId) (nodes : NodeId → Node) (i c : NodeId)
    (req : AppendEntriesRequest) : Prop := Sent ids nodes i c (.appendEntriesRequest req)

/-- How all members send requests and replies. -/
def Replies (ids : List NodeId) (nodes : NodeId → Node) : Prop :=
  ∀ i ∈ ids, ReplyNode (Requested ids nodes i) (nodes i)

/-- Every move keeps it. -/
theorem replies_move {z : Hazard} {ids : List NodeId} {nodes : NodeId → Node} {i : NodeId}
    {nd : Node} (hI : Replies ids nodes) (h : MemberMove z ids nodes i nd) :
    Replies ids (Function.update nodes i nd) := by
  obtain ⟨hi, -, -, hm⟩ := h
  have hx := history_update (i := i) hm.later.history
  have hR : ∀ j c req, Requested ids nodes j c req →
      Requested ids (Function.update nodes i nd) j c req := fun j c req hs => hs.mono hx
  refine forall_update ?_ fun j hj => (hI j hj).mono (hR j)
  have hN := (hI i hi).mono (hR i)
  replace hR := hR i
  have hq := Event.not_replication_of_quiet
  generalize Requested ids (Function.update nodes i nd) i = R at hR hN ⊢
  generalize nodes i = nd₀ at hm hN
  cases hm with
  | chore h =>
    have h := h.quiet
    exact hN.frame h.currentTerm h.role (by rw [h.leaderState]; exact id) (h.noNew hq)
  | observe term ht => exact hN.raise ht nofun (noNew_of_history_eq rfl)
  | commit ls id hr hls =>
    have h := quiet_foldl_resolve (List.range' (nd₀.commitIndex + 1) (id - nd₀.commitIndex)) nd₀
    refine hN.frame h.currentTerm h.role ?_
      (noNew_commit (fun _ => rfl) (fun _ _ _ => rfl) _ _ _ _ _)
    change _ → Option.isSome (Node.leaderState (List.foldl _ _ _)) = true
    rw [h.leaderState]
    exact fun hls => hls
  | refuseEntries sender req resp hg hs ht hresp =>
    rw [hresp]
    exact hN.answer (hR _ _ hg) rfl nofun
  | acceptEntries sender req resp hg hs ht hprev hz hresp =>
    rw [hresp]
    refine ReplyNode.answer ?_ (hR _ _ hg) rfl fun _ => ⟨ht.symm, rfl⟩
    exact hN.frame rfl rfl id (noNew_accept (fun _ => rfl) nd₀ req)
  | refuseVote | grantVote =>
    exact hN.frame rfl rfl id (noNew_note (by simp [Event.replication]))
  | refused | matched =>
    exact hN.frame rfl rfl (fun _ => rfl) (noNew_of_history_eq rfl)
  | countVote => exact hN.frame rfl rfl id (noNew_of_history_eq rfl)
  | becomeLeader cs hr => exact hN.becomeLeader
  | sendEntries whom req hr hw hb => exact hN.sendEntries hr hb
  | append command rest =>
    exact hN.frame rfl rfl id (noNew_addNewCommand (fun _ => rfl) (fun _ _ _ => rfl) _ command)
  | stand =>
    exact hN.raise (Nat.lt_succ_self _) nofun (noNew_note (by simp [Event.replication]))

/-- There are no requests and no replies at the start. -/
theorem replies_init (members : Members) : Replies members.ids (initialNode members) := by
  intro i hi
  exact ⟨nofun, nofun, nofun, nofun⟩

/-! ## Where the counting starts -/

/-- Setting `match_index` to 0 for each member leaves no other value. -/
theorem foldl_initial_matchIndex (l : List NodeId) (last : Nat) (f : NodeId) :
    ∀ ls : LeaderState, ls.matchIndex.at f = 0 →
      (l.foldl (fun ls id => { nextIndex := ls.nextIndex.set id last,
                               matchIndex := ls.matchIndex.set id 0 }) ls).matchIndex.at f = 0 := by
  induction l with
  | nil => exact fun _ h => h
  | cons id l ih =>
    intro ls h
    refine ih _ ?_
    dsimp only
    rw [IndexMap.at_set_eq]
    split
    · rfl
    · exact h

@[simp] theorem initialLeaderState_matchIndex (nd : Node) (f : NodeId) :
    nd.initialLeaderState.matchIndex.at f = 0 :=
  foldl_initial_matchIndex nd.channels _ f {} rfl

/-- The keys of a loop that sets both maps at every id of a list. -/
theorem foldl_initial_keys (l : List NodeId) (last : Nat) (ls : LeaderState) :
    let ls' := l.foldl (fun ls id => { nextIndex := ls.nextIndex.set id last,
                                       matchIndex := ls.matchIndex.set id 0 }) ls
    ls'.nextIndex.keys = ls.nextIndex.keys ∪ l.toFinset ∧
      ls'.matchIndex.keys = ls.matchIndex.keys ∪ l.toFinset := by
  induction l generalizing ls with
  | nil => simp
  | cons id l ih =>
    obtain ⟨h1, h2⟩ := ih
      { nextIndex := ls.nextIndex.set id last, matchIndex := ls.matchIndex.set id 0 }
    constructor
    · rw [List.foldl_cons, h1]
      simp [IndexMap.keys_set]
    · rw [List.foldl_cons, h2]
      simp [IndexMap.keys_set]

/-- `BecomeLeader` has an entry for every channel in both maps. -/
theorem initialLeaderState_keys (nd : Node) :
    nd.initialLeaderState.nextIndex.keys = nd.channels.toFinset ∧
      nd.initialLeaderState.matchIndex.keys = nd.channels.toFinset := by
  obtain ⟨h1, h2⟩ := foldl_initial_keys nd.channels (nd.getLastLogIndex + 1) {}
  exact ⟨h1.trans (by simp), h2.trans (by simp)⟩

/-- A new leader starts with the end of its log for every member. -/
theorem initialLeaderState_nextIndex (nd : Node) {f : NodeId} (hf : f ∈ nd.channels) :
    nd.initialLeaderState.nextIndex.at f = nd.getLastLogIndex + 1 := by
  have loop : ∀ (l : List NodeId) (ls : LeaderState),
      f ∈ l ∨ ls.nextIndex.at f = nd.getLastLogIndex + 1 →
      (l.foldl (fun ls id => { nextIndex := ls.nextIndex.set id (nd.getLastLogIndex + 1),
                               matchIndex := ls.matchIndex.set id 0 }) ls).nextIndex.at f
        = nd.getLastLogIndex + 1 := by
    intro l
    induction l with
    | nil =>
      rintro ls (h | h)
      · cases h
      · exact h
    | cons id l ih =>
      intro ls h
      refine ih _ ?_
      dsimp only
      rw [IndexMap.at_set_eq]
      split
      · exact .inr rfl
      · next hne =>
        refine h.imp (fun h => ?_) fun h => h
        exact (List.mem_cons.1 h).resolve_left hne
  exact loop nd.channels {} (.inl hf)

/-- A successful reply that reports more of `sender` than `match_index` has. -/
def AppendEntriesResponse.raises (resp : AppendEntriesResponse) (ls : LeaderState)
    (sender : NodeId) : Bool :=
  resp.success && resp.matchedUntil.any (ls.matchIndex.at sender < ·)

/-- A reply that does not raise `match_index` reports what is known. -/
theorem AppendEntriesResponse.le_of_not_raises {resp : AppendEntriesResponse} {ls : LeaderState}
    {sender : NodeId} {m : Nat} (h : resp.raises ls sender = false) (hs : resp.success = true)
    (hm : resp.matchedUntil = some m) : m ≤ ls.matchIndex.at sender := by
  simpa [raises, hs, hm] using h

end ToFTDS.Consensus
