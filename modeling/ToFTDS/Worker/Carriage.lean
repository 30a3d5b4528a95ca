import ToFTDS.Consensus.Safety
import ToFTDS.Worker.Wire

/-!
# What a node makes of messages that have come over the wire

A message arrives with the fields that count, apart from `leader_commit` (`Carries`). So what a node
does with it is what it would do with the message that was sent, up to its commit index and its own
record of the answer, and where `leader_commit` happens to be right it is exactly that
(`move_of_related`). Elections and logs do not depend on commit indices, so what every move keeps of
them if messages are delivered as they were sent is kept over the wire as well (`moves_carried`).
-/

namespace ToFTDS.Consensus

open Node Cluster Worker

/-- The message with another `leader_commit`, if it has one. -/
def Message.withCommit (c : Nat) : Message → Message
  | .appendEntriesRequest req => .appendEntriesRequest { req with leaderCommit := c }
  | msg => msg

/-- The node's own record of an answer. -/
def Event.isAnswer : Event → Bool
  | .answered .. => true
  | _ => false

end ToFTDS.Consensus

namespace ToFTDS.Worker

open Consensus Node Cluster

/-- A message has its own fields. -/
theorem SameFields.refl (m : Message) : SameFields m m := by
  cases m with
  | appendEntriesRequest req => rfl
  | appendEntriesResponse resp => exact ⟨rfl, rfl, fun _ => rfl⟩
  | requestVoteRequest req => rfl
  | requestVoteResponse resp => exact ⟨rfl, rfl, fun _ => rfl⟩

/-- `m'` has the fields of `m` that count, but for `leader_commit`. -/
def Carries (m m' : Message) : Prop := ∃ c, SameFields (m.withCommit c) m'

/-- A message with all fields that count is carried. -/
theorem Carries.of_same {m m' : Message} (h : SameFields m m') : Carries m m' := by
  cases m with
  | appendEntriesRequest req => exact ⟨req.leaderCommit, h⟩
  | _ => exact ⟨0, h⟩

/-- What arrives has the fields that count. -/
theorem carries_arrives (locals : CommunicationImpl.Uninitialised) (m : Message) :
    Carries m (arrives locals m) := by
  cases m with
  | appendEntriesRequest req => exact ⟨locals.aeReq.leaderCommit, rfl⟩
  | appendEntriesResponse resp => exact ⟨0, rfl, rfl, fun hs => (if_pos hs).symm⟩
  | requestVoteRequest req => exact ⟨0, rfl⟩
  | requestVoteResponse resp => exact ⟨0, rfl, rfl, fun hs => (if_pos hs).symm⟩

/-- With the right `leader_commit` in the receiver's struct all fields that count arrive. -/
theorem same_arrives {locals : CommunicationImpl.Uninitialised} {m : Message}
    (h : ∀ req, m = .appendEntriesRequest req → locals.aeReq.leaderCommit = req.leaderCommit) :
    SameFields m (arrives locals m) := by
  cases m with
  | appendEntriesRequest req => rw [arrives, h req rfl]; rfl
  | appendEntriesResponse resp => exact ⟨rfl, rfl, fun hs => (if_pos hs).symm⟩
  | requestVoteRequest req => rfl
  | requestVoteResponse resp => exact ⟨rfl, rfl, fun hs => (if_pos hs).symm⟩

/-! ## Which message it was -/

section
variable {m : Message}

/-- What arrives as an AppendEntriesRequest was one, with some `leader_commit`. -/
theorem Carries.appendEntriesRequest {req : AppendEntriesRequest}
    (h : Carries m (.appendEntriesRequest req)) :
    ∃ c, m = .appendEntriesRequest { req with leaderCommit := c } := by
  obtain ⟨c, h⟩ := h
  cases m with
  | appendEntriesRequest req₀ =>
    obtain rfl : { req₀ with leaderCommit := c } = req := h
    exact ⟨req₀.leaderCommit, rfl⟩
  | _ => cases h

/-- What arrives as an AppendEntriesResponse was one, with its index if it is a success. -/
theorem Carries.appendEntriesResponse {resp : AppendEntriesResponse}
    (h : Carries m (.appendEntriesResponse resp)) :
    ∃ resp₀, m = .appendEntriesResponse resp₀ ∧ resp₀.currentTerm = resp.currentTerm ∧
      resp₀.success = resp.success ∧
      (resp₀.success = true → resp₀.matchedUntil = resp.matchedUntil) := by
  obtain ⟨c, h⟩ := h
  cases m with
  | appendEntriesResponse resp₀ => exact ⟨resp₀, rfl, h⟩
  | _ => cases h

/-- What arrives as a RequestVoteRequest was this one. -/
theorem Carries.requestVoteRequest {req : RequestVoteRequest}
    (h : Carries m (.requestVoteRequest req)) : m = .requestVoteRequest req := by
  obtain ⟨c, h⟩ := h
  cases m with
  | requestVoteRequest req₀ => exact congrArg _ h
  | _ => cases h

/-- What arrives as a RequestVoteResponse was one, with its term if the vote is granted. -/
theorem Carries.requestVoteResponse {resp : RequestVoteResponse}
    (h : Carries m (.requestVoteResponse resp)) :
    ∃ resp₀, m = .requestVoteResponse resp₀ ∧ resp₀.currentTerm = resp.currentTerm ∧
      resp₀.voteGranted = resp.voteGranted ∧
      (resp₀.voteGranted = true → resp₀.candidateTerm = resp.candidateTerm) := by
  obtain ⟨c, h⟩ := h
  cases m with
  | requestVoteResponse resp₀ => exact ⟨resp₀, rfl, h⟩
  | _ => cases h

end

/-- A hazard that does not look at what the wire loses. -/
def Blind (z : Hazard) : Prop :=
  ∀ {nd sender m m'}, Carries m m' → z.handles nd sender m' = false →
    z.handles nd sender m = false

/-- Whether a leader grants a vote does not depend on what the wire loses. -/
theorem blind_votesAsLeader : Blind votesAsLeader := by
  intro nd sender m m' h hm
  cases m' with
  | requestVoteRequest req => rwa [h.requestVoteRequest]
  | appendEntriesRequest req =>
    obtain ⟨c, rfl⟩ := h.appendEntriesRequest
    rfl
  | appendEntriesResponse resp =>
    obtain ⟨resp₀, rfl, -⟩ := h.appendEntriesResponse
    rfl
  | requestVoteResponse resp =>
    obtain ⟨resp₀, rfl, -⟩ := h.requestVoteResponse
    rfl

/-- Whether a reply of an earlier term is counted does not depend on what the wire loses. -/
theorem blind_countsOldReply : Blind countsOldReply := by
  intro nd sender m m' h hm
  cases m' with
  | requestVoteRequest req => rwa [h.requestVoteRequest]
  | appendEntriesRequest req =>
    obtain ⟨c, rfl⟩ := h.appendEntriesRequest
    rfl
  | appendEntriesResponse resp =>
    obtain ⟨resp₀, rfl, hterm, hsucc, hmatched⟩ := h.appendEntriesResponse
    have hraises : ∀ ls, resp₀.raises ls sender = resp.raises ls sender := by
      intro ls
      rw [AppendEntriesResponse.raises, AppendEntriesResponse.raises, hsucc]
      cases hs : resp.success
      · rfl
      · rw [hmatched (hsucc.trans hs)]
    simpa only [countsOldReply, hterm, hraises] using hm
  | requestVoteResponse resp =>
    obtain ⟨resp₀, rfl, -⟩ := h.requestVoteResponse
    rfl

/-- Two blind hazards are blind together. -/
theorem Blind.or {z z' : Hazard} (h : Blind z) (h' : Blind z') : Blind (z.or z') := by
  intro nd sender m m' hc hm
  obtain ⟨h1, h2⟩ := Bool.or_eq_false_iff.1 hm
  exact Bool.or_eq_false_iff.2 ⟨h hc h1, h' hc h2⟩

/-- A commit reads no message. -/
theorem blind_commitsOldEntry : Blind commitsOldEntry := fun _ _ => rfl

/-- The three hazards of safety are blind. -/
theorem blind_unsafeStep : Blind unsafeStep :=
  blind_votesAsLeader.or (blind_commitsOldEntry.or blind_countsOldReply)

/-! ## Moves -/

/-- A node that differs in its commit index and in what it has noted of its answers. -/
structure Relabelled (nd nd' : Node) : Prop where
  eq : ∃ c h, nd' = { nd with commitIndex := c, history := h }
  mem : ∀ {e : Event}, e.isAnswer = false → (e ∈ nd'.history ↔ e ∈ nd.history)

/-- A node differs from itself in nothing. -/
theorem Relabelled.refl (nd : Node) : Relabelled nd nd := ⟨⟨_, _, rfl⟩, fun _ => Iff.rfl⟩

/-- The two records of an answer differ in nothing else. -/
theorem relabelled_answered {nd nd' : Node} (h : Relabelled nd nd') (sender : NodeId)
    (req req' : AppendEntriesRequest) (resp : AppendEntriesResponse) (evs : List Event) :
    Relabelled (nd.note (.answered sender req resp :: evs))
      (nd'.note (.answered sender req' resp :: evs)) := by
  obtain ⟨⟨c, h', rfl⟩, hmem⟩ := h
  refine ⟨⟨c, _, rfl⟩, fun {e} he => ?_⟩
  have hne : ∀ req, e ≠ .answered sender req resp := by
    rintro req rfl
    cases he
  simp only [note, List.mem_append, List.mem_cons, hne, false_or]
  exact or_congr (hmem he) Iff.rfl

section
variable {z : Hazard} {g g' : NodeId → Message → Prop} {nd nd' : Node}

/-- A node does with a message that was carried what it does with the message sent, up to its commit
index; and exactly that if all fields that count have arrived. -/
theorem move_of_related {R : Message → Message → Prop} (hR : ∀ {m m'}, R m m' → Carries m m')
    (hz : Blind z) (hg : ∀ j msg, g' j msg → ∃ m, g j m ∧ R m msg) (h : Move z g' nd nd') :
    ∃ nd₁, Move z g nd nd₁ ∧ Relabelled nd₁ nd' ∧
      ((∀ {m m'}, R m m' → SameFields m m') → nd₁ = nd') := by
  have hsame : ∀ {nd₁}, Move z g nd nd₁ → ∃ nd₂, Move z g nd nd₂ ∧ Relabelled nd₂ nd₁ ∧
      ((∀ {m m'}, R m m' → SameFields m m') → nd₂ = nd₁) :=
    fun h => ⟨_, h, Relabelled.refl _, fun _ => rfl⟩
  -- of the replies only the fields that are carried are read
  cases h with
  | refuseEntries sender req resp hm hs ht hresp =>
    obtain ⟨m, hm₀, hr⟩ := hg _ _ hm
    obtain ⟨c, rfl⟩ := (hR hr).appendEntriesRequest
    refine ⟨_, .refuseEntries nd sender { req with leaderCommit := c } resp hm₀ hs ht hresp,
      relabelled_answered (Relabelled.refl nd) _ _ _ _ _, fun hall => ?_⟩
    rw [show { req with leaderCommit := c } = req from hall hr]
  | acceptEntries sender req resp hm hs ht hprev hzz hresp =>
    obtain ⟨m, hm₀, hr⟩ := hg _ _ hm
    have hzz₀ := hz (hR hr) hzz
    obtain ⟨c, rfl⟩ := (hR hr).appendEntriesRequest
    refine ⟨_, .acceptEntries nd sender { req with leaderCommit := c } resp hm₀ hs ht hprev hzz₀
      hresp, relabelled_answered ⟨⟨_, _, rfl⟩, fun _ => Iff.rfl⟩ _ _ _ _ _, fun hall => ?_⟩
    rw [show { req with leaderCommit := c } = req from hall hr]
  | grantVote sender req hm hs ht hcan hzz =>
    obtain ⟨m, hm₀, hr⟩ := hg _ _ hm
    obtain rfl := (hR hr).requestVoteRequest
    exact hsame (.grantVote nd sender req hm₀ hs ht hcan hzz)
  | refused sender resp ls hm ht hrole hls hs hzz =>
    obtain ⟨m, hm₀, hr⟩ := hg _ _ hm
    have hzz₀ := hz (hR hr) hzz
    obtain ⟨resp₀, rfl, hterm, hsucc, -⟩ := (hR hr).appendEntriesResponse
    exact hsame (.refused nd sender resp₀ ls hm₀ (hterm ▸ ht) hrole hls (hsucc.trans hs) hzz₀)
  | matched sender resp ls i hm ht hrole hls hs hi hzz =>
    obtain ⟨m, hm₀, hr⟩ := hg _ _ hm
    have hzz₀ := hz (hR hr) hzz
    obtain ⟨resp₀, rfl, hterm, hsucc, hmatched⟩ := (hR hr).appendEntriesResponse
    have hs₀ := hsucc.trans hs
    exact hsame (.matched nd sender resp₀ ls i hm₀ (hterm ▸ ht) hrole hls hs₀
      ((hmatched hs₀).trans hi) hzz₀)
  | countVote sender resp cs hm hrole hgr ht hcs =>
    obtain ⟨m, hm₀, hr⟩ := hg _ _ hm
    obtain ⟨resp₀, rfl, -, hgranted, hterm⟩ := (hR hr).requestVoteResponse
    have hgr₀ := hgranted.trans hgr
    exact hsame (.countVote nd sender resp₀ cs hm₀ hrole hgr₀ ((hterm hgr₀).trans ht) hcs)
  | chore h => exact hsame (.chore h)
  | observe term h => exact hsame (.observe nd term h)
  | commit ls id hr hls hid hzz => exact hsame (.commit nd ls id hr hls hid hzz)
  | refuseVote sender resp hs hresp => exact hsame (.refuseVote nd sender resp hs hresp)
  | becomeLeader cs hr hcs hmaj => exact hsame (.becomeLeader nd cs hr hcs hmaj)
  | sendEntries whom req hr hw hb => exact hsame (.sendEntries nd whom req hr hw hb)
  | append command rest hr hc hzz => exact hsame (.append nd command rest hr hc hzz)
  | stand => exact hsame (.stand nd)

end

/-- Node `i` has been handed the message, and what member `j` sent is related to it by `R`. -/
def Got (R : Message → Message → Prop) (ids : List NodeId) (nodes : NodeId → Node) (i j : NodeId)
    (msg : Message) : Prop := ∃ m, Sent ids nodes i j m ∧ R m msg

section
variable {z : Hazard} {R : Message → Message → Prop} {ids : List NodeId} {nodes : NodeId → Node}
  {i : NodeId} {nd : Node} {I : (NodeId → Node) → Prop}

/-- An invariant holds over the wire if each move of a member keeps it, and if it does not depend on
commit indices, unless these arrive as well. -/
theorem moves_carried (hR : ∀ {m m'}, R m m' → Carries m m') (hz : Blind z)
    (hmove : ∀ nodes i nd, I nodes → MemberMove z ids nodes i nd → I (Function.update nodes i nd))
    (hlabel : (∀ {m m'}, R m m' → SameFields m m') ∨
      ∀ nodes i nd, I nodes → i ∈ ids → Relabelled (nodes i) nd → I (Function.update nodes i nd))
    (hi : i ∈ ids) (hme : (nodes i).myId = i) (hch : (nodes i).channels = ids)
    (h : Moves z (Got R ids nodes i) (nodes i) nd) (hI : I nodes) :
    I (Function.update nodes i nd) := by
  induction h with
  | refl => rwa [Function.update_eq_self]
  | @tail nd₁ nd₂ h hm ih =>
    have hl := Moves.later h
    have hself : Function.update nodes i nd₁ i = nd₁ := Function.update_self ..
    obtain ⟨nd', hm', hlab, hsame⟩ := move_of_related hR hz (fun _ _ hg => hg) hm
    have hI' := hmove (Function.update nodes i nd₁) i nd' ih
      { mem := hi
        myId := by rw [hself, hl.myId, hme]
        channels := by rw [hself, hl.channels, hch]
        move := by
          rw [hself]
          exact hm'.mono fun j msg hs => hs.mono (history_update hl.history) }
    rw [Function.update_idem] at hI'
    rcases hlabel with hall | hlabel
    · rwa [← hsame hall]
    · have := hlabel _ i nd₂ hI' hi (by rwa [Function.update_self])
      rwa [Function.update_idem] at this

end

/-! ## What does not depend on commit indices -/

/-- Elections do not. -/
theorem elections_relabelled {ids : List NodeId} {nodes : NodeId → Node} {i : NodeId} {nd : Node}
    (hI : Elections ids nodes) (hi : i ∈ ids) (h : Relabelled (nodes i) nd) :
    Elections ids (Function.update nodes i nd) := by
  have hG : ∀ v t c, Granted nodes v t c → Granted (Function.update nodes i nd) v t c := by
    rintro v t c ⟨req, log, hg, ht, hc⟩
    refine ⟨req, log, ?_, ht, hc⟩
    rcases eq_or_ne v i with rfl | hne
    · rw [Function.update_self]
      exact (h.mem rfl).2 hg
    · rwa [Function.update_of_ne hne]
  refine forall_update ?_ fun j hj => (hI j hj).mono hG
  have hE := (hI i hi).mono hG
  generalize Granted (Function.update nodes i nd) = G at hE
  generalize nodes i = nd₀ at h hE
  obtain ⟨⟨c, h', rfl⟩, hmem⟩ := h
  exact
    { grantedTerm := fun hg => hE.grantedTerm ((hmem rfl).1 hg)
      vote := fun hg ht => hE.vote ((hmem rfl).1 hg) ht
      ownVote := hE.ownVote
      once := fun hg hg' => hE.once ((hmem rfl).1 hg) ((hmem rfl).1 hg')
      request := fun hs => hE.request ((hmem rfl).1 hs)
      reply := fun hs hg => hE.reply ((hmem rfl).1 hs) hg
      votes := hE.votes
      leader := fun hl => hE.leader ((hmem rfl).1 hl) }

/-- The correspondence with the ledger does not. -/
theorem nodeSim_relabelled {ids : List NodeId} {a : Ledger NodeId LogItem} {i : NodeId}
    {nd nd' : Node} (hN : NodeSim ids a i nd) (h : Relabelled nd nd') : NodeSim ids a i nd' := by
  obtain ⟨⟨c, h', rfl⟩, hmem⟩ := h
  exact
    { term := hN.term
      log := hN.log
      nonempty := hN.nonempty
      leads := hN.leads
      canon := hN.canon
      candidate := hN.candidate
      votes := hN.votes
      sent := fun hs => hN.sent ((hmem rfl).1 hs)
      became := fun hb => hN.became ((hmem rfl).1 hb)
      led := fun hl => (hN.led hl).imp fun _ hl => (hmem rfl).2 hl }

/-- Relabelling a node leaves the simulation as it is. -/
theorem sim_relabelled {ids : List NodeId} {a : Ledger NodeId LogItem} {nodes : NodeId → Node}
    {i : NodeId} {nd : Node} (hS : Sim ids a nodes) (hi : i ∈ ids)
    (h : Relabelled (nodes i) nd) : Sim ids a (Function.update nodes i nd) :=
  { hS with nodes := forall_update (nodeSim_relabelled (hS.nodes i hi) h) hS.nodes }

end ToFTDS.Worker
