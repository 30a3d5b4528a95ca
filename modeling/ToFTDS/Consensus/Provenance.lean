import ToFTDS.Consensus.Promises
import ToFTDS.Consensus.Queries
import ToFTDS.Consensus.WellFormed

/-!
# Where the items of a log come from

A log starts with the sentinel, and whatever else is in it a leader has appended for some call of
`AddCommand`, on its own node or on the one that the item has come from. No command is made up on
the way, in any run.
-/

namespace ToFTDS.Consensus

open Run Node Cluster

/-- A member has appended the item, for a call of `AddCommand` with its command. -/
def Given (ids : List NodeId) (nodes : NodeId → Node) (item : LogItem) : Prop :=
  ∃ j ∈ ids, ∃ p index, .appended p index item ∈ (nodes j).history ∧
    .addCommand p item.command ∈ (nodes j).history

/-- The events that bring in commands, or pass items on. -/
def Event.provenance : Event → Bool
  | .send _ (.appendEntriesRequest _) | .addCommand .. => true
  | _ => false

/-- All items behind the sentinel and all that have been sent satisfy `G`, and the queued commands
are from calls of `AddCommand`. -/
structure GivenNode (G : LogItem → Prop) (nd : Node) : Prop where
  log : ∀ item ∈ nd.log.drop 1, G item
  sent : ∀ {w req}, .send w (.appendEntriesRequest req) ∈ nd.history → ∀ item ∈ req.entries, G item
  queued : ∀ command ∈ nd.incomingCommands, .addCommand command.2 command.1 ∈ nd.history

/-- What is behind the first element of two lists is behind that of the first, or in the second. -/
theorem mem_drop_one_append {α : Type} {a : α} {l l' : List α} (h : a ∈ (l ++ l').drop 1) :
    a ∈ l.drop 1 ∨ a ∈ l' := by
  rw [List.drop_append] at h
  exact (List.mem_append.1 h).imp id List.mem_of_mem_drop

/-- An item behind the sentinel of a spliced log was behind it before, or is one of the entries. -/
theorem mem_drop_one_splice {a : LogItem} {s : Nat} {es l : Log}
    (h : a ∈ (splice s es l).drop 1) : a ∈ l.drop 1 ∨ a ∈ es := by
  unfold splice at h
  split at h
  · exact .inl h
  · refine (mem_drop_one_append h).imp (fun h => ?_) id
    rw [List.drop_take] at h
    exact List.mem_of_mem_take h

namespace GivenNode

variable {G G' : LogItem → Prop} {nd nd' : Node}

/-- The invariant survives more items given. -/
theorem mono (hG : ∀ item, G item → G' item) (h : GivenNode G nd) : GivenNode G' nd :=
  { h with
    log := fun item hi => hG _ (h.log item hi)
    sent := fun hs item hi => hG _ (h.sent hs item hi) }

/-- The invariant survives a change that keeps the log, queues no command and sends no entries. -/
theorem frame (h : GivenNode G nd) (hlog : nd'.log = nd.log)
    (hq : ∀ command ∈ nd'.incomingCommands, command ∈ nd.incomingCommands)
    (hx : nd.history <+: nd'.history) (hev : NoNew Event.provenance nd nd') :
    GivenNode G nd' where
  log := hlog ▸ h.log
  sent hs := h.sent (hev.mem hs rfl)
  queued command hc := hx.subset (h.queued command (hq command hc))

/-- A chore keeps the invariant, as a command that it queues is from a call. -/
theorem chore (h : GivenNode G nd) (hc : Chore nd nd') : GivenNode G nd' := by
  have hx := (Move.chore (z := {}) (g := fun _ _ => True) hc).later.history
  cases hc with
  | idle inc reqs queries evs hevs =>
    refine h.frame rfl (fun _ => id) hx ⟨evs, rfl, fun e he => ?_⟩
    rw [hevs e he]
    rfl
  | answer => exact h.frame rfl (fun _ => id) hx ⟨[_], rfl, by simp [Event.provenance]⟩
  | addCommand command =>
    refine ⟨h.log, fun {w req} hs => h.sent (w := w) ?_, fun command' hc => ?_⟩
    · simpa [Node.addCommand] using hs
    · rcases List.mem_append.1 hc with hc | hc
      · exact List.mem_append_left _ (h.queued command' hc)
      · cases List.mem_singleton.1 hc
        exact List.mem_append_right _ (List.mem_singleton_self _)
  | redirect leaderId =>
    have hq := quiet_redirectCommands nd leaderId
    refine h.frame hq.log (fun command hc => ?_) hx (noNew_redirectCommands (fun _ _ => rfl) nd _)
    unfold redirectCommands at hc
    split at hc
    · cases hc
    · exact hc

/-- Accepting entries that were given keeps the invariant. -/
theorem accept (h : GivenNode G nd) {req : AppendEntriesRequest}
    (hreq : ∀ item ∈ req.entries, G item) : GivenNode G (nd.accept req) where
  log item hi := (mem_drop_one_splice hi).elim (h.log item) (hreq item)
  sent hs := h.sent ((noNew_accept (p := Event.provenance) (fun _ => rfl) nd req).mem hs rfl)
  queued command hc := List.mem_append_left _ (h.queued command hc)

/-- What is appended is for the call of `AddCommand` that queued it. -/
theorem append (h : GivenNode G nd) {command : Command × PromiseId}
    (hnew : G { command := command.1, leaderTerm := nd.currentTerm }) :
    GivenNode G (nd.addNewCommand command) where
  log item hi := by
    rcases mem_drop_one_append hi with hi | hi
    · exact h.log item hi
    · rw [List.mem_singleton.1 hi]
      exact hnew
  sent hs := h.sent ((noNew_addNewCommand (p := Event.provenance) (fun _ => rfl)
    (fun _ _ _ => rfl) nd command).mem hs rfl)
  queued command' hc := by
    have hx := (noNew_addNewCommand (p := Event.provenance) (fun _ => rfl) (fun _ _ _ => rfl) nd
      command).isPrefix
    exact hx.subset (h.queued command' hc)

/-- A leader sends what is behind the sentinel of its log. -/
theorem sendEntries (h : GivenNode G nd) {whom : NodeId} {req : AppendEntriesRequest}
    (hb : nd.Builds req) : GivenNode G (nd.note [.send whom (.appendEntriesRequest req)]) where
  log := h.log
  sent {w req'} hs := by
    simp only [note, List.mem_append, List.mem_singleton, Event.send.injEq,
      Message.appendEntriesRequest.injEq] at hs
    rcases hs with hs | ⟨-, rfl⟩
    · exact h.sent hs
    · intro item hi
      rw [hb.entries, Nat.add_comm, ← List.drop_drop] at hi
      exact h.log item (List.mem_of_mem_drop hi)
  queued command hc := List.mem_append_left _ (h.queued command hc)

end GivenNode

/-- One move of a member makes nothing up. -/
theorem given_move {z : Hazard} {ids : List NodeId} {nodes : NodeId → Node} {i : NodeId}
    {nd : Node} (hI : ∀ j ∈ ids, GivenNode (Given ids nodes) (nodes j))
    (h : MemberMove z ids nodes i nd) :
    ∀ j ∈ ids,
      GivenNode (Given ids (Function.update nodes i nd)) (Function.update nodes i nd j) := by
  obtain ⟨hi, -, -, hm⟩ := h
  have hx := history_update (i := i) hm.later.history
  have hG : ∀ item, Given ids nodes item → Given ids (Function.update nodes i nd) item := by
    rintro item ⟨j, hj, p, index, happ, hadd⟩
    exact ⟨j, hj, p, index, (hx j).subset happ, (hx j).subset hadd⟩
  refine forall_update (P := fun _ => GivenNode (Given ids (Function.update nodes i nd))) ?_
    fun j hj => (hI j hj).mono hG
  have hN := (hI i hi).mono hG
  have hnew : ∀ {p index item}, .appended p index item ∈ nd.history →
      .addCommand p item.command ∈ nd.history → Given ids (Function.update nodes i nd) item := by
    intro p index item happ hadd
    refine ⟨i, hi, p, index, ?_⟩
    rw [Function.update_self]
    exact ⟨happ, hadd⟩
  generalize Given ids (Function.update nodes i nd) = G at hG hN hnew ⊢
  have hlater := hm.later.history
  generalize nodes i = nd₀ at hm hN hlater
  cases hm with
  | chore h => exact hN.chore h
  | commit ls id =>
    have hq := quiet_foldl_resolve (List.range' (nd₀.commitIndex + 1) (id - nd₀.commitIndex)) nd₀
    refine hN.frame hq.log (fun command hc => ?_) hlater
      (noNew_commit (fun _ => rfl) (fun _ _ _ => rfl) _ _ _ _ _)
    rwa [emit, foldl_resolve_incomingCommands] at hc
  | acceptEntries sender req resp hg =>
    refine (hN.accept fun item hitem => ?_).frame rfl (fun _ => id) (List.prefix_append _ _)
      (noNew_note (by simp [Event.provenance]))
    exact hG item ((hI sender hg.1).sent hg.2 item hitem)
  | observe | refused | matched | countVote =>
    exact hN.frame rfl (fun _ => id) hlater (noNew_of_history_eq rfl)
  | refuseEntries | refuseVote | grantVote | becomeLeader | stand =>
    exact hN.frame rfl (fun _ => id) hlater (noNew_note (by simp [Event.provenance]))
  | sendEntries whom req hr hw hb => exact hN.sendEntries hb
  | append command rest hr hc =>
    have hq : .addCommand command.2 command.1 ∈ nd₀.history :=
      hN.queued command (hc ▸ List.mem_cons_self)
    have hrest : GivenNode G { nd₀ with incomingCommands := rest } :=
      { hN with queued := fun command' hc' => hN.queued command' (hc ▸ List.mem_cons_of_mem _ hc') }
    exact hrest.append (hnew (List.mem_append_right _ (List.mem_singleton_self _))
      (hlater.subset hq))

/-- The logs hold nothing behind the sentinel at the start. -/
theorem given_init (members : Members) : ∀ i ∈ members.ids,
    GivenNode (Given members.ids (initialNode members)) (initialNode members i) :=
  fun _ _ => ⟨nofun, nofun, nofun⟩

/-! ## Calls of `AddCommand` -/

/-- A call of `AddCommand`. -/
def Event.isAddCommand : Event → Bool
  | .addCommand .. => true
  | _ => false

namespace Node

variable {nd nd' : Node}

/-- Observing a term makes no promise. -/
theorem promises_observeTerm (nd : Node) (term : Nat) :
    (nd.observeTerm term).promises = nd.promises := by
  unfold observeTerm
  split <;> rfl

/-- Redirecting commands makes no promise. -/
theorem promises_redirectCommands (nd : Node) (leaderId : NodeId) :
    (nd.redirectCommands leaderId).promises = nd.promises := by
  unfold redirectCommands
  split <;> rfl

/-- Sending makes no promise. -/
theorem promises_sendEach (l : List (NodeId × Message)) (nd : Node) :
    (nd.sendEach l).promises = nd.promises := by rw [sendEach_eq]

/-- Resolving makes no promise. -/
theorem promises_foldl_resolve (l : List Nat) (nd : Node) :
    (l.foldl resolve nd).promises = nd.promises := by
  induction l generalizing nd with
  | nil => rfl
  | cons i l ih =>
    rw [List.foldl_cons, ih, resolve]
    split <;> rfl

/-- Appending queued commands makes no promise. -/
theorem promises_foldl_addNewCommand (commands : List (Command × PromiseId)) (nd : Node) :
    (commands.foldl addNewCommand nd).promises = nd.promises := by
  induction commands generalizing nd with
  | nil => rfl
  | cons command commands ih =>
    rw [List.foldl_cons, ih]
    rfl

/-- Handling a message makes no promise. -/
theorem promises_handleMessage {sender : NodeId} {msg : Message}
    (h : nd.handleMessage sender msg = .ok nd') : nd'.promises = nd.promises := by
  have hobs := promises_observeTerm nd
  rcases handleMessage_ok h with
    ⟨req, resp, -, -, -, rfl⟩ | ⟨req, -, -, rfl⟩ | ⟨resp, -, h⟩ | ⟨resp, -, h⟩
  · have hred := promises_redirectCommands (nd.beforeEntries req) req.leaderId
    have hbefore : (nd.beforeEntries req).promises = nd.promises := hobs req.leaderTerm
    rcases nd.handleAppendEntriesRequest_cases req with
      ⟨-, heq⟩ | ⟨-, -, heq⟩ | ⟨-, -, heq⟩ <;> rw [heq]
    · exact hbefore
    · exact hred.trans hbefore
    · exact hred.trans hbefore
  · rcases nd.handleRequestVoteRequest_cases req with
      ⟨-, heq⟩ | ⟨-, -, heq⟩ | ⟨-, -, heq⟩ <;> rw [heq] <;> exact hobs req.candidateTerm
  · rcases handleAppendEntriesResponse_ok h with
      ⟨-, rfl⟩ | ⟨-, ls, -, ⟨-, rfl⟩ | ⟨-, m, -, rfl⟩⟩ <;> exact hobs resp.currentTerm
  · rcases handleRequestVoteResponse_ok h with rfl | ⟨-, -, -, cs, -, rfl | ⟨-, h2⟩⟩
    · exact hobs resp.currentTerm
    · exact hobs resp.currentTerm
    · obtain ⟨l, rfl, -⟩ := becomeLeader_ok h2
      rw [promises_sendEach]
      exact hobs resp.currentTerm

/-- Beginning a tick makes no promise. -/
theorem promises_beginTick (h : nd.beginTick = .ok nd') : nd'.promises = nd.promises := by
  obtain ⟨nd₁, h1, h2⟩ := bind_eq_ok.1 h
  rw [show nd.promises = nd₁.promises by rw [handleGetPersistentCommandRequests_ok h1]; rfl]
  split at h2
  · rcases commitIfPossible_ok h2 with rfl | ⟨ls, id, -, -, rfl⟩
    · rfl
    · exact promises_foldl_resolve _ nd₁
  · cases h2
    rfl

/-- Ending a tick makes no promise. -/
theorem promises_endTick {asLeader expired : Bool} (h : nd.endTick asLeader expired = .ok nd') :
    nd'.promises = nd.promises := by
  unfold endTick at h
  split at h
  · unfold finishTickLeader at h
    split at h
    · next hr =>
      obtain ⟨nd₁, h1, h2⟩ := bind_eq_ok.1 h
      cases h2
      obtain ⟨l, rfl, -⟩ := sendAppendEntriesToAll_ok hr h1
      rw [addNewCommandsToLog, promises_foldl_addNewCommand]
      exact promises_sendEach l nd
    · cases h
      rfl
  · cases h
    cases expired with
    | false => rfl
    | true =>
      change nd.becomeCandidate.promises = nd.promises
      rw [becomeCandidate_eq]
      exact promises_sendEach _ _

/-- A call of `AddCommand` makes a promise, and nothing else does. -/
theorem Move.promises_cases {z : Hazard} {g : NodeId → Message → Prop} (h : Move z g nd nd') :
    (nd'.promises = nd.promises ∧ NoNew Event.isAddCommand nd nd') ∨
      ∃ command, nd' = nd.addCommand command := by
  have hnote : ∀ {nd₁ : Node} {evs : List Event}, (∀ e ∈ evs, e.isAddCommand = false) →
      NoNew Event.isAddCommand nd₁ (nd₁.note evs) := noNew_note
  cases h with
  | chore h =>
    cases h with
    | idle inc reqs queries evs hevs =>
      refine .inl ⟨rfl, evs, rfl, fun e he => ?_⟩
      rw [hevs e he]
      rfl
    | answer => exact .inl ⟨rfl, [_], rfl, by simp [Event.isAddCommand]⟩
    | addCommand command => exact .inr ⟨command, rfl⟩
    | redirect leaderId =>
      exact .inl ⟨promises_redirectCommands nd leaderId,
        noNew_redirectCommands (fun _ _ => rfl) nd leaderId⟩
  | commit ls id =>
    exact .inl ⟨promises_foldl_resolve _ nd,
      noNew_commit (fun _ => rfl) (fun _ _ _ => rfl) _ _ _ _ _⟩
  | acceptEntries sender req =>
    exact .inl ⟨rfl,
      (noNew_accept (fun _ => rfl) nd req).trans (hnote (by simp [Event.isAddCommand]))⟩
  | observe | refused | matched | countVote => exact .inl ⟨rfl, noNew_of_history_eq rfl⟩
  | append command rest =>
    exact .inl ⟨rfl,
      noNew_addNewCommand (fun _ => rfl) (fun _ _ _ => rfl) { nd with incomingCommands := rest } _⟩
  | refuseEntries | refuseVote | grantVote | becomeLeader | sendEntries | stand =>
    exact .inl ⟨rfl, hnote (by simp [Event.isAddCommand])⟩

/-- The number of promises does not fall, and where it stays no command is added. -/
theorem Moves.promises {z : Hazard} {g : NodeId → Message → Prop} (h : Moves z g nd nd') :
    nd.promises ≤ nd'.promises ∧
      (nd'.promises = nd.promises → NoNew Event.isAddCommand nd nd') := by
  induction h with
  | refl => exact ⟨Nat.le_refl _, fun _ => noNew_of_history_eq rfl⟩
  | tail _ hm ih =>
    obtain ⟨h1, h2⟩ := ih
    rcases hm.promises_cases with ⟨h3, h4⟩ | ⟨command, rfl⟩
    · rw [h3]
      exact ⟨h1, fun heq => (h2 heq).trans h4⟩
    · refine ⟨Nat.le_succ_of_le h1, fun heq => ?_⟩
      exact absurd heq (Nat.ne_of_gt (Nat.lt_succ_of_le h1))

/-- The calls of `AddCommand` have different numbers. -/
structure PromiseIds (nd : Node) : Prop where
  lt : ∀ {p command}, .addCommand p command ∈ nd.history → p < nd.promises
  once : ∀ {p command command'}, .addCommand p command ∈ nd.history →
    .addCommand p command' ∈ nd.history → command = command'

/-- Every move keeps the numbers of the calls different. -/
theorem promiseIds_move {z : Hazard} {g : NodeId → Message → Prop} (h : PromiseIds nd)
    (hm : Move z g nd nd') : PromiseIds nd' := by
  rcases hm.promises_cases with ⟨hp, hnew⟩ | ⟨command, rfl⟩
  · exact ⟨fun hev => hp ▸ h.lt (hnew.mem hev rfl),
      fun hev hev' => h.once (hnew.mem hev rfl) (hnew.mem hev' rfl)⟩
  · have hcases : ∀ {p c}, .addCommand p c ∈ (nd.addCommand command).history →
        .addCommand p c ∈ nd.history ∨ p = nd.promises ∧ c = command := by
      intro p c hev
      simpa [Node.addCommand] using hev
    refine ⟨fun hev => ?_, fun hev hev' => ?_⟩
    · rcases hcases hev with hev | ⟨rfl, -⟩
      · exact Nat.lt_succ_of_lt (h.lt hev)
      · exact Nat.lt_succ_self _
    · rcases hcases hev with h1 | ⟨hp, hc⟩ <;> rcases hcases hev' with h2 | ⟨hp', hc'⟩
      · exact h.once h1 h2
      · exact absurd (h.lt h1) (Nat.not_lt.2 (Nat.le_of_eq hp'.symm))
      · exact absurd (h.lt h2) (Nat.not_lt.2 (Nat.le_of_eq hp.symm))
      · rw [hc, hc']

end Node

/-- The tick thread calls no `AddCommand`, and a query is none. -/
theorem Process.step_addCommand {p p' : Process} {a : Action} (h : p.step (.act a) = some p')
    (ha : ∀ command, a ≠ .addCommand command) : NoNew Event.isAddCommand p.node p'.node := by
  refine (step_moves (g := fun _ _ => True) (fun _ _ => trivial) (marks_empty p a) h).promises.2 ?_
  cases a with
  | addCommand command => exact absurd rfl (ha command)
  | getPersistentCommands start maxCount =>
    cases h
    rfl
  | beginTick =>
    obtain ⟨nd, -, hnode, rfl⟩ := step_beginTick h
    have hsame := promises_beginTick hnode
    exact hsame
  | handle =>
    obtain ⟨asLeader, m, rest, nd, -, hnode, rfl⟩ := step_handle h
    exact promises_handleMessage hnode
  | endTick expired =>
    obtain ⟨asLeader, nd, -, hnode, rfl⟩ := step_endTick h
    exact promises_endTick hnode

end ToFTDS.Consensus
