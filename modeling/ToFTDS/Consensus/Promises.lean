import ToFTDS.Consensus.Runs

/-!
# Promises and log entries

`items_to_response_` keeps the promise of a command under the index at which the command was
appended. `HandleAppendEntriesRequest` shrinks the log without looking at it (`node.cpp:159`), so
that a promise can outlive its log entry and wait at an index where there is another entry in the
end. `losesPending` marks the steps in which that happens. In the runs without such a step each
pending promise has its own entry in the log, and each promise that is answered as persisted has it
there at a committed index.
-/

namespace ToFTDS.Consensus

open Run Node Cluster

/-- A node accepts a request that makes it shrink its log to a size at or below the index of a
pending promise. -/
def losesPending : Hazard where
  handles nd _ msg :=
    match msg with
    | .appendEntriesRequest req =>
      req.leaderTerm = nd.currentTerm &&
        nd.log[req.prevLogIndex]?.any (·.leaderTerm = req.prevLogTerm) &&
        (conflictAt nd.log (req.prevLogIndex + 1) req.entries).any fun n =>
          ∃ i ∈ nd.itemsToResponse.keys, n ≤ i
    | _ => false

/-- `item` is what `AddNewCommandsToLog` put at `index` for the promise `p`, and the log has not
been cut there since. -/
def StillThere (history : List Event) (p : PromiseId) (index : Nat) (item : LogItem) : Prop :=
  ∃ h₁ h₂, history = h₁ ++ .appended p index item :: h₂ ∧ ∀ n, .resized n ∈ h₂ → index < n

/-- An entry is still there after events that do not cut the log at or below it. -/
theorem StillThere.append {h evs : List Event} {p : PromiseId} {index : Nat} {item : LogItem}
    (hs : StillThere h p index item) (hevs : ∀ n, .resized n ∈ evs → index < n) :
    StillThere (h ++ evs) p index item := by
  obtain ⟨h₁, h₂, rfl, hall⟩ := hs
  refine ⟨h₁, h₂ ++ evs, by rw [List.append_assoc, List.cons_append], fun n hn => ?_⟩
  rcases List.mem_append.1 hn with hn | hn
  · exact hall n hn
  · exact hevs n hn

/-! ## Answering -/

namespace Node

/-- Resolving an index removes what was under it, and nothing else. -/
theorem lookup_resolve (nd : Node) (i j : Nat) :
    (nd.resolve j).itemsToResponse.lookup i =
      if i = j then none else nd.itemsToResponse.lookup i := by
  unfold resolve
  split
  · next p hp =>
    split
    · next heq =>
      subst heq
      exact Finmap.lookup_erase i _
    · next hne => exact Finmap.lookup_erase_ne hne
  · next hnone =>
    split
    · next heq => rw [heq, hnone]
    · rfl

/-- What is pending after the loop of `CommitIfPossible` was pending before. -/
theorem lookup_foldl_resolve (l : List Nat) {nd : Node} {i : Nat} {p : PromiseId}
    (h : (l.foldl resolve nd).itemsToResponse.lookup i = some p) :
    nd.itemsToResponse.lookup i = some p := by
  induction l generalizing nd with
  | nil => exact h
  | cons j l ih =>
    have h := ih h
    rw [lookup_resolve] at h
    split at h
    · cases h
    · exact h

/-- Resolving does not touch the queued commands. -/
theorem foldl_resolve_incomingCommands (l : List Nat) (nd : Node) :
    (l.foldl resolve nd).incomingCommands = nd.incomingCommands := by
  induction l generalizing nd with
  | nil => rfl
  | cons j l ih =>
    rw [List.foldl_cons, ih, resolve]
    split <;> rfl

/-- The loop of `CommitIfPossible` answers promises that are pending under its indices. -/
theorem foldl_resolve_history (l : List Nat) (nd : Node) :
    ∃ evs, (l.foldl resolve nd).history = nd.history ++ evs ∧
      ∀ e ∈ evs, ∃ i ∈ l, ∃ p, nd.itemsToResponse.lookup i = some p ∧ e = .setValue p {} := by
  induction l generalizing nd with
  | nil => exact ⟨[], by simp, by simp⟩
  | cons j l ih =>
    obtain ⟨evs, heq, hevs⟩ := ih (nd.resolve j)
    have hrest : ∀ e ∈ evs, ∃ i ∈ j :: l, ∃ p, nd.itemsToResponse.lookup i = some p ∧
        e = .setValue p {} := by
      intro e he
      obtain ⟨i, hi, p, hp, rfl⟩ := hevs e he
      exact ⟨i, List.mem_cons_of_mem _ hi, p, lookup_foldl_resolve [j] hp, rfl⟩
    cases hj : nd.itemsToResponse.lookup j with
    | none =>
      refine ⟨evs, ?_, hrest⟩
      rw [List.foldl_cons, heq, resolve, hj]
    | some p =>
      refine ⟨.setValue p {} :: evs, ?_, ?_⟩
      · rw [List.foldl_cons, heq, resolve, hj]
        simp [emit]
      · intro e he
        rcases List.mem_cons.1 he with rfl | he
        · exact ⟨j, List.mem_cons_self, p, hj, rfl⟩
        · exact hrest e he

end Node

/-! ## Pending promises have their entries -/

/-- `log.resize` to a smaller size. -/
def Event.resizes : Event → Bool
  | .resized _ => true
  | _ => false

/-- Quiet events do not cut the log. -/
theorem Event.not_resizes_of_quiet (e : Event) (h : e.quiet = true) : e.resizes = false := by
  cases e <;> first | rfl | cases h

/-- Every queued command was added with its promise, and every pending promise has its own entry in
the log. -/
structure PendingNode (nd : Node) : Prop where
  queued : ∀ c ∈ nd.incomingCommands, .addCommand c.2 c.1 ∈ nd.history
  pending : ∀ {i p}, nd.itemsToResponse.lookup i = some p → ∃ item, nd.log[i]? = some item ∧
    StillThere nd.history p i item ∧ .addCommand p item.command ∈ nd.history

namespace PendingNode

variable {nd nd' : Node}

/-- Serving clients and keeping the entries of pending promises keeps it. -/
theorem frame (h : PendingNode nd) (hc : ∀ c ∈ nd'.incomingCommands, c ∈ nd.incomingCommands)
    (hi : ∀ {i p}, nd'.itemsToResponse.lookup i = some p → nd.itemsToResponse.lookup i = some p)
    (hlog : ∀ {i p item}, nd.itemsToResponse.lookup i = some p → nd.log[i]? = some item →
      nd'.log[i]? = some item)
    {evs : List Event} (hx : nd'.history = nd.history ++ evs)
    (hevs : ∀ {i p}, nd.itemsToResponse.lookup i = some p → ∀ n, .resized n ∈ evs → i < n) :
    PendingNode nd' where
  queued c hmem := by
    rw [hx]
    exact List.mem_append_left _ (h.queued c (hc c hmem))
  pending {i p} hp := by
    obtain ⟨item, h1, h2, h3⟩ := h.pending (hi hp)
    rw [hx]
    exact ⟨item, hlog (hi hp) h1, h2.append (hevs (hi hp)), List.mem_append_left _ h3⟩

/-- What touches neither the promises nor the log keeps it. -/
theorem same (h : PendingNode nd) (hc : nd'.incomingCommands = nd.incomingCommands)
    (hi : nd'.itemsToResponse = nd.itemsToResponse) (hlog : nd'.log = nd.log)
    (hev : NoNew Event.resizes nd nd') : PendingNode nd' := by
  obtain ⟨evs, hx, hevs⟩ := hev
  refine h.frame (fun c hmem => hc ▸ hmem) (fun hp => hi ▸ hp) (fun _ hitem => hlog ▸ hitem) hx ?_
  intro i p _ n hn
  cases hevs _ hn

/-- A chore keeps the pending promises. -/
theorem chore (h : PendingNode nd) (hch : Chore nd nd') : PendingNode nd' := by
  have hev := hch.quiet.noNew Event.not_resizes_of_quiet
  cases hch with
  | idle | answer => exact h.same rfl rfl rfl hev
  | addCommand command =>
    have hsame :
        PendingNode { nd.addCommand command with incomingCommands := nd.incomingCommands } :=
      h.same rfl rfl rfl hev
    refine ⟨fun c hmem => ?_, hsame.pending⟩
    rcases List.mem_append.1 hmem with hmem | hmem
    · exact hsame.queued c hmem
    · cases List.mem_singleton.1 hmem
      exact List.mem_append_right _ List.mem_cons_self
  | redirect leaderId =>
    obtain ⟨evs, hx, hevs⟩ := hev
    unfold redirectCommands at hx ⊢
    split at hx
    · next hr =>
      rw [if_pos hr]
      refine h.frame nofun (fun hp => hp) (fun _ hitem => hitem) hx fun _ n hn => ?_
      cases hevs _ hn
    · next hr =>
      rw [if_neg hr]
      exact h

/-- A request that shrinks the log above all pending promises keeps their entries. -/
theorem accept (h : PendingNode nd) {req : AppendEntriesRequest}
    (hprev : req.prevLogIndex < nd.log.length)
    (hz : ∀ n, conflictAt nd.log (req.prevLogIndex + 1) req.entries = some n →
      ∀ i p, nd.itemsToResponse.lookup i = some p → i < n) : PendingNode (nd.accept req) := by
  cases hconf : conflictAt nd.log (req.prevLogIndex + 1) req.entries with
  | none =>
    refine h.frame (fun _ hmem => hmem) (fun hp => hp) (fun _ hitem => ?_) rfl ?_
    · obtain ⟨r, hr⟩ := prefix_splice hprev hconf
      change (splice _ _ nd.log)[_]? = _
      rw [← hr, List.getElem?_append_left (List.getElem?_eq_some_iff.1 hitem).1, hitem]
    · intro i p _ n hn
      simp [hconf] at hn
  | some n =>
    refine h.frame (fun _ hmem => hmem) (fun hp => hp) (fun {i p item} hp hitem => ?_) rfl ?_
    · have hlt := hz n hconf i p hp
      obtain ⟨r, hr⟩ := take_prefix_splice hprev hconf
      have hi := (List.getElem?_eq_some_iff.1 hitem).1
      change (splice _ _ nd.log)[_]? = _
      rw [← hr, List.getElem?_append_left (by rw [List.length_take]; omega), List.getElem?_take,
        if_pos hlt, hitem]
    · intro i p hp n' hn
      obtain rfl : n' = n := by simpa [hconf] using hn
      exact hz n' hconf i p hp

/-- A command is appended with its promise. -/
theorem append (h : PendingNode nd) {command : Command × PromiseId}
    {rest : List (Command × PromiseId)} (hc : nd.incomingCommands = command :: rest) :
    PendingNode ({ nd with incomingCommands := rest }.addNewCommand command) := by
  have hevs : NoNew Event.resizes nd ({ nd with incomingCommands := rest }.addNewCommand command) :=
    noNew_addNewCommand (fun _ => rfl) (fun _ _ _ => rfl)
      { nd with incomingCommands := rest } command
  obtain ⟨evs, hx, hevs⟩ := hevs
  have hmem : ∀ {e : Event}, e ∈ nd.history →
      e ∈ ({ nd with incomingCommands := rest }.addNewCommand command).history := by
    intro e he
    rw [hx]
    exact List.mem_append_left _ he
  refine ⟨fun c hr => hmem (h.queued c (hc ▸ List.mem_cons_of_mem _ hr)), fun {i p} hp => ?_⟩
  change (nd.itemsToResponse.insert nd.log.length command.2).lookup i = some p at hp
  change ∃ item, (nd.log ++ [_])[i]? = some item ∧ _
  rcases eq_or_ne i nd.log.length with rfl | hne
  · rw [Finmap.lookup_insert] at hp
    cases hp
    refine ⟨_, List.getElem?_concat_length, ⟨_, [], rfl, by simp⟩, hmem ?_⟩
    exact h.queued command (hc ▸ List.mem_cons_self)
  · rw [Finmap.lookup_insert_of_ne _ hne] at hp
    obtain ⟨item, h1, h2, h3⟩ := h.pending hp
    refine ⟨item, ?_, ?_, hmem h3⟩
    · rw [List.getElem?_append_left (List.getElem?_eq_some_iff.1 h1).1, h1]
    · rw [hx]
      refine h2.append fun n hn => ?_
      cases hevs _ hn

end PendingNode

/-- A move that cuts nothing pending keeps the pending promises. -/
theorem pendingNode_move {z : Hazard} (hz : losesPending.Le z) {g : NodeId → Message → Prop}
    {nd nd' : Node} (h : PendingNode nd) (hm : Move z g nd nd') : PendingNode nd' := by
  cases hm with
  | chore hch => exact h.chore hch
  | observe | refused | matched | countVote => exact h.same rfl rfl rfl (noNew_of_history_eq rfl)
  | commit ls id =>
    have hq := quiet_foldl_resolve (List.range' (nd.commitIndex + 1) (id - nd.commitIndex)) nd
    obtain ⟨evs, hx, hevs⟩ := noNew_commit (p := Event.resizes) (fun _ => rfl) (fun _ _ _ => rfl)
      (List.range' (nd.commitIndex + 1) (id - nd.commitIndex)) nd nd.currentTerm id nd.log
    refine h.frame (fun c hmem => ?_) (lookup_foldl_resolve _) (fun {i p item} _ hitem => ?_) hx ?_
    · rw [← foldl_resolve_incomingCommands
        (List.range' (nd.commitIndex + 1) (id - nd.commitIndex)) nd]
      exact hmem
    · change (List.foldl resolve nd _).log[i]? = _
      rw [hq.log, hitem]
    · intro i p _ n hn
      cases hevs _ hn
  | refuseEntries | refuseVote | grantVote | becomeLeader | sendEntries | stand =>
    exact h.same rfl rfl rfl (noNew_note (by simp [Event.resizes]))
  | acceptEntries sender req resp hg hs ht hprev hzz hresp =>
    obtain ⟨item, hitem, hterm⟩ := hprev
    refine (h.accept (List.getElem?_eq_some_iff.1 hitem).1 ?_).same rfl rfl rfl
      (noNew_note (by simp [Event.resizes]))
    intro n hconf i p hp
    have hmark := hz.handles hzz
    change (decide (req.leaderTerm = nd.currentTerm) &&
      nd.log[req.prevLogIndex]?.any (fun item => decide (item.leaderTerm = req.prevLogTerm)) &&
      (conflictAt nd.log (req.prevLogIndex + 1) req.entries).any fun n =>
        decide (∃ i ∈ nd.itemsToResponse.keys, n ≤ i)) = false at hmark
    by_contra hle
    refine absurd hmark ?_
    simp only [ht, hitem, hterm, hconf, decide_true, Bool.true_and, Option.any_some,
      decide_eq_false_iff_not, not_not]
    refine ⟨i, Finmap.mem_keys.2 (Finmap.mem_of_lookup_eq_some hp), Nat.le_of_not_lt hle⟩
  | append command rest hr hc => exact h.append hc

/-- What all members keep to. -/
theorem pendingNode_run {members : Members} {ops : List Op} {s : Cluster}
    (hrun : exec step ops (init members) = some s)
    (havoid : Avoids step (marks losesPending) ops (init members) = true) :
    ∀ i ∈ members.ids, PendingNode (s.node i) := by
  refine invariant_run (I := fun nodes => ∀ i ∈ members.ids, PendingNode (nodes i)) ?_ ?_
    hrun havoid
  · intro nodes i nd hI h
    exact forall_update (pendingNode_move (Hazard.Le.refl _) (hI i h.mem) h.move) hI
  · intro i hi
    exact ⟨nofun, nofun⟩

/-! ## Acknowledged writes -/

/-- The answer of a persisted command. -/
def Event.persists : Event → Bool
  | .setValue _ result => result.commandPersisted
  | _ => false

/-- Marks every commit. -/
def everyCommit : Hazard where
  commits _ := true

/-- No command is answered as persisted but in a commit. -/
theorem noNew_persists {g : NodeId → Message → Prop} {nd nd' : Node}
    (h : Move everyCommit g nd nd') : NoNew Event.persists nd nd' := by
  cases h with
  | chore h =>
    exact h.noNew rfl (fun _ _ _ _ => rfl) (fun _ _ => rfl) (fun _ _ => rfl)
  | observe | refused | matched | countVote => exact noNew_of_history_eq rfl
  | commit ls id hr hls hid hz => cases hz
  | acceptEntries sender req =>
    exact (noNew_accept (fun _ => rfl) nd req).trans (noNew_note (by simp [Event.persists]))
  | append command rest =>
    exact noNew_addNewCommand (fun _ => rfl) (fun _ _ _ => rfl) { nd with incomingCommands := rest }
      command
  | _ => exact noNew_note (by simp [Event.persists])

/-- Without a commit, no promise is answered as persisted. -/
theorem moves_noNew_persists {g : NodeId → Message → Prop} {nd nd' : Node}
    (h : Moves everyCommit g nd nd') : NoNew Event.persists nd nd' := by
  induction h with
  | refl => exact noNew_of_history_eq rfl
  | tail _ h ih => exact ih.trans (noNew_persists h)

/-- The promises that the beginning of a tick answers as persisted were pending at indices that are
committed then. -/
theorem beginTick_persists {nd nd' : Node} (h : nd.beginTick = .ok nd') {evs : List Event}
    (hx : nd'.history = nd.history ++ evs) {p : PromiseId} (hp : .setValue p {} ∈ evs) :
    ∃ i, nd.itemsToResponse.lookup i = some p ∧ nd'.log = nd.log ∧ i ≤ nd'.commitIndex := by
  obtain ⟨nd₁, h1, h2⟩ := bind_eq_ok.1 h
  obtain ⟨hm, hcore, -⟩ :=
    moves_handleGetPersistentCommandRequests (z := everyCommit) (g := fun _ _ => True) h1
  obtain ⟨evs₁, hx₁, hevs₁⟩ := moves_noNew_persists hm
  have hno : Event.setValue p {} ∉ evs₁ := by
    intro hmem
    cases hevs₁ _ hmem
  have hsame : nd' = nd₁ → ∃ i, nd.itemsToResponse.lookup i = some p ∧ nd'.log = nd.log ∧
      i ≤ nd'.commitIndex := by
    rintro rfl
    rw [hx₁] at hx
    rw [List.append_cancel_left hx] at hno
    exact absurd hp hno
  split at h2
  swap
  · cases h2
    exact hsame rfl
  rcases commitIfPossible_ok h2 with heq | ⟨ls, id, -, -, rfl⟩
  · exact hsame heq
  have hq := quiet_foldl_resolve (List.range' (nd₁.commitIndex + 1) (id - nd₁.commitIndex)) nd₁
  obtain ⟨evs₂, hx₂, hevs₂⟩ := foldl_resolve_history
    (List.range' (nd₁.commitIndex + 1) (id - nd₁.commitIndex)) nd₁
  have hx' : nd.history ++ (evs₁ ++ (evs₂ ++ [.committed nd₁.currentTerm id nd₁.log])) =
      nd.history ++ evs := by
    rw [← hx, ← List.append_assoc, ← hx₁, ← List.append_assoc, ← hx₂]
    rfl
  rw [← List.append_cancel_left hx'] at hp
  simp only [List.mem_append, hno, false_or, List.mem_singleton, reduceCtorEq, or_false] at hp
  obtain ⟨i, hi, q, hlookup, heq⟩ := hevs₂ _ hp
  cases heq
  have hitems : nd₁.core.itemsToResponse = nd.core.itemsToResponse := by rw [hcore]
  have hlog : nd₁.core.log = nd.core.log := by rw [hcore]
  refine ⟨i, hitems ▸ hlookup, hq.log.trans hlog, ?_⟩
  have := List.mem_range'_1.1 hi
  change i ≤ id
  omega

/-- A commit happens only as a tick begins. -/
theorem marks_everyCommit {p : Process} {a : Action} (h : a ≠ .beginTick) :
    p.marks everyCommit a = false := by
  cases a with
  | beginTick => exact absurd rfl h
  | handle => simp only [Process.marks]; split <;> rfl
  | endTick => simp [Process.marks, Hazard.marksAppends_eq_false, everyCommit]
  | _ => rfl

/-- A promise that an action answers as persisted was pending at an index that is committed after
it. -/
theorem process_persists {p p' : Process} {a : Action} (h : p.step (.act a) = some p')
    {evs : List Event} (hx : p'.node.history = p.node.history ++ evs) {q : PromiseId}
    (hq : .setValue q {} ∈ evs) :
    ∃ i, p.node.itemsToResponse.lookup i = some q ∧ p'.node.log = p.node.log ∧
      i ≤ p'.node.commitIndex := by
  rcases eq_or_ne a .beginTick with rfl | ha
  · obtain ⟨nd, -, hnode, rfl⟩ := Process.step_beginTick h
    exact beginTick_persists hnode hx hq
  · obtain ⟨evs', hx', hevs⟩ := moves_noNew_persists
      (Process.step_moves (g := fun _ _ => True) (fun _ _ => trivial) (marks_everyCommit ha) h)
    rw [hx'] at hx
    cases hevs _ (List.append_cancel_left hx ▸ hq)

/-- A promise that a step of the cluster answers as persisted was pending at an index that is
committed after it. -/
theorem cluster_persists {s s' : Cluster} {op : Op} (h : s.step op = some s') {i : NodeId}
    {evs : List Event} (hx : (s'.node i).history = (s.node i).history ++ evs) {q : PromiseId}
    (hq : .setValue q {} ∈ evs) :
    ∃ j, (s.node i).itemsToResponse.lookup j = some q ∧ (s'.node i).log = (s.node i).log ∧
      j ≤ (s'.node i).commitIndex := by
  have hsame : (s'.node i).history = (s.node i).history → False := by
    intro heq
    rw [heq] at hx
    rw [List.self_eq_append_right.1 hx] at hq
    cases hq
  rcases step_cases h with ⟨j, a, p, rfl, -, hp, rfl⟩ | ⟨k, pkt, rfl, -, rfl⟩ | ⟨k, rfl, rfl⟩
  · rw [update_node] at hx hsame ⊢
    rcases eq_or_ne i j with rfl | hne
    · rw [Function.update_self] at hx ⊢
      exact process_persists hp hx hq
    · rw [Function.update_of_ne hne] at hsame
      exact (hsame rfl).elim
  · refine (hsame ?_).elim
    rcases eq_or_ne i pkt.dst with rfl | hne
    · simp [node, addMessage]
    · simp [node, Function.update_of_ne hne]
  · exact (hsame rfl).elim

/-- Whenever a member answers the promise `p` of an `AddCommand` as persisted in the step from `s`
to `s'`, then `p` was pending under an index at which the log holds the entry that was appended for
`p`, with the command of that call, and the index is committed after the step. -/
def Cluster.AcknowledgesCommitted (s s' : Cluster) : Prop :=
  ∀ i ∈ s.members.ids, ∀ evs p, (s'.node i).history = (s.node i).history ++ evs →
    .setValue p {} ∈ evs →
    ∃ index item, (s.node i).itemsToResponse.lookup index = some p ∧
      .addCommand p item.command ∈ (s.node i).history ∧
      StillThere (s.node i).history p index item ∧ (s'.node i).log[index]? = some item ∧
      index ≤ (s'.node i).commitIndex

/-- **Acknowledged writes are committed**, in a run in which no request cuts off the log entry of a
pending promise. -/
theorem acknowledged_writes_committed (members : Members) (ops : List Op) (op : Op)
    (s s' : Cluster) (hrun : exec step ops (init members) = some s)
    (hstep : s.step op = some s')
    (havoid : Avoids step (marks losesPending) ops (init members) = true) :
    s.AcknowledgesCommitted s' := by
  intro i hi evs p hx hp
  rw [members_run hrun] at hi
  obtain ⟨index, hlookup, hlog, hle⟩ := cluster_persists hstep hx hp
  obtain ⟨item, h1, h2, h3⟩ := (pendingNode_run hrun havoid i hi).pending hlookup
  exact ⟨index, item, hlookup, h3, h2, hlog ▸ h1, hle⟩

/-- The leader of term 1 answers its first command. -/
theorem acknowledged_writes_committed_firstReplyRun :
    ∃ s s', exec step firstReplyRun (init threeMembers) = some s ∧
      s.step (.act 1 .beginTick) = some s' ∧ .setValue 0 {} ∈ (s'.node 1).history ∧
      s.AcknowledgesCommitted s' := by
  obtain ⟨s, hrun, hs⟩ : ∃ s, exec step firstReplyRun (init threeMembers) = some s ∧
      (s.step (.act 1 .beginTick)).any (fun s' => .setValue 0 {} ∈ (s'.node 1).history) = true :=
    exists_of_any (by decide +kernel)
  obtain ⟨s', hstep, hs'⟩ := (Option.any_eq_true _ _).1 hs
  exact ⟨s, s', hrun, hstep, of_decide_eq_true hs',
    acknowledged_writes_committed threeMembers _ _ s s' hrun hstep (by decide +kernel)⟩

/-- Node 1 appends "a" in term 1. Node 2 leads term 2 and appends "b", which replaces "a" in the log
of node 1. -/
def replacedEntryRun : List Op :=
  firstLeaderRun ++ .act 1 (.addCommand "a") :: tickOps 1 1 ++ tickOps 2 0 true ++
  tickOps 2 1 true ++ .deliver 8 :: tickOps 3 1 ++ tickOps 2 2 ++ .deliver 8 :: tickOps 2 2 ++
  .act 2 (.addCommand "b") :: tickOps 2 1 ++ tickOps 2 2 ++ .deliver 12 :: tickOps 1 3

/-- Node 1 leads term 3, and node 2 acknowledges "b" to it. -/
def replacedAckRun : List Op :=
  replacedEntryRun ++ tickOps 1 1 true ++ .deliver 15 :: tickOps 3 1 ++ tickOps 1 1 ++
  .deliver 15 :: tickOps 1 2 ++ .deliver 15 :: tickOps 2 3 ++ .deliver 16 :: tickOps 1 2 ++
  tickOps 1 2

/-- Node 1 commits "b" and answers the promise of "a". -/
theorem not_acknowledged_writes_committed :
    ¬ ∀ s s', exec step replacedAckRun (init threeMembers) = some s →
      s.step (.act 1 .beginTick) = some s' → s.AcknowledgesCommitted s' := by
  obtain ⟨s, hrun, hs⟩ : ∃ s, exec step replacedAckRun (init threeMembers) = some s ∧
      ((s.node 1).itemsToResponse.keys = {1} &&
        .addCommand 0 "b" ∉ (s.node 1).history &&
        (s.step (.act 1 .beginTick)).any fun s' =>
          .setValue 0 {} ∈ (s'.node 1).history.drop (s.node 1).history.length &&
          (s'.node 1).log[1]? = some { command := "b", leaderTerm := 2 } : Bool) = true :=
    exists_of_any (by decide +kernel)
  simp only [Bool.and_eq_true, decide_eq_true_eq] at hs
  obtain ⟨⟨hkeys, hadd⟩, hs⟩ := hs
  obtain ⟨s', hstep, hs'⟩ := (Option.any_eq_true _ _).1 hs
  simp only [Bool.and_eq_true, decide_eq_true_eq] at hs'
  obtain ⟨hset, hlog⟩ := hs'
  intro h
  obtain ⟨evs, hx⟩ := (step_later hstep 1).history
  rw [← hx, List.drop_left] at hset
  have hids := ids_threeMembers hrun
  obtain ⟨index, item, hlookup, hcommand, -, hitem, -⟩ :=
    h s s' hrun hstep 1 (by simp [hids]) evs 0 hx.symm hset
  have hmem : index ∈ (s.node 1).itemsToResponse.keys :=
    Finmap.mem_keys.2 (Finmap.mem_of_lookup_eq_some hlookup)
  obtain rfl : index = 1 := by simpa [hkeys] using hmem
  rw [hlog] at hitem
  cases hitem
  exact hadd hcommand

end ToFTDS.Consensus
