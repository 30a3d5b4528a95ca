import ToFTDS.Consensus.Promises

/-!
# Where the commands are

The promise of an `AddCommand` moves from `incoming_commands_` to `items_to_response_` when the
command is appended, or is answered with the id of a leader; from `items_to_response_` it goes when
it is answered as persisted, or when another promise takes its index (`node.cpp:430`) and destroys
it. Counting how often a promise is in each of these places (`Accounts`), the sum is always 1: it is
a conserved quantity of all moves. `overwritesPending` marks the moves in which a promise is
destroyed.

The statements are about one process with any messages, whoever sends them.
-/

namespace ToFTDS.Consensus

open Run Node

/-- A leader appends a command at an index under which a promise is still pending. -/
def overwritesPending : Hazard where
  appends nd := (nd.itemsToResponse.lookup nd.log.length).isSome

/-- The answer of the promise `q` with the id of a leader. -/
def Event.redirects (q : PromiseId) : Event → Bool
  | .setValue p result => p = q && result.leaderId.isSome
  | _ => false

/-! ## Counting pending promises -/

section
variable (m : Finmap (fun _ : Nat => PromiseId)) (i : Nat) (p q : PromiseId)

/-- The number of the indices of `q`. -/
def indicesOf : Nat := (m.keys.filter fun i => m.lookup i = some q).card

/-- Erasing an index takes it from the promise that held it. -/
theorem indicesOf_erase :
    indicesOf (m.erase i) q + (if m.lookup i = some q then 1 else 0) = indicesOf m q := by
  have hset : ((m.erase i).keys.filter fun j => (m.erase i).lookup j = some q) =
      (m.keys.filter fun j => m.lookup j = some q).erase i := by
    ext j
    rcases eq_or_ne j i with rfl | hne
    · simp
    · simp [Finmap.keys_erase, Finmap.lookup_erase_ne hne, hne]
  rw [indicesOf, hset]
  split
  · next h =>
    refine Finset.card_erase_add_one (Finset.mem_filter.2 ⟨?_, h⟩)
    exact Finmap.mem_keys.2 (Finmap.mem_of_lookup_eq_some h)
  · next h =>
    have hi : i ∉ m.keys.filter fun j => m.lookup j = some q :=
      fun hi => h (Finset.mem_filter.1 hi).2
    rw [Finset.erase_eq_of_notMem hi]
    rfl

/-- Inserting an index gives it to the promise, whatever was under it before. -/
theorem indicesOf_insert :
    indicesOf (m.insert i p) q = indicesOf (m.erase i) q + (if p = q then 1 else 0) := by
  have herase : (m.insert i p).erase i = m.erase i := by
    refine Finmap.ext_lookup fun j => ?_
    rcases eq_or_ne j i with rfl | hne
    · simp
    · simp [Finmap.lookup_erase_ne hne, Finmap.lookup_insert_of_ne _ hne]
  rw [← indicesOf_erase (m.insert i p) i q, herase, Finmap.lookup_insert]
  simp

end

/-! ## The places of a promise -/

namespace Node

/-- How often `q` is in `incoming_commands_`. -/
def queued (nd : Node) (q : PromiseId) : Nat := (nd.incomingCommands.map Prod.snd).count q

/-- The number of the indices under which `q` is in `items_to_response_`. -/
def pending (nd : Node) (q : PromiseId) : Nat :=
  indicesOf nd.itemsToResponse q

/-- How often `q` has been answered as persisted. -/
def persisted (nd : Node) (q : PromiseId) : Nat := nd.history.count (.setValue q {})

/-- How often `q` has been answered with the id of a leader. -/
def redirected (nd : Node) (q : PromiseId) : Nat := nd.history.countP (Event.redirects q)

/-- How often `q` has been destroyed. -/
def broken (nd : Node) (q : PromiseId) : Nat := nd.history.count (.brokenPromise q)

/-- How often the command of `q` has left the queue for the log. -/
def inLog (nd : Node) (q : PromiseId) : Nat := nd.pending q + nd.persisted q + nd.broken q

end Node

/-- The events that the accounts look at. -/
def Event.accounting : Event → Bool
  | .setValue .. | .brokenPromise .. | .appended .. => true
  | _ => false

/-- Every promise that has been made is in one place, and one whose command has been appended is not
in the queue any more. -/
structure Accounts (nd : Node) : Prop where
  places : ∀ q : Nat, nd.queued q + nd.redirected q + nd.inLog q = if q < nd.promises then 1 else 0
  appended : ∀ {q i item}, .appended q i item ∈ nd.history → 1 ≤ nd.inLog q

namespace Accounts

variable {nd nd' : Node}

/-- What has nothing to do with commands keeps it. -/
theorem same (h : Accounts nd) (hc : nd'.incomingCommands = nd.incomingCommands)
    (hi : nd'.itemsToResponse = nd.itemsToResponse) (hp : nd'.promises = nd.promises)
    (hev : NoNew Event.accounting nd nd') : Accounts nd' := by
  have hcount : ∀ e : Event, e.accounting = true → nd'.history.count e = nd.history.count e := by
    intro e he
    refine hev.countP fun e' he' => ?_
    rw [beq_iff_eq.1 he', he]
  have hlog : ∀ q, nd'.inLog q = nd.inLog q := by
    intro q
    rw [inLog, inLog, pending, pending, hi, persisted, persisted, hcount _ rfl, broken, broken,
      hcount _ rfl]
  refine ⟨fun q => ?_, fun hq => hlog _ ▸ h.appended (hev.mem hq rfl)⟩
  have hr : nd'.redirected q = nd.redirected q := by
    refine hev.countP fun e he => ?_
    cases e with
    | setValue => rfl
    | _ => cases he
  rw [hlog, hr, hp, queued, hc]
  exact h.places q

/-- Adding a command keeps the accounts. -/
theorem addCommand (h : Accounts nd) (command : Command) : Accounts (nd.addCommand command) := by
  have hlog : ∀ q, (nd.addCommand command).inLog q = nd.inLog q := by
    intro q
    simp [inLog, pending, persisted, broken, Node.addCommand]
  have hredirected : ∀ q, (nd.addCommand command).redirected q = nd.redirected q := by
    intro q
    simp [redirected, Node.addCommand, Event.redirects]
  have hqueued : ∀ q : Nat, (nd.addCommand command).queued q =
      nd.queued q + if nd.promises = q then 1 else 0 := by
    intro q
    simp [queued, Node.addCommand, List.count_singleton]
  refine ⟨fun q => ?_, fun {q i item} hmem => ?_⟩
  · have hq := h.places q
    rw [hlog, hredirected, hqueued]
    change _ = if q < nd.promises + 1 then 1 else 0
    rcases Nat.lt_trichotomy q nd.promises with hlt | rfl | hgt
    · rw [if_pos hlt] at hq
      rw [if_neg (by omega), if_pos (by omega)]
      exact hq
    · rw [if_neg (Nat.lt_irrefl _)] at hq
      rw [if_pos rfl, if_pos (Nat.lt_succ_self _)]
      omega
    · rw [if_neg (by omega)] at hq
      rw [if_neg (by omega), if_neg (by omega)]
      exact hq
  · rw [hlog]
    have hmem : .appended q i item ∈ nd.history := by simpa [Node.addCommand] using hmem
    exact h.appended hmem

/-- The queued promises are answered with the id of the leader. -/
theorem redirect (h : Accounts nd) (leaderId : NodeId) :
    Accounts (nd.redirectCommands leaderId) := by
  unfold redirectCommands
  split
  swap
  · exact h
  have hpersist : ∀ q, (nd.incomingCommands.map fun c =>
      Event.setValue c.2 { leaderId := some leaderId }).count (.setValue q {}) = 0 := by
    intro q
    rw [List.count_eq_zero]
    intro hmem
    obtain ⟨c, -, heq⟩ := List.mem_map.1 hmem
    cases heq
  have hbroken : ∀ q, (nd.incomingCommands.map fun c =>
      Event.setValue c.2 { leaderId := some leaderId }).count (.brokenPromise q) = 0 := by
    intro q
    rw [List.count_eq_zero]
    intro hmem
    obtain ⟨c, -, heq⟩ := List.mem_map.1 hmem
    cases heq
  have hredirect : ∀ q, (nd.incomingCommands.map fun c =>
      Event.setValue c.2 { leaderId := some leaderId }).countP (Event.redirects q) =
        (nd.incomingCommands.map Prod.snd).count q := by
    intro q
    rw [List.countP_map, List.count, List.countP_map]
    refine List.countP_congr fun c _ => ?_
    simp [Event.redirects]
  refine ⟨fun q => ?_, fun {q i item} hmem => ?_⟩
  · have hq := h.places q
    simp only [queued, redirected, inLog, pending, persisted, broken, List.map_nil, List.count_nil,
      List.countP_append, List.count_append, hpersist, hbroken, hredirect] at hq ⊢
    omega
  · have hmem : .appended q i item ∈ nd.history := by simpa using hmem
    have hq := h.appended hmem
    simp only [inLog, pending, persisted, broken, List.count_append, hpersist, hbroken] at hq ⊢
    omega

/-- A pending promise is answered as persisted. -/
theorem resolve (h : Accounts nd) (i : Nat) : Accounts (nd.resolve i) := by
  unfold Node.resolve
  split
  swap
  · exact h
  next p hp =>
  have hlog : ∀ q, ({ nd with itemsToResponse := nd.itemsToResponse.erase i }.emit
      (.setValue p {})).inLog q = nd.inLog q := by
    intro q
    have herase := indicesOf_erase nd.itemsToResponse i q
    rw [hp] at herase
    simp only [inLog, pending, persisted, broken, emit, List.count_append, List.count_singleton]
    rcases eq_or_ne p q with rfl | hne
    · simp at herase ⊢
      omega
    · have hne' : Event.setValue p {} ≠ Event.setValue q {} := by simp [hne]
      simp [hne, hne'] at herase ⊢
      omega
  refine ⟨fun q => ?_, fun {q j item} hmem => ?_⟩
  · rw [hlog]
    have hq := h.places q
    have hredirected : ({ nd with itemsToResponse := nd.itemsToResponse.erase i }.emit
        (.setValue p {})).redirected q = nd.redirected q := by
      simp [redirected, emit, Event.redirects]
    rw [hredirected]
    exact hq
  · rw [hlog]
    have hmem : .appended q j item ∈ nd.history := by simpa [emit] using hmem
    exact h.appended hmem

/-- Resolving indices one after the other keeps the accounts. -/
theorem foldl_resolve (l : List Nat) (h : Accounts nd) : Accounts (l.foldl Node.resolve nd) := by
  induction l generalizing nd with
  | nil => exact h
  | cons i l ih => exact ih (h.resolve i)

/-- A command goes from the queue to the log, and the promise that was pending at its index is
destroyed. -/
theorem append (h : Accounts nd) {command : Command × PromiseId}
    {rest : List (Command × PromiseId)} (hc : nd.incomingCommands = command :: rest) :
    Accounts ({ nd with incomingCommands := rest }.addNewCommand command) := by
  have hqueued : ∀ q : Nat, nd.queued q =
      ({ nd with incomingCommands := rest }.addNewCommand command).queued q +
        if command.2 = q then 1 else 0 := by
    intro q
    simp [queued, hc, addNewCommand, List.count_cons]
  have hredirected : ∀ q,
      ({ nd with incomingCommands := rest }.addNewCommand command).redirected q =
      nd.redirected q := by
    intro q
    simp only [redirected, addNewCommand, List.countP_append]
    cases nd.itemsToResponse.lookup nd.log.length <;> simp [Event.redirects]
  have hpersisted : ∀ q, ({ nd with incomingCommands := rest }.addNewCommand command).persisted q =
      nd.persisted q := by
    intro q
    simp only [persisted, addNewCommand, List.count_append]
    cases nd.itemsToResponse.lookup nd.log.length <;> simp
  have hbroken : ∀ q : Nat, ({ nd with incomingCommands := rest }.addNewCommand command).broken q =
      nd.broken q + if nd.itemsToResponse.lookup nd.log.length = some q then 1 else 0 := by
    intro q
    simp only [broken, addNewCommand, List.count_append]
    cases nd.itemsToResponse.lookup nd.log.length <;> simp [List.count_singleton]
  have hpending : ∀ q : Nat,
      ({ nd with incomingCommands := rest }.addNewCommand command).pending q +
          (if nd.itemsToResponse.lookup nd.log.length = some q then 1 else 0) =
        nd.pending q + if command.2 = q then 1 else 0 := by
    intro q
    have h1 := indicesOf_insert nd.itemsToResponse nd.log.length command.2 q
    have h2 := indicesOf_erase nd.itemsToResponse nd.log.length q
    change indicesOf (nd.itemsToResponse.insert nd.log.length command.2) q + _ =
      indicesOf nd.itemsToResponse q + _
    omega
  have hinLog : ∀ q : Nat, ({ nd with incomingCommands := rest }.addNewCommand command).inLog q =
      nd.inLog q + if command.2 = q then 1 else 0 := by
    intro q
    have h1 := hbroken q
    have h2 := hpending q
    rw [inLog, inLog, hpersisted]
    omega
  refine ⟨fun q => ?_, fun {q i item} hmem => ?_⟩
  · have hq := h.places q
    have h1 := hqueued q
    have h2 := hinLog q
    rw [hredirected]
    change _ = if q < nd.promises then 1 else 0
    omega
  · rw [hinLog]
    have hmem : .appended q i item ∈ nd.history ∨ q = command.2 := by
      simp only [addNewCommand, List.mem_append, List.mem_singleton, Event.appended.injEq] at hmem
      rcases hmem with (hmem | hmem) | ⟨hq, -⟩
      · exact .inl hmem
      · split at hmem <;> simp at hmem
      · exact .inr hq
    rcases hmem with hmem | rfl
    · exact Nat.le_add_right_of_le (h.appended hmem)
    · rw [if_pos rfl]
      exact Nat.le_add_left 1 _

end Accounts

/-- Every move keeps the accounts. -/
theorem accounts_move {z : Hazard} {g : NodeId → Message → Prop} {nd nd' : Node}
    (h : Accounts nd) (hm : Move z g nd nd') : Accounts nd' := by
  cases hm with
  | chore hch =>
    cases hch with
    | idle inc reqs queries evs hevs =>
      refine h.same rfl rfl rfl ⟨evs, rfl, fun e he => ?_⟩
      rw [hevs e he]
      rfl
    | answer => exact h.same rfl rfl rfl (⟨[_], rfl, by simp [Event.accounting]⟩)
    | addCommand command => exact h.addCommand command
    | redirect leaderId => exact h.redirect leaderId
  | observe | refused | matched | countVote => exact h.same rfl rfl rfl (noNew_of_history_eq rfl)
  | commit ls id =>
    exact (h.foldl_resolve (List.range' (nd.commitIndex + 1) (id - nd.commitIndex))).same
      rfl rfl rfl
      ⟨[_], rfl, by simp [Event.accounting]⟩
  | acceptEntries sender req =>
    exact h.same rfl rfl rfl ((noNew_accept (fun _ => rfl) nd req).trans
      (noNew_note (by simp [Event.accounting])))
  | append command rest hr hc => exact h.append hc
  | _ => exact h.same rfl rfl rfl (noNew_note (by simp [Event.accounting]))

/-- The destruction of a promise. -/
def Event.breaks : Event → Bool
  | .brokenPromise _ => true
  | _ => false

/-- A promise is destroyed only by one that takes its index. -/
theorem noNew_breaks {g : NodeId → Message → Prop} {nd nd' : Node}
    (h : Move overwritesPending g nd nd') : NoNew Event.breaks nd nd' := by
  cases h with
  | chore h =>
    exact h.noNew rfl (fun _ _ _ _ => rfl) (fun _ _ => rfl) (fun _ _ => rfl)
  | observe | refused | matched | countVote => exact noNew_of_history_eq rfl
  | commit ls id =>
    obtain ⟨evs, hx, hevs⟩ := foldl_resolve_history
      (List.range' (nd.commitIndex + 1) (id - nd.commitIndex)) nd
    refine NoNew.trans ⟨evs, hx, fun e he => ?_⟩ ⟨[_], rfl, by simp [Event.breaks]⟩
    obtain ⟨i, -, p, -, rfl⟩ := hevs e he
    rfl
  | acceptEntries sender req =>
    exact (noNew_accept (fun _ => rfl) nd req).trans (noNew_note (by simp [Event.breaks]))
  | append command rest hr hc hz =>
    have hnone : nd.itemsToResponse.lookup nd.log.length = none := by
      simpa [overwritesPending, core] using hz
    refine ⟨[.appended command.2 nd.log.length
        { command := command.1, leaderTerm := nd.currentTerm }],
      ?_, by simp [Event.breaks]⟩
    simp [addNewCommand, hnone]
  | _ => exact noNew_note (by simp [Event.breaks])

/-- Of every `AddCommand` so far, the number of times it is in the queue, of the indices under which
its promise is pending, of the answers as persisted and of the answers with the id of a leader add
up to 1; its promise has not been destroyed; and it has not been appended if it was answered with
the id of a leader. -/
def Node.CommandsAccounted (nd : Node) : Prop :=
  ∀ q < nd.promises, nd.queued q + nd.pending q + nd.persisted q + nd.redirected q = 1 ∧
    .brokenPromise q ∉ nd.history ∧
    ∀ leaderId i item, .setValue q { leaderId := some leaderId } ∈ nd.history →
      .appended q i item ∉ nd.history

/-- Where no promise is broken, every command is accounted for. -/
theorem Accounts.commandsAccounted {nd : Node} (h : Accounts nd)
    (hb : ∀ q, .brokenPromise q ∉ nd.history) : nd.CommandsAccounted := by
  intro q hq
  have hplaces := h.places q
  rw [if_pos hq, inLog, show nd.broken q = 0 from List.count_eq_zero.2 (hb q)] at hplaces
  refine ⟨by omega, hb q, fun leaderId i item hset happ => ?_⟩
  have hr : 0 < nd.redirected q := List.countP_pos_iff.2 ⟨_, hset, by simp [Event.redirects]⟩
  have hl := h.appended happ
  rw [inLog, show nd.broken q = 0 from List.count_eq_zero.2 (hb q)] at hl
  omega

/-- The process of a member of a cluster with these channels, as it starts. -/
def newProcess (myId : NodeId) (channels : List NodeId) : Process :=
  { node := Node.new myId channels }

/-- **No client command is lost or answered twice**, in a run in which the process appends no
command at an index under which a promise is pending. -/
theorem commands_accounted (myId : NodeId) (channels : List NodeId) (inputs : List Input)
    (p : Process) (hrun : exec Process.step inputs (newProcess myId channels) = some p)
    (havoid : Avoids Process.step (Process.marksInput overwritesPending) inputs
      (newProcess myId channels) = true) :
    p.node.CommandsAccounted := by
  have hI : Accounts p.node ∧ ∀ q, .brokenPromise q ∉ p.node.history := by
    refine Process.invariant_exec (I := fun nd => Accounts nd ∧ ∀ q, .brokenPromise q ∉ nd.history)
      ?_ ⟨⟨fun q => rfl, fun h => by cases h⟩, fun q h => by cases h⟩ hrun havoid
    intro nd nd' hI hm
    exact ⟨accounts_move hI.1 hm, fun q hq => hI.2 q ((noNew_breaks hm).mem hq rfl)⟩
  exact hI.1.commandsAccounted hI.2

/-- The inputs by which node 1 of three is elected in its term `t`, which it stands for in a tick
that handles `k` messages. -/
def electionInputs (t k : Nat) : List Input :=
  Process.tickActions k true ++
  [.addMessage 2
      (.requestVoteResponse { currentTerm := t, voteGranted := true, candidateTerm := t }),
    .addMessage 3
      (.requestVoteResponse { currentTerm := t, voteGranted := true, candidateTerm := t })] ++
  Process.tickActions 3 false

/-- Node 1 leads term 1 and appends "a" and "b". -/
def twoCommandsInputs : List Input :=
  electionInputs 1 0 ++ [.act (.addCommand "a"), .act (.addCommand "b")] ++
  Process.tickActions 2 false

/-- Node 1 leads term 1 with two commands, and the second one is pending. -/
theorem commands_accounted_twoCommandsInputs :
    ∃ p, exec Process.step twoCommandsInputs (newProcess 1 [2, 3]) = some p ∧
      p.node.promises = 2 ∧ p.node.pending 1 = 1 ∧ p.node.CommandsAccounted := by
  obtain ⟨p, hrun, hp⟩ : ∃ p, exec Process.step twoCommandsInputs (newProcess 1 [2, 3]) = some p ∧
      (p.node.promises = 2 && p.node.pending 1 = 1 : Bool) = true :=
    exists_of_any (by decide +kernel)
  simp only [Bool.and_eq_true, decide_eq_true_eq] at hp
  exact ⟨p, hrun, hp.1, hp.2, commands_accounted 1 [2, 3] _ p hrun (by decide +kernel)⟩

/-- Node 2 leads term 2 and replaces "a" and "b" by "c". Node 1 leads term 3 and appends "d", at the
index of "b". -/
def overwrittenCommandInputs : List Input :=
  twoCommandsInputs ++ .addMessage 2 (.appendEntriesRequest
    { leaderTerm := 2, leaderId := 2, prevLogIndex := 0, prevLogTerm := 0,
      entries := [{ command := "c", leaderTerm := 2 }], leaderCommit := 0 }) ::
  Process.tickActions 3 false ++ electionInputs 3 1 ++ .act (.addCommand "d") ::
  Process.tickActions 2 false

/-- The promise of "b" is destroyed. -/
theorem not_commands_accounted :
    ¬ ∀ p, exec Process.step overwrittenCommandInputs (newProcess 1 [2, 3]) = some p →
      p.node.CommandsAccounted := by
  obtain ⟨p, hrun, hp⟩ : ∃ p,
      exec Process.step overwrittenCommandInputs (newProcess 1 [2, 3]) = some p ∧
      (p.node.promises = 3 && .brokenPromise 1 ∈ p.node.history : Bool) = true :=
    exists_of_any (by decide +kernel)
  simp only [Bool.and_eq_true, decide_eq_true_eq] at hp
  intro h
  exact (h p hrun 1 (by omega)).2.1 hp.2

end ToFTDS.Consensus
