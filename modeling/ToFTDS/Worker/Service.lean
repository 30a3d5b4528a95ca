import ToFTDS.Consensus.Queries
import ToFTDS.Worker.KeyValueStore
import ToFTDS.Worker.Wire

/-!
# The key-value service on its node

A `Service` is a `KeyValueStoreImpl` with its consensus node and the calls that clients have made.
Each call first runs `ActualizeState`, which holds `lock_` while it waits for the node to answer its
`GetPersistentCommands`, and then does the rest, under the lock again if it looks at the storage.
Meanwhile the node takes any steps.

As long as the committed prefix of the node only grows, the storage is what the commands up to
`last_persisted_id_` make of it, and `ActualizeState` brings `last_persisted_id_` up to the commit
index at which its query was answered (`store_refines_log`).
-/

namespace ToFTDS.Worker

open Consensus Consensus.Node Run

/-- A call that has come in. -/
inductive Call where
  | read (key : Key)
  | write (key : Key) (value : Value)
  | dumpState
  deriving DecidableEq

/-- What a call has returned or printed. -/
inductive Response where
  /-- `ReadResponse` with its `value`. -/
  | read (value : Value)
  /-- `WriteResponse` with `value_persisted`. -/
  | valuePersisted
  /-- `WriteResponse` with `master_id`, an `int32`. -/
  | masterId (id : Int32)
  /-- The storage that `DumpState` prints. -/
  | dumped (storage : Storage Key Value)

/-- The store, its node, and the calls: the one that holds `lock_` in `ActualizeState`, with the
number of its query; those that have come through; and the writes that wait for their future. -/
structure Service where
  process : Process
  store : KeyValueStoreImpl := {}
  actualizing : Option (Call × QueryId) := none
  actualized : List Call := []
  writing : List PromiseId := []
  responses : List Response := []

/-- The second argument of `GetPersistentCommands` in `ActualizeState` (`worker.cpp:36`). -/
def maxCommands : UInt64 := 100000000

/-- A step of the service. -/
inductive Op where
  /-- A step of the node. -/
  | node (i : Input)
  /-- A call enters `ActualizeState` and asks the node. -/
  | enter (call : Call)
  /-- The future of the query is ready: the commands are handled and `lock_` is released. -/
  | actualize
  /-- The `k`-th call that has come through `ActualizeState` does the rest. -/
  | proceed (k : Nat)
  /-- The future of the `k`-th waiting write is ready. -/
  | respond (k : Nat)
  deriving DecidableEq

namespace Service

/-- The service as `main` builds it, with node `i` of the given channels. -/
def init (i : NodeId) (channels : List NodeId) : Service where
  process := { node := Node.new i channels }

/-- The consensus node. -/
def node (s : Service) : Node := s.process.node

/-- The service after something has been done to the node. -/
def setNode (s : Service) (nd : Node) : Service :=
  { s with process := { s.process with node := nd } }

/-- The rest of `Read` (`worker.cpp:61`), `Write` (`worker.cpp:73`) and `DumpState`
(`worker.cpp:86`) after `ActualizeState`. -/
def proceed (s : Service) : Call → Option Service
  | .read key =>
    if s.actualizing.isSome then none
    else
      some { s with responses := s.responses ++ [.read ((s.store.storage.get key).getD "")] }
  | .write key value =>
    some { s.setNode (s.node.addCommand (writeCommand key value)) with
      writing := s.writing ++ [s.node.promises] }
  | .dumpState =>
    if s.actualizing.isSome then none
    else some { s with responses := s.responses ++ [.dumped s.store.storage] }

/-- The response of `Write` (`worker.cpp:76`). -/
def writeResponse (result : AddCommandResult) : Response :=
  match result.leaderId with
  | none => .valuePersisted
  | some id => .masterId (toInt32 id)

/-- One step of the service. -/
def step (s : Service) : Op → Option Service
  | .node i => (s.process.step i).map fun p => { s with process := p }
  | .enter call =>
    if s.actualizing.isSome then none
    else
      some { s.setNode (s.node.getPersistentCommands (s.store.lastPersistedId + 1) maxCommands) with
        actualizing := some (call, s.node.queries) }
  | .actualize =>
    match s.actualizing with
    | some (call, q) =>
      (s.node.commandsOf q).map fun commands =>
        { s with
          store := s.store.handleCommands commands
          actualizing := none
          actualized := s.actualized ++ [call] }
    | none => none
  | .proceed k =>
    match s.actualized[k]? with
    | some call => { s with actualized := s.actualized.eraseIdx k }.proceed call
    | none => none
  | .respond k =>
    match s.writing[k]? with
    | some p =>
      (s.node.resultOf p).map fun result =>
        { s with
          writing := s.writing.eraseIdx k
          responses := s.responses ++ [writeResponse result] }
    | none => none

/-! ## Steps -/

/-- What a step does to the node, and to the store and the call that holds the lock. -/
theorem step_cases {s s' : Service} {op : Op} (h : s.step op = some s') :
    (∃ i p, op = .node i ∧ s.process.step i = some p ∧ s' = { s with process := p }) ∨
    (∃ call, op = .enter call ∧ s.actualizing = none ∧
      s'.node = s.node.getPersistentCommands (s.store.lastPersistedId + 1) maxCommands ∧
      s'.store = s.store ∧ s'.actualizing = some (call, s.node.queries)) ∨
    (∃ call q commands, op = .actualize ∧ s.actualizing = some (call, q) ∧
      s.node.commandsOf q = some commands ∧ s'.node = s.node ∧
      s'.store = s.store.handleCommands commands ∧ s'.actualizing = none) ∨
    ((∃ k, op = .proceed k ∨ op = .respond k) ∧
    (s'.node = s.node ∨ ∃ command, s'.node = s.node.addCommand command) ∧
      s'.store = s.store ∧ s'.actualizing = s.actualizing) := by
  cases op with
  | node i =>
    obtain ⟨p, hp, rfl⟩ := Option.map_eq_some_iff.1 h
    exact .inl ⟨i, p, rfl, hp, rfl⟩
  | enter call =>
    simp only [step] at h
    split at h
    · cases h
    · next hnone =>
      cases h
      exact .inr (.inl ⟨call, rfl, by simpa using hnone, rfl, rfl, rfl⟩)
  | actualize =>
    simp only [step] at h
    split at h
    · next call q hq =>
      obtain ⟨commands, hc, rfl⟩ := Option.map_eq_some_iff.1 h
      exact .inr (.inr (.inl ⟨call, q, commands, rfl, hq, hc, rfl, rfl, rfl⟩))
    · cases h
  | proceed k =>
    refine .inr (.inr (.inr ⟨⟨k, .inl rfl⟩, ?_⟩))
    simp only [step] at h
    split at h
    · next call _ =>
      cases call with
      | write key value =>
        cases h
        exact ⟨.inr ⟨_, rfl⟩, rfl, rfl⟩
      | read | dumpState =>
        simp only [proceed] at h
        split at h
        · cases h
        · cases h
          exact ⟨.inl rfl, rfl, rfl⟩
    · cases h
  | respond k =>
    refine .inr (.inr (.inr ⟨⟨k, .inr rfl⟩, ?_⟩))
    simp only [step] at h
    split at h
    · obtain ⟨result, -, rfl⟩ := Option.map_eq_some_iff.1 h
      exact ⟨.inl rfl, rfl, rfl⟩
    · cases h

end Service

/-! ## Replaying the log -/

/-- What the storage has become after the commands, in order. -/
def replay (commands : List Command) : Storage Key Value :=
  commands.foldl (fun storage command =>
    storage.set (parseCommand command).1 (parseCommand command).2) {}

/-- More commands are replayed on top of the first ones. -/
theorem replay_append (commands commands' : List Command) :
    replay (commands ++ commands') = commands'.foldl (fun storage command =>
      storage.set (parseCommand command).1 (parseCommand command).2) (replay commands) :=
  List.foldl_append

namespace KeyValueStoreImpl

/-- Handling commands writes their values in order. -/
theorem handleCommands_storage (kv : KeyValueStoreImpl) (commands : List Command) :
    (kv.handleCommands commands).storage = commands.foldl (fun storage command =>
      storage.set (parseCommand command).1 (parseCommand command).2) kv.storage := by
  induction commands generalizing kv with
  | nil => rfl
  | cons command commands ih => exact ih (kv.handleCommand command)

/-- Handling commands counts them, if the counter does not wrap. -/
theorem handleCommands_lastPersistedId (kv : KeyValueStoreImpl) (commands : List Command)
    (h : kv.lastPersistedId.toNat + commands.length < 2 ^ 64) :
    (kv.handleCommands commands).lastPersistedId.toNat =
      kv.lastPersistedId.toNat + commands.length := by
  induction commands generalizing kv with
  | nil => rfl
  | cons command commands ih =>
    rw [List.length_cons] at h ⊢
    have hadd :
        (kv.handleCommand command).lastPersistedId.toNat = kv.lastPersistedId.toNat + 1 := by
      change (kv.lastPersistedId + 1).toNat = _
      rw [UInt64.toNat_add, UInt64.toNat_one]
      omega
    refine (ih (kv.handleCommand command) (by omega)).trans ?_
    omega

end KeyValueStoreImpl

/-- The committed prefix of the node is still there. -/
def CommittedGrows (nd nd' : Node) : Prop :=
  nd.commitIndex ≤ nd'.commitIndex ∧ nd.log.take (nd.commitIndex + 1) <+: nd'.log

instance (nd nd' : Node) : Decidable (CommittedGrows nd nd') :=
  inferInstanceAs (Decidable (_ ∧ _))

/-- A slice of the committed prefix is still there. -/
theorem CommittedGrows.slice {nd nd' : Node} (h : CommittedGrows nd nd') {a n : Nat}
    (hc : a + n ≤ nd.commitIndex + 1) (hl : a + n ≤ nd.log.length) :
    (nd'.log.drop a).take n = (nd.log.drop a).take n := by
  obtain ⟨-, rest, hrest⟩ := h
  have hlen : a + n ≤ (nd.log.take (nd.commitIndex + 1)).length := by
    rw [List.length_take]
    omega
  rw [← hrest, List.drop_append_of_le_length (by omega), List.take_append_of_le_length,
    List.drop_take,
    List.take_take, Nat.min_eq_left (by omega)]
  rw [List.length_drop]
  omega

/-- A committed index of the log is still in it. -/
theorem CommittedGrows.lt {nd nd' : Node} (h : CommittedGrows nd nd') {i : Nat}
    (hc : i ≤ nd.commitIndex) (hl : i < nd.log.length) : i < nd'.log.length := by
  have := h.2.length_le
  rw [List.length_take] at this
  omega

/-- `commands` are those of the log behind index `last`, as far as they are committed at most. -/
structure Answers (nd : Node) (last : Nat) (commands : List Command) : Prop where
  eq : commands = ((nd.log.drop (last + 1)).take commands.length).map LogItem.command
  le : last + commands.length ≤ nd.commitIndex
  lt : last + commands.length < nd.log.length
  bound : last + commands.length + 1 < 2 ^ 64

/-- An answer stays one while the committed prefix grows. -/
theorem Answers.grow {nd nd' : Node} (hg : CommittedGrows nd nd') {last : Nat}
    {commands : List Command} (h : Answers nd last commands) : Answers nd' last commands where
  eq := by
    have hle := h.le
    have hlt := h.lt
    rw [hg.slice (by omega) (by omega)]
    exact h.eq
  le := Nat.le_trans h.le hg.1
  lt := hg.lt h.le h.lt
  bound := h.bound

/-- A query from behind `last` on is answered with such commands. -/
theorem answers_window {nd : Node} {last : UInt64} (hle : last.toNat ≤ nd.commitIndex)
    (hlt : last.toNat < nd.log.length) (hb : last.toNat + 1 < 2 ^ 64) (count : UInt64) :
    Answers nd last.toNat (window nd.log (last + 1) count nd.commitIndex) := by
  have hstart : (last + 1).toNat = last.toNat + 1 := by
    rw [UInt64.toNat_add, UInt64.toNat_one]
    omega
  have hend := (last + 1 + count).toNat_lt
  have hlen : (window nd.log (last + 1) count nd.commitIndex).length =
      min (min (last + 1 + count).toNat (nd.commitIndex + 1)) nd.log.length
        - (last.toNat + 1) := by
    rw [window, List.length_map, List.length_drop, List.length_take, hstart]
  refine ⟨?_, by omega, by omega, by omega⟩
  rw [hlen, window, hstart, List.drop_take]
  refine congrArg _ (List.take_eq_take_iff.2 ?_)
  rw [List.length_drop]
  omega

namespace Service

/-- The storage is what the commands at the indices up to `last_persisted_id_` make, in order, and
these are committed. -/
structure Refines (s : Service) : Prop where
  storage : s.store.storage =
    replay (((s.node.log.drop 1).take s.store.lastPersistedId.toNat).map LogItem.command)
  le : s.store.lastPersistedId.toNat ≤ s.node.commitIndex

/-- What every step keeps: the query of the call in `ActualizeState` waits or has been answered with
the commands behind `last_persisted_id_`. -/
structure Replays (s : Service) : Prop where
  refines : s.Refines
  ids : QueryIds s.node
  lt : s.store.lastPersistedId.toNat < s.node.log.length
  bound : s.store.lastPersistedId.toNat + 1 < 2 ^ 64
  waiting : ∀ {call q}, s.actualizing = some (call, q) →
    (q, s.store.lastPersistedId + 1, maxCommands) ∈ s.node.getPersistentCommandsReqs ∨
      ∃ start count commands, .setCommands q start count commands ∈ s.node.history ∧
        Answers s.node s.store.lastPersistedId.toNat commands

/-- The node has gone on, and the store is as it was. -/
theorem Replays.next {s s' : Service} (h : s.Replays) (hg : CommittedGrows s.node s'.node)
    (hs : s'.store = s.store) (hids : QueryIds s'.node)
    (hw : ∀ {call q}, s'.actualizing = some (call, q) →
      (q, s.store.lastPersistedId + 1, maxCommands) ∈ s'.node.getPersistentCommandsReqs ∨
        ∃ start count commands, .setCommands q start count commands ∈ s'.node.history ∧
          Answers s'.node s.store.lastPersistedId.toNat commands) : s'.Replays where
  refines := by
    have hle := h.refines.le
    have hlt := h.lt
    refine ⟨?_, hs ▸ Nat.le_trans hle hg.1⟩
    rw [hs, hg.slice (by omega) (by omega)]
    exact h.refines.storage
  ids := hids
  lt := hs ▸ hg.lt h.refines.le h.lt
  bound := hs ▸ h.bound
  waiting := hs ▸ hw

/-- The call that holds the lock handles its commands. -/
theorem Replays.handle {s s' : Service} (h : s.Replays) {commands : List Command}
    (ha : Answers s.node s.store.lastPersistedId.toNat commands) (hn : s'.node = s.node)
    (hs : s'.store = s.store.handleCommands commands) (hnone : s'.actualizing = none) :
    s'.Replays := by
  have hb := ha.bound
  have hlast : s'.store.lastPersistedId.toNat =
      s.store.lastPersistedId.toNat + commands.length := by
    rw [hs]
    exact KeyValueStoreImpl.handleCommands_lastPersistedId _ _ (by omega)
  refine ⟨⟨?_, ?_⟩, hn ▸ h.ids, ?_, by omega, fun hc => ?_⟩
  · rw [hs, KeyValueStoreImpl.handleCommands_storage, h.refines.storage, ← replay_append, ← hs,
      hlast, hn, List.take_add, List.map_append, List.drop_drop, Nat.add_comm 1, ← ha.eq]
  · rw [hlast, hn]
    exact ha.le
  · rw [hlast, hn]
    exact ha.lt
  · rw [hnone] at hc
    cases hc

/-- A step after which the committed prefix of the node is no longer there. -/
def losesCommitted (s : Service) (op : Op) : Bool :=
  match s.step op with
  | some s' => !decide (CommittedGrows s.node s'.node)
  | none => false

/-- A step that loses nothing committed keeps the committed prefix. -/
theorem committedGrows_of_step {s s' : Service} {op : Op} (h : s.step op = some s')
    (hz : s.losesCommitted op = false) : CommittedGrows s.node s'.node := by
  simpa [losesCommitted, h] using hz

/-- Every step that loses nothing committed keeps the store a replay. -/
theorem replays_step {s s' : Service} {op : Op} (hI : s.Replays) (hz : s.losesCommitted op = false)
    (h : s.step op = some s') : s'.Replays := by
  have hg := committedGrows_of_step h hz
  rcases step_cases h with ⟨i, p, rfl, hp, rfl⟩ | ⟨call, rfl, hnone, hn, hs, ha⟩ |
    ⟨call, q, commands, rfl, hq, hc, hn, hs, ha⟩ | ⟨-, hn, hs, ha⟩
  · -- a step of the node: the query keeps waiting, or is answered now, or has been answered
    refine hI.next hg rfl (Process.queryIds_step hI.ids hp) fun {call q} hq => ?_
    have hx : s.node.history <+: p.node.history := (Process.step_later hp).history
    rcases hI.waiting hq with hreq | ⟨start, count, commands, hev, hans⟩
    · rcases Process.step_queries hp with ⟨start, count, heq⟩ | ⟨-, hk⟩ | hk
      · left
        change _ ∈ p.node.getPersistentCommandsReqs
        rw [heq]
        exact List.mem_append_left _ hreq
      · have hev := hk.history.isPrefix.subset (mem_answerAll.2 (.inr ⟨hreq, rfl⟩))
        exact .inr ⟨_, _, _, hev,
          (answers_window hI.refines.le hI.lt hI.bound maxCommands).grow hg⟩
      · exact .inl (hk.reqs ▸ hreq)
    · exact .inr ⟨start, count, commands, hx.subset hev, hans.grow hg⟩
  · refine hI.next hg hs (hn ▸ queryIds_getPersistentCommands hI.ids _ _) fun {call' q} hq => ?_
    rw [ha] at hq
    cases hq
    left
    rw [hn]
    have hne : s.store.lastPersistedId + 1 ≠ 0 := by
      intro h0
      have h1 := congrArg UInt64.toNat h0
      have hb := hI.bound
      rw [UInt64.toNat_add, UInt64.toNat_one] at h1
      simp only [UInt64.toNat_zero] at h1
      omega
    simp [getPersistentCommands, hne]
  · rcases hI.waiting hq with hreq | ⟨start, count, commands', hev, hans⟩
    · obtain ⟨start, count, hev⟩ := mem_of_commandsOf_eq_some hc
      exact absurd rfl (hI.ids.apart hev _ hreq)
    · obtain rfl : commands = commands' :=
        Option.some.inj (hc.symm.trans (commandsOf_eq hI.ids hev))
      exact hI.handle hans hn hs ha
  · rcases hn with hn | ⟨command, hn⟩
    · exact hI.next hg hs (hn ▸ hI.ids) fun {call q} hq => hn ▸ hI.waiting (ha ▸ hq)
    · have hk : KeepsQueries s.node s'.node := by
        rw [hn]
        exact ⟨rfl, rfl, [_], rfl, by simp [Event.answersQuery]⟩
      refine hI.next hg hs (hk.queryIds hI.ids) fun {call q} hq => ?_
      rcases hI.waiting (ha ▸ hq) with hreq | ⟨start, count, commands, hev, hans⟩
      · exact .inl (hk.reqs ▸ hreq)
      · exact .inr ⟨start, count, commands, hk.history.isPrefix.subset hev, hans.grow hg⟩

/-- An empty store is a replay of nothing. -/
theorem replays_init (i : NodeId) (channels : List NodeId) : (init i channels).Replays where
  refines := ⟨rfl, Nat.le_refl _⟩
  ids := ⟨nofun, nofun, nofun, List.nodup_nil, nofun⟩
  lt := Nat.zero_lt_one
  bound := Nat.one_lt_two_pow (by decide)
  waiting h := by cases h

/-- After a run that loses nothing committed the store is a replay. -/
theorem replays_exec {s s' : Service} {ops : List Op} (hI : s.Replays)
    (hrun : exec step ops s = some s') (hgrows : Avoids step losesCommitted ops s = true) :
    s'.Replays :=
  exec_invariant (fun _ _ _ hI hz h => replays_step hI hz h) hI hrun hgrows

/-- A run in which one call runs `ActualizeState`, from `s` to `s'`. Its query is answered by the
tick that begins in `t`, and up to there the committed prefix of the node only grows. -/
def Actualizes (s t s' : Service) : Prop :=
  ∃ call before t' after u,
    exec step (.enter call :: before) s = some t ∧
    Avoids step losesCommitted (.enter call :: before) s = true ∧
    (∀ op ∈ before, op ≠ .actualize) ∧
    (∃ req ∈ t.node.getPersistentCommandsReqs, req.1 = s.node.queries) ∧
    t.step (.node (.act .beginTick)) = some t' ∧
    exec step after t' = some u ∧ (∀ op ∈ after, op ≠ .actualize) ∧
    u.step .actualize = some s'

/-- While a call holds the lock the store does not change and nobody else gets in. -/
theorem held_step {s s' : Service} {op : Op} {call : Call} {q : QueryId}
    (ha : s.actualizing = some (call, q)) (hop : op ≠ .actualize) (h : s.step op = some s') :
    s'.actualizing = some (call, q) ∧ s'.store = s.store ∧
      s.node.history <+: s'.node.history ∧ (QueryIds s.node → QueryIds s'.node) := by
  rcases step_cases h with ⟨i, p, rfl, hp, rfl⟩ | ⟨call', rfl, hnone, -⟩ |
    ⟨call', q', commands, rfl, -⟩ | ⟨⟨k, -⟩, hn, hs, ha'⟩
  · exact ⟨ha, rfl, (Process.step_later hp).history, fun hI => Process.queryIds_step hI hp⟩
  · rw [hnone] at ha
    cases ha
  · exact absurd rfl hop
  · refine ⟨ha'.trans ha, hs, ?_⟩
    rcases hn with hn | ⟨command, hn⟩ <;> rw [hn]
    · exact ⟨List.prefix_refl _, id⟩
    · have hk : KeepsQueries s.node (s.node.addCommand command) :=
        ⟨rfl, rfl, [_], rfl, by simp [Event.answersQuery]⟩
      exact ⟨hk.history.isPrefix, hk.queryIds⟩

/-- While a call holds the lock a run leaves the store alone, and forgets nothing. -/
theorem held_exec {s s' : Service} {ops : List Op} {call : Call} {q : QueryId}
    (ha : s.actualizing = some (call, q)) (hops : ∀ op ∈ ops, op ≠ .actualize)
    (hrun : exec step ops s = some s') :
    s'.actualizing = some (call, q) ∧ s'.store = s.store ∧
      s.node.history <+: s'.node.history ∧ (QueryIds s.node → QueryIds s'.node) := by
  refine exec_invariant_ops (I := fun t => t.actualizing = some (call, q) ∧ t.store = s.store ∧
    s.node.history <+: t.node.history ∧ (QueryIds s.node → QueryIds t.node)) ?_ hops
    ⟨ha, rfl, List.prefix_refl _, id⟩ hrun
  rintro t op t' hop ⟨h1, h2, h3, h4⟩ h
  obtain ⟨h1', h2', h3', h4'⟩ := held_step h1 hop h
  exact ⟨h1', h2'.trans h2, h3.trans h3', h4' ∘ h4⟩

/-- The call that gets into `ActualizeState`. -/
theorem enter_eq {s s' : Service} {call : Call} (h : s.step (.enter call) = some s') :
    s.actualizing = none ∧
      s'.node = s.node.getPersistentCommands (s.store.lastPersistedId + 1) maxCommands ∧
      s'.store = s.store ∧ s'.actualizing = some (call, s.node.queries) := by
  rcases step_cases h with ⟨i, p, h, -⟩ | ⟨call', h, hrest⟩ | ⟨call', q, commands, h, -⟩ |
    ⟨⟨k, h | h⟩, -⟩
  · cases h
  · cases h
    exact hrest
  all_goals cases h

/-- The call that leaves `ActualizeState`. -/
theorem actualize_eq {s s' : Service} {call : Call} {q : QueryId} {commands : List Command}
    (h : s.step .actualize = some s') (ha : s.actualizing = some (call, q))
    (hc : s.node.commandsOf q = some commands) : s'.store = s.store.handleCommands commands := by
  simp only [step, ha, hc, Option.map_some, Option.some.injEq] at h
  rw [← h]

/-- A query for all that is committed, of less than `maxCommands`. -/
theorem length_window {nd : Node} {last : UInt64} (hle : last.toNat ≤ nd.commitIndex)
    (hlen : nd.log.length ≤ 2 ^ 63) (hlt : last.toNat < nd.log.length)
    (hfew : nd.commitIndex - last.toNat < maxCommands.toNat) {commands : List Command}
    (hok : nd.persistentCommands (last + 1) maxCommands = .ok commands) :
    last.toNat + commands.length = nd.commitIndex := by
  have hmax : maxCommands.toNat = 100000000 := rfl
  have hstart : (last + 1).toNat = last.toNat + 1 := by
    rw [UInt64.toNat_add, UInt64.toNat_one]
    omega
  have hend : (last + 1 + maxCommands).toNat = last.toNat + 1 + maxCommands.toNat := by
    rw [UInt64.toNat_add, hstart]
    omega
  have hin := hok
  unfold persistentCommands at hin
  have hreach := mapM_logAt_ok hin
  rw [persistentCommands_ok hok, window, List.length_map, List.length_drop, List.length_take, hend,
    hstart]
  rw [hend, hstart] at hreach
  omega

/-- **The store refines its committed log.** As long as the committed prefix only grows, the storage
is the left fold of `Set` over the parsed commands at the indices up to `last_persisted_id_`, which
is at most the commit index; and `ActualizeState` brings it up to the commit index at which its
query was answered, if that is fewer than `maxCommands` ahead. (No vector holds more than 2^63
items.) -/
theorem store_refines_log (i : NodeId) (channels : List NodeId) (ops : List Op) (s : Service)
    (hrun : exec step ops (init i channels) = some s)
    (hgrows : Avoids step losesCommitted ops (init i channels) = true) :
    s.Refines ∧ ∀ t s', Actualizes s t s' → t.node.log.length ≤ 2 ^ 63 →
      t.node.commitIndex - s.store.lastPersistedId.toNat < maxCommands.toNat →
      s'.store.lastPersistedId.toNat =
        max s.store.lastPersistedId.toNat t.node.commitIndex := by
  have hI := replays_exec (replays_init i channels) hrun hgrows
  refine ⟨hI.refines, ?_⟩
  rintro t s' ⟨call, before, t', after, u, hbefore, hgrows', hops, hreq, htick, hafter, hops', hact⟩
    hlen hfew
  -- the call has the lock, so that nothing happens to the store before it is done
  have hIt := replays_exec hI hbefore hgrows'
  obtain ⟨s₁, henter, hbefore⟩ := exec_cons_eq.1 hbefore
  obtain ⟨-, -, hs₁, ha₁⟩ := enter_eq henter
  obtain ⟨hat, hst, -, -⟩ := held_exec ha₁ hops hbefore
  rw [hs₁] at hst
  obtain ⟨hat', hst', -, hids⟩ := held_step hat (by simp) htick
  obtain ⟨hau, hsu, hxu, hids'⟩ := held_exec hat' hops' hafter
  -- the query still waits in `t`, and is answered with all that is committed there
  obtain ⟨p, hp, rfl⟩ := Option.map_eq_some_iff.1 htick
  obtain ⟨hok, hk⟩ := Process.beginTick_queries hp
  have hwait : (s.node.queries, t.store.lastPersistedId + 1, maxCommands) ∈
      t.node.getPersistentCommandsReqs := by
    rcases hIt.waiting hat with hwait | ⟨start, count, commands, hev, -⟩
    · exact hwait
    · obtain ⟨req, hmem, heq⟩ := hreq
      exact absurd heq (hIt.ids.apart hev req hmem)
  obtain ⟨commands, hcommands⟩ : ∃ commands, commands =
      window t.node.log (t.store.lastPersistedId + 1) maxCommands t.node.commitIndex := ⟨_, rfl⟩
  have hlength : t.store.lastPersistedId.toNat + commands.length = t.node.commitIndex :=
    length_window hIt.refines.le hlen hIt.lt (hst ▸ hfew)
      (hcommands ▸ persistentCommands_of_ok hok _ hwait)
  -- what the future holds at the end is this answer
  have hev : .setCommands s.node.queries (t.store.lastPersistedId + 1) maxCommands commands ∈
      u.node.history :=
    hxu.subset (hk.history.isPrefix.subset (mem_answerAll.2 (.inr ⟨hwait, hcommands⟩)))
  have hs' := actualize_eq hact hau (commandsOf_eq (hids' (hids hIt.ids)) hev)
  have hbound := (answers_window hIt.refines.le hIt.lt hIt.bound maxCommands).bound
  rw [← hcommands] at hbound
  rw [hs', hsu, hst', KeyValueStoreImpl.handleCommands_lastPersistedId _ _ (by omega), ← hst]
  omega

/-- The steps of a tick of the node that nobody interrupts and that handles `k` messages. -/
def tickOps (k : Nat) (expired : Bool := false) : List Op :=
  .node (.act .beginTick) ::
    (List.replicate k (.node (.act .handle)) ++ [.node (.act (.endTick expired))])

/-- Node 1 is alone. A client writes `y` to `x`, node 1 is elected, and the write is answered. -/
def firstWriteRun : List Op :=
  .enter (.write "x" "y") :: tickOps 0 true ++ [.actualize, .proceed 0] ++ tickOps 1 ++ tickOps 1 ++
    tickOps 1 ++ tickOps 2 ++ tickOps 2 ++ tickOps 2 ++ tickOps 2 ++ [.respond 0]

/-- The read of `x` after it finds the query answered in the first tick. -/
def readRun : List Op := [.node (.act .handle), .node (.act .handle), .node (.act (.endTick false))]

/-- A client's write is in the store when a later call has actualized it. -/
theorem store_refines_log_firstWriteRun :
    ∃ s t s', exec step firstWriteRun (init 1 []) = some s ∧ s.Refines ∧ Actualizes s t s' ∧
      s'.store.lastPersistedId.toNat = max s.store.lastPersistedId.toNat t.node.commitIndex := by
  obtain ⟨s, hrun, hs⟩ : ∃ s, exec step firstWriteRun (init 1 []) = some s ∧
      (Avoids step losesCommitted [.enter (.read "x")] s &&
        (exec step [.enter (.read "x")] s).any fun t =>
          decide (t.node.getPersistentCommandsReqs.map Prod.fst = [s.node.queries]) &&
          decide (t.node.log.length = 2) && decide (t.node.commitIndex = 1) &&
          (t.step (.node (.act .beginTick))).any fun t' =>
            (exec step readRun t').any fun u => (u.step .actualize).isSome) = true :=
    exists_of_any (by decide +kernel)
  simp only [Bool.and_eq_true, Option.any_eq_true, Option.isSome_iff_exists, decide_eq_true_eq]
    at hs
  obtain ⟨hread, t, ht, ⟨⟨hreqs, hlen⟩, hcommit⟩, t', htick, u, hu, s', hs'⟩ := hs
  have hreq : ∃ req ∈ t.node.getPersistentCommandsReqs, req.1 = s.node.queries := by
    rw [← List.mem_map, hreqs]
    exact List.mem_singleton_self _
  have hact : Actualizes s t s' :=
    ⟨.read "x", [], t', readRun, u, ht, hread, by simp, hreq, htick, hu, by decide, hs'⟩
  obtain ⟨href, hup⟩ := store_refines_log 1 [] firstWriteRun s hrun (by decide +kernel)
  refine ⟨s, t, s', hrun, href, hact, hup t s' hact ?_ ?_⟩
  · rw [hlen]
    decide
  · rw [hcommit, show maxCommands.toNat = 100000000 from rfl]
    omega

end Service

end ToFTDS.Worker
