import ToFTDS.Consensus.Provenance
import ToFTDS.Worker.Deployment

/-!
# Acknowledged writes are read

A `Write` is answered with `value_persisted` once the node has answered its command as persisted.
From then on the command is committed on this worker (`Acked`), and any later call that runs
`ActualizeState` brings the store at least so far. So it finds the value there, unless a later
command has overwritten it (`acknowledged_writes_read`).
-/

namespace ToFTDS.Consensus

open Node

/-- The events that put an item into the log. -/
def Event.isAppended : Event → Bool
  | .appended .. => true
  | _ => false

/-- Nothing is appended at the place of the sentinel. -/
structure Placed (nd : Node) : Prop where
  nonempty : 0 < nd.log.length
  appended : ∀ {p index item}, .appended p index item ∈ nd.history → 1 ≤ index

/-- The invariant survives a change that appends nothing and leaves a log. -/
theorem Placed.frame {nd nd' : Node} (h : Placed nd) (hlen : 0 < nd'.log.length)
    (hev : NoNew Event.isAppended nd nd') : Placed nd' :=
  ⟨hlen, fun happ => h.appended (hev.mem happ rfl)⟩

/-- A move appends behind the sentinel only. -/
theorem placed_move {z : Hazard} {g : NodeId → Message → Prop} {nd nd' : Node} (h : Placed nd)
    (hm : Move z g nd nd') : Placed nd' := by
  cases hm with
  | chore hc =>
    refine h.frame (hc.quiet.log ▸ h.nonempty) ?_
    exact hc.noNew rfl (fun _ _ _ _ => rfl) (fun _ _ => rfl) (fun _ _ => rfl)
  | commit ls id =>
    have hq := quiet_foldl_resolve (List.range' (nd.commitIndex + 1) (id - nd.commitIndex)) nd
    refine h.frame ?_ (noNew_commit (fun _ => rfl) (fun _ _ _ => rfl) _ _ _ _ _)
    rw [emit, hq.log]
    exact h.nonempty
  | acceptEntries sender req resp hg hs ht hprev =>
    obtain ⟨item, hitem, -⟩ := hprev
    refine h.frame ?_ ((noNew_accept (fun _ => rfl) nd req).trans
      (noNew_note (by simp [Event.isAppended])))
    have hzero : (splice (req.prevLogIndex + 1) req.entries nd.log)[0]? = nd.log[0]? :=
      getElem?_splice_of_lt (List.getElem?_eq_some_iff.1 hitem).1 (Nat.succ_pos req.prevLogIndex)
    rw [List.getElem?_eq_getElem h.nonempty] at hzero
    exact (List.getElem?_eq_some_iff.1 hzero).1
  | observe | refused | matched | countVote =>
    exact h.frame h.nonempty (noNew_of_history_eq rfl)
  | append command rest =>
    refine ⟨by simp [addNewCommand], fun {p index item} happ => ?_⟩
    simp only [addNewCommand, List.mem_append, List.mem_singleton, Event.appended.injEq] at happ
    rcases happ with (happ | happ) | ⟨-, rfl, -⟩
    · exact h.appended happ
    · split at happ <;> simp at happ
    · exact h.nonempty
  | refuseEntries | refuseVote | grantVote | becomeLeader | sendEntries | stand =>
    exact h.frame h.nonempty (noNew_note (by simp [Event.isAppended]))

/-- Every command that has been answered as persisted is committed at some index. -/
def Acked (nd : Node) : Prop :=
  ∀ p : PromiseId, .setValue p {} ∈ nd.history → ∃ index item,
    .addCommand p item.command ∈ nd.history ∧ 1 ≤ index ∧ index ≤ nd.commitIndex ∧
      nd.log[index]? = some item

end ToFTDS.Consensus

namespace ToFTDS.Worker

open Consensus Consensus.Node Run

/-- What is committed is still there. -/
theorem CommittedGrows.getElem? {nd nd' : Node} (h : CommittedGrows nd nd') {i : Nat}
    {item : LogItem} (hi : i ≤ nd.commitIndex) (hitem : nd.log[i]? = some item) :
    nd'.log[i]? = some item := by
  obtain ⟨-, rest, hrest⟩ := h
  have hlt := (List.getElem?_eq_some_iff.1 hitem).1
  rw [← hrest, List.getElem?_append_left, List.getElem?_take_of_lt (Nat.lt_succ_of_le hi), hitem]
  rw [List.length_take]
  omega

/-- The committed prefix is still there if nothing has happened. -/
theorem CommittedGrows.refl (nd : Node) : CommittedGrows nd nd :=
  ⟨Nat.le_refl _, List.take_prefix _ _⟩

/-- A committed prefix that is kept twice in a row is kept. -/
theorem CommittedGrows.trans {nd nd₁ nd' : Node} (h : CommittedGrows nd nd₁)
    (h' : CommittedGrows nd₁ nd') : CommittedGrows nd nd' := by
  refine ⟨Nat.le_trans h.1 h'.1, ?_⟩
  have htake := (h.2.take (nd.commitIndex + 1))
  rw [List.take_take, Nat.min_self] at htake
  exact htake.trans ((List.take_prefix_take_left (by have := h.1; omega)).trans h'.2)

namespace Service

/-- To the process of a service a step is one of its own, or none. -/
theorem step_input {s s' : Service} {op : Op} (h : s.step op = some s') :
    s'.process = s.process ∨ ∃ i, s.process.step i = some s'.process ∧
      (op = .node i ∨ (∃ start maxCount, i = .act (.getPersistentCommands start maxCount)) ∨
        ∃ command, i = .act (.addCommand command)) := by
  cases hown : Deployment.own op with
  | true =>
    refine (step_process hown h).imp id fun ⟨a, hp, hop⟩ => ⟨.act a, hp, ?_⟩
    rcases hop with ⟨hop, -⟩ | ⟨start, maxCount, rfl⟩ | ⟨key, value, -, rfl⟩
    · exact .inl hop
    · exact .inr (.inl ⟨start, maxCount, rfl⟩)
    · exact .inr (.inr ⟨_, rfl⟩)
  | false =>
    cases op with
    | node i =>
      obtain ⟨p, hp, rfl⟩ := Option.map_eq_some_iff.1 h
      exact .inr ⟨i, hp, .inl rfl⟩
    | _ => cases hown

/-- The hazard marks the next step, if it is one of the node. -/
def marks (z : Hazard) (s : Service) : Op → Bool
  | .node i => s.process.marksInput z i
  | _ => false

/-- A step after which the committed prefix is no longer there, or in which the entry of a pending
promise is cut off. -/
def forgets (s : Service) (op : Op) : Bool := s.losesCommitted op || s.marks losesPending op

/-- What every step keeps. -/
structure Remembers (s : Service) : Prop where
  replays : s.Replays
  pending : PendingNode s.node
  ids : PromiseIds s.node
  placed : Placed s.node
  acked : Acked s.node

/-- Every step that forgets nothing keeps what the service remembers. -/
theorem remembers_step {s s' : Service} {op : Op} (hI : s.Remembers) (hz : s.forgets op = false)
    (h : s.step op = some s') : s'.Remembers := by
  obtain ⟨hgrows, hpending⟩ := Bool.or_eq_false_iff.1 hz
  have hg := committedGrows_of_step h hgrows
  have hreplays := replays_step hI.replays hgrows h
  rcases step_input h with heq | ⟨i, hp, hop⟩
  · have hnode : s'.node = s.node := congrArg Process.node heq
    exact ⟨hreplays, hnode ▸ hI.pending, hnode ▸ hI.ids, hnode ▸ hI.placed, hnode ▸ hI.acked⟩
  have hmark : s.process.marksInput losesPending i = false := by
    rcases hop with rfl | ⟨start, maxCount, rfl⟩ | ⟨command, rfl⟩
    · exact hpending
    · rfl
    · rfl
  have hrun : exec Process.step [i] s.process = some s'.process := exec_cons_eq.2 ⟨_, hp, rfl⟩
  have havoid : Avoids Process.step (Process.marksInput losesPending) [i] s.process = true := by
    simp [Avoids, hmark, hp]
  obtain ⟨hpend, hids, hplaced⟩ := Process.invariant_exec
    (I := fun nd => PendingNode nd ∧ PromiseIds nd ∧ Placed nd)
    (fun nd nd' hI hm => ⟨pendingNode_move (Hazard.Le.refl _) hI.1 hm,
      promiseIds_move hI.2.1 hm, placed_move hI.2.2 hm⟩)
    ⟨hI.pending, hI.ids, hI.placed⟩ hrun havoid
  refine ⟨hreplays, hpend, hids, hplaced, fun p hp' => ?_⟩
  obtain ⟨evs, hevs⟩ := (Process.step_later hp).history
  change s.node.history ++ evs = s'.node.history at hevs
  rw [← hevs] at hp' ⊢
  rcases List.mem_append.1 hp' with hp' | hp'
  · -- it was committed before
    obtain ⟨index, item, hadd, h1, hle, hitem⟩ := hI.acked p hp'
    exact ⟨index, item, List.mem_append_left _ hadd, h1, Nat.le_trans hle hg.1,
      hg.getElem? hle hitem⟩
  · -- it is committed now
    cases i with
    | addMessage sender msg =>
      have hsame : s'.node.history = s.node.history := by
        rw [Service.node, ← Option.some.inj hp]
        rfl
      rw [List.self_eq_append_right.1 (hsame.symm.trans hevs.symm)] at hp'
      cases hp'
    | act a =>
      obtain ⟨index, hlookup, hlog, hle⟩ := process_persists hp hevs.symm hp'
      obtain ⟨item, hitem, ⟨h₁, h₂, hhist, -⟩, hadd⟩ := hI.pending.pending hlookup
      have happ : .appended p index item ∈ s.node.history := by
        rw [hhist]
        simp
      exact ⟨index, item, List.mem_append_left _ hadd, hI.placed.appended happ, hle, hlog ▸ hitem⟩

/-- There is nothing to remember at the start. -/
theorem remembers_init (i : NodeId) (channels : List NodeId) : (init i channels).Remembers where
  replays := replays_init i channels
  pending := ⟨nofun, nofun⟩
  ids := ⟨nofun, nofun⟩
  placed := ⟨Nat.zero_lt_one, nofun⟩
  acked p hp := by cases hp

/-- The committed prefix is still there after a run that loses none of it. -/
theorem committedGrows_exec {s s' : Service} {ops : List Op} (hrun : exec step ops s = some s')
    (hgrows : Avoids step losesCommitted ops s = true) : CommittedGrows s.node s'.node := by
  refine exec_invariant (I := fun t => CommittedGrows s.node t.node) ?_ (.refl _) hrun hgrows
  exact fun t op t' h hz ht => h.trans (committedGrows_of_step ht hz)

/-- A call that runs `ActualizeState` leaves the store with what was committed when its query was
answered. -/
theorem actualizes_storage {s t s' : Service} (hI : s.Replays) (h : Actualizes s t s')
    (hlen : t.node.log.length ≤ 2 ^ 63)
    (hfew : t.node.commitIndex - s.store.lastPersistedId.toNat < maxCommands.toNat) :
    CommittedGrows s.node t.node ∧
      t.node.commitIndex ≤ s'.store.lastPersistedId.toNat ∧
      s'.store.lastPersistedId.toNat < t.node.log.length ∧
      s'.store.storage = replay
        (((t.node.log.drop 1).take s'.store.lastPersistedId.toNat).map LogItem.command) := by
  obtain ⟨call, before, t', after, u, hbefore, hgrows, hops, ⟨req, hreq, hid⟩, htick, hafter, hops',
    hact⟩ := h
  have hIt := replays_exec hI hbefore hgrows
  refine ⟨committedGrows_exec hbefore hgrows, ?_⟩
  obtain ⟨s₁, henter, hbefore⟩ := exec_cons_eq.1 hbefore
  obtain ⟨-, -, hs₁, ha₁⟩ := enter_eq henter
  obtain ⟨hat, hst, -, -⟩ := held_exec ha₁ hops hbefore
  rw [hs₁] at hst
  obtain ⟨hat', hst', -, hids⟩ := held_step hat (by simp) htick
  obtain ⟨hau, hsu, hxu, hids'⟩ := held_exec hat' hops' hafter
  -- the query waits in `t`, and its answer is in the history from the next step on
  have hwait : (s.node.queries, t.store.lastPersistedId + 1, maxCommands) ∈
      t.node.getPersistentCommandsReqs := by
    rcases hIt.waiting hat with hwait | ⟨start, count, commands, hev, -⟩
    · exact hwait
    · exact absurd hid (hIt.ids.apart hev req hreq)
  obtain ⟨p, hp, rfl⟩ := Option.map_eq_some_iff.1 htick
  obtain ⟨hok, hk⟩ := Process.beginTick_queries hp
  obtain ⟨commands, hcommands⟩ : ∃ commands, commands =
      window t.node.log (t.store.lastPersistedId + 1) maxCommands t.node.commitIndex := ⟨_, rfl⟩
  have hev : .setCommands s.node.queries (t.store.lastPersistedId + 1) maxCommands commands ∈
      u.node.history :=
    hxu.subset (hk.history.isPrefix.subset (mem_answerAll.2 (.inr ⟨hwait, hcommands⟩)))
  have hs' : s'.store = t.store.handleCommands commands := by
    rw [actualize_eq hact hau (commandsOf_eq (hids' (hids hIt.ids)) hev), hsu, hst']
  have hlength : t.store.lastPersistedId.toNat + commands.length = t.node.commitIndex :=
    length_window hIt.refines.le hlen hIt.lt (hst ▸ hfew)
      (hcommands ▸ persistentCommands_of_ok hok _ hwait)
  have hans : Answers t.node t.store.lastPersistedId.toNat commands :=
    hcommands ▸ answers_window hIt.refines.le hIt.lt hIt.bound maxCommands
  have hlast : s'.store.lastPersistedId.toNat = t.node.commitIndex := by
    have := hans.bound
    rw [hs', KeyValueStoreImpl.handleCommands_lastPersistedId _ _ (by omega), hlength]
  -- `t` with the store brought up to date
  have hdone : Replays { t with store := t.store.handleCommands commands, actualizing := none } :=
    hIt.handle hans rfl rfl rfl
  rw [hlast, ← hlength]
  refine ⟨Nat.le_refl _, hans.lt, ?_⟩
  rw [hlength, ← hlast, hs']
  exact hdone.refines.storage

/-- The last command for a key decides what is stored under it. -/
theorem get_replay_append {key : Key} {value : Value} {pre post : List Command} {command : Command}
    (hparse : parseCommand command = (key, value))
    (hpost : ∀ command ∈ post, (parseCommand command).1 ≠ key) :
    (replay (pre ++ command :: post)).get key = some value := by
  have hkept : ∀ (post : List Command) (storage : Storage Key Value),
      (∀ command ∈ post, (parseCommand command).1 ≠ key) →
      (post.foldl (fun storage command =>
        storage.set (parseCommand command).1 (parseCommand command).2) storage).get key =
        storage.get key := by
    intro post
    induction post with
    | nil => exact fun _ _ => rfl
    | cons c post ih =>
      intro storage hpost
      rw [List.foldl_cons, ih _ fun c' hc' => hpost c' (List.mem_cons_of_mem _ hc'),
        Storage.get_set_of_ne _ _ (hpost c List.mem_cons_self).symm]
  rw [replay_append, List.foldl_cons, hkept post _ hpost, hparse, Storage.get_set]

/-- **Acknowledged writes are read.** If the command of a `Write` has been answered as persisted,
then in every run without steps that forget anything whatever call runs `ActualizeState` afterwards
leaves a store that has handled this command; and it finds the value unless a later command is for
the same key. -/
theorem acknowledged_writes_read (i : NodeId) (channels : List NodeId) (ops : List Op) (s : Service)
    (hrun : exec step ops (init i channels) = some s)
    (havoid : Avoids step forgets ops (init i channels) = true) {p : PromiseId} {key : Key}
    {value : Value} (hadd : .addCommand p (writeCommand key value) ∈ s.node.history)
    (hack : s.node.resultOf p = some {}) {t s' : Service} (hact : Actualizes s t s')
    (hlen : t.node.log.length ≤ 2 ^ 63)
    (hfew : t.node.commitIndex - s.store.lastPersistedId.toNat < maxCommands.toNat) :
    ∃ pre post, s'.store.storage = replay (pre ++ writeCommand key value :: post) ∧
      pre.length + 1 + post.length = s'.store.lastPersistedId.toNat ∧
      (key ≠ "" → NoBlank isspace key.toList → NoBlank isspace value.toList →
        (∀ command ∈ post, (parseCommand command).1 ≠ key) →
        s'.store.storage.get key = some value) := by
  have hI := exec_invariant (fun _ _ _ hI hz h => remembers_step hI hz h)
    (remembers_init i channels) hrun havoid
  have hpersisted : .setValue p {} ∈ s.node.history := by
    obtain ⟨e, he, heq⟩ := List.exists_of_findSome?_eq_some hack
    cases e with
    | setValue p' result =>
      dsimp only at heq
      split at heq
      · next hp =>
        cases heq
        exact hp ▸ he
      · cases heq
    | _ => cases heq
  obtain ⟨index, item, hadd', h1, hle, hitem⟩ := hI.acked p hpersisted
  have hcommand := hI.ids.once hadd' hadd
  obtain ⟨hgrows, hcommit, hlt, hstorage⟩ := actualizes_storage hI.replays hact hlen hfew
  have hitem := hgrows.getElem? hle hitem
  have hindex : index ≤ s'.store.lastPersistedId.toNat :=
    Nat.le_trans hle (Nat.le_trans hgrows.1 hcommit)
  have hlength : (((t.node.log.drop 1).take s'.store.lastPersistedId.toNat).map
      LogItem.command).length = s'.store.lastPersistedId.toNat := by
    rw [List.length_map, List.length_take, List.length_drop]
    omega
  have hmem : writeCommand key value ∈
      ((t.node.log.drop 1).take s'.store.lastPersistedId.toNat).map LogItem.command := by
    refine List.mem_map.2 ⟨item, List.mem_of_getElem? (i := index - 1) ?_, hcommand⟩
    rw [List.getElem?_take_of_lt (by omega), List.getElem?_drop, ← hitem]
    exact congrArg _ (by omega)
  obtain ⟨pre, post, hsplit⟩ := List.append_of_mem hmem
  rw [hsplit] at hlength hstorage
  refine ⟨pre, post, hstorage, ?_, fun hne hk hv hpost => ?_⟩
  · rw [List.length_append, List.length_cons] at hlength
    omega
  · rw [hstorage]
    exact get_replay_append (parseCommand_writeCommand hne hk hv) hpost

/-- Node 1, which is alone, has acknowledged that `y` is written to `x`, and somebody who reads `x`
finds `y`. -/
theorem acknowledged_writes_read_firstWriteRun :
    ∃ s t s', exec step firstWriteRun (init 1 []) = some s ∧ Actualizes s t s' ∧
      s'.store.lastPersistedId = 1 ∧ s'.store.storage.get "x" = some "y" := by
  obtain ⟨s, hrun, hs⟩ : ∃ s, exec step firstWriteRun (init 1 []) = some s ∧
      (decide (.addCommand 0 (writeCommand "x" "y") ∈ s.node.history) &&
        decide (s.node.resultOf 0 = some {}) &&
        Avoids step losesCommitted [.enter (.read "x")] s &&
        (exec step [.enter (.read "x")] s).any fun t =>
          decide (t.node.getPersistentCommandsReqs.map Prod.fst = [s.node.queries]) &&
          decide (t.node.log.length = 2) && decide (t.node.commitIndex = 1) &&
          (t.step (.node (.act .beginTick))).any fun t' =>
            (exec step readRun t').any fun u => (u.step .actualize).any fun s' =>
              decide (s'.store.lastPersistedId = 1)) = true :=
    exists_of_any (by decide +kernel)
  simp only [Bool.and_eq_true, Option.any_eq_true, decide_eq_true_eq] at hs
  obtain ⟨⟨⟨hadd, hack⟩, hread⟩, t, ht, ⟨⟨hreqs, hlen⟩, hcommit⟩, t', htick, u, hu, s', hs',
    hone⟩ := hs
  have hreq : ∃ req ∈ t.node.getPersistentCommandsReqs, req.1 = s.node.queries := by
    rw [← List.mem_map, hreqs]
    exact List.mem_singleton_self _
  have hact : Actualizes s t s' :=
    ⟨.read "x", [], t', readRun, u, ht, hread, by simp, hreq, htick, hu, by decide, hs'⟩
  obtain ⟨pre, post, -, hlength, hfinds⟩ := acknowledged_writes_read 1 [] firstWriteRun s hrun
    (by decide +kernel) hadd hack hact (by rw [hlen]; decide)
    (by rw [hcommit, show maxCommands.toNat = 100000000 from rfl]; omega)
  -- the store has handled one command, so no later one is for `x`
  have hpost : post = [] := by
    have honly : s'.store.lastPersistedId.toNat = 1 := by rw [hone]; rfl
    exact List.length_eq_zero_iff.1 (by omega)
  refine ⟨s, t, s', hrun, hact, hone, hfinds (by decide) ?_ ?_ (by simp [hpost])⟩ <;>
    decide

end Service

end ToFTDS.Worker
