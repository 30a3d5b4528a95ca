import ToFTDS.Consensus.Moves

/-!
# Runs of processes and clusters

A step of a process is a sequence of moves of its node (`Process.step_moves`), and what the process
has still to handle was delivered to it or comes from itself (`Process.step_pending`). In a cluster
every such message has been sent by a member (`Cluster.Conserved`). So the invariant rule for
clusters (`Cluster.invariant_exec`) asks of an invariant no more than that it is kept by a single
move of a member that handles only messages that the members' histories show as sent.
-/

namespace ToFTDS.Consensus

open Run Node

/-! ## Processes -/

namespace Node

/-- Answering the queries leaves the inboxes alone. -/
theorem handleGetPersistentCommandRequests_incoming {nd nd' : Node}
    (h : nd.handleGetPersistentCommandRequests = .ok nd') : nd'.incoming = nd.incoming :=
  (moves_handleGetPersistentCommandRequests (z := {}) (g := fun _ _ => True) h).2.2

/-- Resolving indices leaves the inboxes alone. -/
theorem foldl_resolve_incoming (l : List Nat) (nd : Node) :
    (l.foldl resolve nd).incoming = nd.incoming := by
  induction l generalizing nd with
  | nil => rfl
  | cons i l ih =>
    rw [List.foldl_cons, ih, resolve]
    split <;> rfl

/-- The commit scan leaves the inboxes alone. -/
theorem commitIfPossible_incoming {nd nd' : Node} (h : nd.commitIfPossible = .ok nd') :
    nd'.incoming = nd.incoming := by
  rcases commitIfPossible_ok h with rfl | ⟨ls, id, -, -, rfl⟩
  · rfl
  · exact foldl_resolve_incoming _ nd

/-- Beginning a tick leaves the inboxes alone. -/
theorem beginTick_incoming {nd nd' : Node} (h : nd.beginTick = .ok nd') :
    nd'.incoming = nd.incoming := by
  obtain ⟨nd₁, h1, h2⟩ := bind_eq_ok.1 h
  rw [← handleGetPersistentCommandRequests_incoming h1]
  split at h2
  · exact commitIfPossible_incoming h2
  · cases h2
    rfl

/-- Appending commands leaves the inboxes alone. -/
theorem foldl_addNewCommand_incoming (commands : List (Command × PromiseId)) (nd : Node) :
    (commands.foldl addNewCommand nd).incoming = nd.incoming := by
  induction commands generalizing nd with
  | nil => rfl
  | cons command commands ih =>
    rw [List.foldl_cons, ih]
    rfl

/-- The end of a tick puts into the inboxes what the node sends to itself. -/
theorem endTick_incoming {nd nd' : Node} {asLeader expired : Bool}
    (h : nd.endTick asLeader expired = .ok nd') {m : NodeId × Message}
    (hm : m ∈ nd'.incoming.messages) :
    m ∈ nd.incoming.messages ∨ m.1 = nd.myId ∧ .send nd.myId m.2 ∈ nd'.history := by
  unfold endTick at h
  split at h
  · unfold finishTickLeader at h
    split at h
    · next hr =>
      obtain ⟨nd₁, h1, h2⟩ := bind_eq_ok.1 h
      cases h2
      obtain ⟨l, rfl, -⟩ := sendAppendEntriesToAll_ok hr h1
      rw [addNewCommandsToLog, foldl_addNewCommand_incoming] at hm
      have hl := (moves_foldl_addNewCommand (z := {}) (g := fun _ _ => True)
        (nd.sendEach l).incomingCommands (nd.sendEach l) (by rw [sendEach_eq]; exact hr)
        (Hazard.marksAppends_eq_false (fun _ => rfl) _ _)).later
      exact ((grows_sendEach l nd).incoming m hm).imp id fun h => ⟨h.1, hl.history.subset h.2⟩
    · cases h
      exact .inl hm
  · cases h
    cases expired with
    | false => exact .inl hm
    | true =>
      change m ∈ nd.becomeCandidate.incoming.messages at hm
      change _ ∨ _ ∧ _ ∈ nd.becomeCandidate.history
      rw [becomeCandidate_eq] at hm ⊢
      exact (grows_sendEach _ _).incoming m hm

/-- The commit scan keeps the role. -/
theorem commitIfPossible_role {nd nd' : Node} (h : nd.commitIfPossible = .ok nd') :
    nd'.role = nd.role := by
  rcases commitIfPossible_ok h with rfl | ⟨ls, id, -, -, rfl⟩
  · rfl
  · exact (quiet_foldl_resolve _ nd).role

/-- A tick is its beginning, the handling of the messages, and its end. -/
theorem tick_eq (nd : Node) (expired : Bool) :
    nd.tick expired = nd.beginTick >>= fun nd₁ =>
      nd₁.handleIncomingMessages >>= fun nd₂ => nd₂.endTick (nd₁.role = .kLeader) expired := by
  unfold tick beginTick
  rw [bind_assoc]
  refine congrArg _ (funext fun nd₁ => ?_)
  cases hr : nd₁.role with
  | kLeader =>
    cases hc : nd₁.commitIfPossible with
    | error e => simp [tickLeader, hc, bind, Except.bind]
    | ok nd₂ =>
      have hr₂ : nd₂.role = .kLeader := (commitIfPossible_role hc).trans hr
      simp [tickLeader, hc, hr₂, endTick, bind, Except.bind]
  | kFollower | kCandidate =>
    simp [tickCandidate, tickFollower, hr, endTick, bind, Except.bind, pure, Except.pure]

end Node

namespace Process

/-- The messages that the process has still to handle. -/
def pending (p : Process) : List (NodeId × Message) :=
  p.node.incoming.messages ++ ((p.ticking.map Ticking.todo).getD [])

/-- The hazard marks the next action. -/
def marks (z : Hazard) (p : Process) : Action → Bool
  | .beginTick => p.node.role = .kLeader && z.commits p.node.core
  | .handle =>
    match p.ticking with
    | some { todo := m :: _, .. } => z.handles (p.node.settle m.2).core m.1 m.2
    | _ => false
  | .endTick _ =>
    p.ticking.any Ticking.asLeader && p.node.role = .kLeader &&
      z.marksAppends p.node p.node.incomingCommands
  | _ => false

@[simp] theorem marks_empty (p : Process) (a : Action) : p.marks {} a = false := by
  cases a with
  | beginTick => exact Bool.and_false _
  | endTick => simp [marks, Hazard.marksAppends_eq_false]
  | handle => simp only [marks]; split <;> rfl
  | _ => rfl

/-- A tick begins between two ticks, and takes the inboxes over. -/
theorem step_beginTick {p p' : Process} (h : p.step (.act .beginTick) = some p') :
    ∃ nd, p.ticking = none ∧ p.node.beginTick = .ok nd ∧
      p' = { node := { nd with incoming := {} }
             ticking :=
               some { asLeader := nd.role = .kLeader, todo := nd.incoming.messages } } := by
  simp only [step] at h
  split at h
  · next htick hnode => exact ⟨_, htick, hnode, (Option.some.inj h).symm⟩
  · cases h

/-- A message is handled within a tick that has it to do. -/
theorem step_handle {p p' : Process} (h : p.step (.act .handle) = some p') :
    ∃ asLeader m rest nd, p.ticking = some { asLeader, todo := m :: rest } ∧
      p.node.handleMessage m.1 m.2 = .ok nd ∧
      p' = { node := nd, ticking := some { asLeader, todo := rest } } := by
  simp only [step] at h
  split at h
  · next htick =>
    split at h
    · next hnode => exact ⟨_, _, _, _, htick, hnode, (Option.some.inj h).symm⟩
    · cases h
  · cases h

/-- A tick ends when it has nothing left to do. -/
theorem step_endTick {p p' : Process} {expired : Bool}
    (h : p.step (.act (.endTick expired)) = some p') :
    ∃ asLeader nd, p.ticking = some { asLeader, todo := [] } ∧
      p.node.endTick asLeader expired = .ok nd ∧ p' = { node := nd } := by
  simp only [step] at h
  split at h
  · next htick =>
    split at h
    · next hnode => exact ⟨_, _, htick, hnode, (Option.some.inj h).symm⟩
    · cases h
  · cases h

/-- Each action is a sequence of moves. -/
theorem step_moves {z : Hazard} {g : NodeId → Message → Prop} {p p' : Process} {a : Action}
    (hg : ∀ m ∈ p.pending, g m.1 m.2) (hz : p.marks z a = false)
    (h : p.step (.act a) = some p') : Moves z g p.node p'.node := by
  cases a with
  | addCommand command =>
    cases h
    exact (Chore.addCommand p.node command).moves
  | getPersistentCommands start maxCount =>
    cases h
    have hq := Chore.idle p.node p.node.incoming
      (p.node.getPersistentCommands start maxCount).getPersistentCommandsReqs
      (p.node.queries + 1) [] (by simp)
    rw [List.append_nil] at hq
    exact hq.moves
  | beginTick =>
    obtain ⟨nd, -, hnode, rfl⟩ := step_beginTick h
    refine (moves_beginTick (fun hr => ?_) hnode).trans (moves_incoming nd {})
    simpa [marks, hr] using hz
  | handle =>
    obtain ⟨asLeader, m, rest, nd, htick, hnode, rfl⟩ := step_handle h
    simp only [marks, htick] at hz
    exact moves_handleMessage (hg m (by simp [pending, htick])) hz hnode
  | endTick expired =>
    obtain ⟨asLeader, nd, htick, hnode, rfl⟩ := step_endTick h
    refine moves_endTick (fun has hr => ?_) hnode
    simpa [marks, htick, has, hr] using hz

/-- The hazard marks the next action, if the input is one. -/
def marksInput (z : Hazard) (p : Process) : Input → Bool
  | .act a => p.marks z a
  | .addMessage .. => false

/-- A delivery is a chore. -/
theorem addMessage_moves {z : Hazard} {g : NodeId → Message → Prop} (nd : Node) (sender : NodeId)
    (msg : Message) : Moves z g nd (nd.addMessage sender msg) := moves_incoming nd _

/-- Every step continues the life of the node. -/
theorem step_later {p p' : Process} {i : Input} (h : p.step i = some p') :
    Later p.node p'.node := by
  cases i with
  | act a =>
    exact (step_moves (g := fun _ _ => True) (fun _ _ => trivial) (marks_empty p a) h).later
  | addMessage sender msg =>
    cases h
    exact (addMessage_moves (z := {}) (g := fun _ _ => True) _ _ _).later

/-- What is to be handled after a step was to be handled before, or was delivered in the step, or
has been sent by the node to itself. -/
theorem step_pending {p p' : Process} {i : Input} (h : p.step i = some p')
    {m : NodeId × Message} (hm : m ∈ p'.pending) :
    m ∈ p.pending ∨ i = .addMessage m.1 m.2 ∨
      m.1 = p.node.myId ∧ .send p.node.myId m.2 ∈ p'.node.history := by
  cases i with
  | addMessage sender msg =>
    cases h
    rcases List.mem_append.1 hm with hm | hm
    · rcases (mem_messages_add _ _ _ _).1 hm with hm | rfl
      · exact .inl (List.mem_append_left _ hm)
      · exact .inr (.inl rfl)
    · exact .inl (List.mem_append_right _ hm)
  | act a =>
    cases a with
    | addCommand command =>
      cases h
      exact .inl hm
    | getPersistentCommands start maxCount =>
      cases h
      exact .inl hm
    | beginTick =>
      obtain ⟨nd, -, hnode, rfl⟩ := step_beginTick h
      left
      rcases List.mem_append.1 hm with hm | hm
      · cases hm
      · change m ∈ nd.incoming.messages at hm
        rw [beginTick_incoming hnode] at hm
        exact List.mem_append_left _ hm
    | handle =>
      obtain ⟨asLeader, m', rest, nd, htick, hnode, rfl⟩ := step_handle h
      rcases List.mem_append.1 hm with hm | hm
      · rcases (grows_handleMessage hnode).incoming m hm with hm | hm
        · exact .inl (List.mem_append_left _ hm)
        · exact .inr (.inr hm)
      · left
        refine List.mem_append_right _ ?_
        rw [htick]
        exact List.mem_cons_of_mem _ hm
    | endTick expired =>
      obtain ⟨asLeader, nd, -, hnode, rfl⟩ := step_endTick h
      rcases List.mem_append.1 hm with hm | hm
      · rcases endTick_incoming hnode hm with hm | hm
        · exact .inl (List.mem_append_left _ hm)
        · exact .inr (.inr hm)
      · cases hm

/-- The invariant rule for one process, which may be sent anything. -/
theorem invariant_exec {z : Hazard} {I : Node → Prop}
    (hmove : ∀ nd nd', I nd → Move z (fun _ _ => True) nd nd' → I nd')
    {p p' : Process} {inputs : List Input} (hI : I p.node)
    (hrun : exec step inputs p = some p') (hz : Avoids step (marksInput z) inputs p = true) :
    I p'.node := by
  refine exec_invariant (I := fun p => I p.node) ?_ hI hrun hz
  intro p i p' hI hz h
  have hmoves : ∀ nd, Moves z (fun _ _ => True) p.node nd → I nd := by
    intro nd h
    induction h with
    | refl => exact hI
    | tail _ hm ih => exact hmove _ _ ih hm
  cases i with
  | act a => exact hmoves _ (step_moves (fun _ _ => trivial) hz h)
  | addMessage sender msg =>
    cases h
    exact hmoves _ (addMessage_moves _ _ _)

/-! ### A tick that nobody interrupts -/

/-- The handling of the messages of a tick one after the other. -/
theorem exec_handle (l : List (NodeId × Message)) (nd : Node) (asLeader : Bool) :
    exec step (List.replicate l.length (.act .handle))
        { node := nd, ticking := some { asLeader, todo := l } } =
      (l.foldlM (fun (nd : Node) m => nd.handleMessage m.1 m.2) nd).toOption.map fun nd =>
        { node := nd, ticking := some { asLeader, todo := [] } } := by
  induction l generalizing nd with
  | nil => rfl
  | cons m l ih =>
    simp only [List.length_cons, List.replicate_succ, exec, List.foldlM_cons, step]
    cases nd.handleMessage m.1 m.2 with
    | error e => rfl
    | ok nd₁ => exact ih nd₁

/-- The actions of a tick that handles `k` messages. -/
def tickActions (k : Nat) (expired : Bool) : List Input :=
  .act .beginTick :: (List.replicate k (.act .handle) ++ [.act (.endTick expired)])

/-- The actions of a tick, with nothing in between, do what `Tick` does. -/
theorem exec_tick (nd : Node) (expired : Bool) :
    exec step (tickActions nd.incoming.messages.length expired) { node := nd } =
      (nd.tick expired).toOption.map fun nd => { node := nd } := by
  rw [tick_eq, tickActions]
  cases hb : nd.beginTick with
  | error e => simp [exec, step, hb, bind, Except.bind, Except.toOption]
  | ok nd₁ =>
    have hstep : step { node := nd } (.act .beginTick) = some
        { node := { nd₁ with incoming := {} }
          ticking := some { asLeader := nd₁.role = .kLeader, todo := nd₁.incoming.messages } } := by
      simp [step, hb]
    rw [← beginTick_incoming hb, exec, hstep, Option.bind_some]
    have hall := exec_handle nd₁.incoming.messages { nd₁ with incoming := {} }
      (nd₁.role = .kLeader)
    change _ = (nd₁.handleIncomingMessages >>= _ : Except Fault Node).toOption.map _
    change _ = Option.map _ (Except.toOption nd₁.handleIncomingMessages) at hall
    rw [exec_append_eq, hall]
    cases nd₁.handleIncomingMessages with
    | error e => rfl
    | ok nd₂ =>
      cases he : nd₂.endTick (nd₁.role = .kLeader) expired with
      | error e => simp [exec, step, he, bind, Except.bind, Except.toOption]
      | ok nd₃ => simp [exec, step, he, bind, Except.bind, Except.toOption]

end Process

/-! ## Clusters -/

namespace Cluster

/-- The hazard marks the next step. -/
def marks (z : Hazard) (s : Cluster) : Op → Bool
  | .act i a => (s.procs i).marks z a
  | _ => false

@[simp] theorem marks_empty (s : Cluster) (op : Op) : s.marks {} op = false := by
  cases op with
  | act i a => exact Process.marks_empty _ a
  | _ => rfl

/-- Member `j` has sent the message to `i`. -/
def Sent (ids : List NodeId) (nodes : NodeId → Node) (i j : NodeId) (msg : Message) : Prop :=
  j ∈ ids ∧ .send i msg ∈ (nodes j).history

/-- The members know each other and themselves, they send to members only, and every message in
flight or waiting at a process was sent there by a member. -/
structure Conserved (s : Cluster) : Prop where
  myId : ∀ i, (s.node i).myId = i
  channels : ∀ i ∈ s.members.ids, (s.node i).channels = s.members.ids
  targets : ∀ i ∈ s.members.ids, ∀ w msg, .send w msg ∈ (s.node i).history → w ∈ s.members.ids
  network : ∀ pkt ∈ s.network, Sent s.members.ids s.node pkt.dst pkt.src pkt.msg
  pending : ∀ i, ∀ m ∈ (s.procs i).pending, Sent s.members.ids s.node i m.1 m.2

/-- The ids of the members are different. -/
theorem nodup_ids (members : Members) : members.ids.Nodup := members.sorted.imp Nat.ne_of_lt

/-- A new node has a channel to every member. -/
theorem initialNode_channels {members : Members} {i : NodeId} (hi : i ∈ members.ids) :
    (initialNode members i).channels = members.ids := by
  simp only [initialNode, Node.new]
  rw [if_neg (fun h => ((nodup_ids members).mem_erase_iff.1 h).1 rfl)]
  exact List.orderedInsert_erase i members.ids hi (members.sorted.imp Nat.le_of_lt)

/-- Nothing is in flight at the start. -/
theorem init_conserved (members : Members) : (init members).Conserved where
  myId _ := rfl
  channels _ hi := initialNode_channels hi
  targets _ _ _ _ h := by cases h
  network _ h := by cases h
  pending _ _ h := by cases h

/-- A packet is a message that its source has sent to its destination. -/
theorem mem_packets {i : NodeId} {events : List Event} {pkt : Packet} (h : pkt ∈ packets i events) :
    pkt.src = i ∧ .send pkt.dst pkt.msg ∈ events := by
  obtain ⟨e, he, heq⟩ := List.mem_filterMap.1 h
  cases e with
  | send whom msg =>
    dsimp only at heq
    split at heq
    · cases heq
    · cases heq
      exact ⟨rfl, he⟩
  | _ => cases heq

/-- Replacing a process replaces its node. -/
theorem update_node (s : Cluster) (i : NodeId) (p : Process) :
    (s.update i p).node = Function.update s.node i p.node := by
  funext j
  rcases eq_or_ne j i with rfl | hne
  · simp [node, update]
  · simp [node, update, Function.update_of_ne hne]

/-- A step is an action of a member, or a delivery to a process, or a loss. -/
theorem step_cases {s s' : Cluster} {op : Op} (h : s.step op = some s') :
    (∃ i a p, op = .act i a ∧ i ∈ s.members.ids ∧ (s.procs i).step (.act a) = some p ∧
      s' = s.update i p) ∨
    (∃ k pkt, op = .deliver k ∧ s.network[k]? = some pkt ∧
      s' = { s with
        procs := Function.update s.procs pkt.dst { s.procs pkt.dst with
          node := (s.node pkt.dst).addMessage pkt.src pkt.msg }
        network := s.network.eraseIdx k }) ∨
    ∃ k, op = .lose k ∧ s' = { s with network := s.network.eraseIdx k } := by
  cases op with
  | act i a =>
    simp only [step] at h
    split at h
    · next hi =>
      obtain ⟨p, hp, rfl⟩ := Option.map_eq_some_iff.1 h
      exact .inl ⟨i, a, p, rfl, hi, hp, rfl⟩
    · cases h
  | deliver k =>
    simp only [step] at h
    split at h
    · next pkt hpkt =>
      obtain ⟨p, hp, rfl⟩ := Option.map_eq_some_iff.1 h
      cases hp
      exact .inr (.inl ⟨k, pkt, rfl, hpkt, rfl⟩)
    · cases h
  | lose k =>
    simp only [step] at h
    split at h
    · cases h
      exact .inr (.inr ⟨k, rfl, rfl⟩)
    · cases h

/-- What has been sent stays sent. -/
theorem Sent.mono {ids : List NodeId} {nodes nodes' : NodeId → Node}
    (hx : ∀ j, (nodes j).history <+: (nodes' j).history) {i j : NodeId} {msg : Message}
    (h : Sent ids nodes i j msg) : Sent ids nodes' i j msg :=
  ⟨h.1, (hx j).subset h.2⟩

/-- Changing one node to a later one forgets nothing. -/
theorem history_update {nodes : NodeId → Node} {i : NodeId} {nd : Node}
    (h : (nodes i).history <+: nd.history) (j : NodeId) :
    (nodes j).history <+: (Function.update nodes i nd j).history := by
  rcases eq_or_ne j i with rfl | hne
  · simpa using h
  · simp [Function.update_of_ne hne]

/-- Member `i`, which knows itself and the members, makes a move in which it handles only messages
that members have sent to it. -/
structure MemberMove (z : Hazard) (ids : List NodeId) (nodes : NodeId → Node) (i : NodeId)
    (nd : Node) : Prop where
  mem : i ∈ ids
  myId : (nodes i).myId = i
  channels : (nodes i).channels = ids
  move : Move z (Sent ids nodes i) (nodes i) nd

/-- A move of one member keeps what is local to each member, if it keeps it for the mover. -/
theorem forall_update {ids : List NodeId} {nodes : NodeId → Node} {P : NodeId → Node → Prop}
    {i : NodeId} {nd : Node} (hi : P i nd) (h : ∀ j ∈ ids, P j (nodes j)) :
    ∀ j ∈ ids, P j (Function.update nodes i nd j) := by
  intro j hj
  rcases eq_or_ne j i with rfl | hne
  · rwa [Function.update_self]
  · rw [Function.update_of_ne hne]
    exact h j hj

/-- The moves of one node, as moves within the cluster. -/
theorem moves_invariant {z : Hazard} {ids : List NodeId} {I : (NodeId → Node) → Prop}
    (hmove : ∀ nodes i nd, I nodes → MemberMove z ids nodes i nd → I (Function.update nodes i nd))
    {nodes : NodeId → Node} {i : NodeId} {nd : Node} (hi : i ∈ ids) (hme : (nodes i).myId = i)
    (hch : (nodes i).channels = ids)
    (h : Moves z (Sent ids nodes i) (nodes i) nd) (hI : I nodes) :
    I (Function.update nodes i nd) := by
  induction h with
  | refl => rwa [Function.update_eq_self]
  | @tail nd₁ nd₂ h hm ih =>
    have hl := Moves.later h
    have hself : Function.update nodes i nd₁ i = nd₁ := Function.update_self ..
    have := hmove (Function.update nodes i nd₁) i nd₂ ih
      { mem := hi
        myId := by rw [hself, hl.myId, hme]
        channels := by rw [hself, hl.channels, hch]
        move := by
          rw [hself]
          exact hm.mono fun j msg hs => hs.mono (history_update hl.history) }
    rwa [Function.update_idem] at this

/-- A step changes the nodes by moves of one member. -/
theorem step_moves {z : Hazard} {s s' : Cluster} {op : Op} (hc : s.Conserved)
    (hz : s.marks z op = false) (h : s.step op = some s') :
    s'.members = s.members ∧ (s'.node = s.node ∨ ∃ i ∈ s.members.ids, ∃ nd,
      s'.node = Function.update s.node i nd ∧
      Moves z (Sent s.members.ids s.node i) (s.node i) nd) := by
  rcases step_cases h with ⟨i, a, p, rfl, hi, hp, rfl⟩ | ⟨k, pkt, rfl, hpkt, rfl⟩ | ⟨k, rfl, rfl⟩
  · exact ⟨rfl, .inr ⟨i, hi, p.node, update_node s i p,
      Process.step_moves (fun m hm => hc.pending i m hm) hz hp⟩⟩
  · have hsent := hc.network pkt (List.mem_of_getElem? hpkt)
    refine ⟨rfl, .inr ⟨pkt.dst, hc.targets _ hsent.1 _ _ hsent.2,
      (s.node pkt.dst).addMessage pkt.src pkt.msg, ?_, Process.addMessage_moves _ _ _⟩⟩
    exact update_node s pkt.dst { s.procs pkt.dst with
      node := (s.node pkt.dst).addMessage pkt.src pkt.msg }
  · exact ⟨rfl, .inl rfl⟩

/-- A step leaves no node earlier than it was. -/
theorem step_later {s s' : Cluster} {op : Op} (h : s.step op = some s') (j : NodeId) :
    Later (s.node j) (s'.node j) := by
  have hupdate : ∀ i p, Later (s.node i) p.node → Later (s.node j) ((s.update i p).node j) := by
    intro i p hp
    rw [update_node]
    rcases eq_or_ne j i with rfl | hne
    · simpa using hp
    · rw [Function.update_of_ne hne]
      exact Later.refl _
  rcases step_cases h with ⟨i, a, p, rfl, hi, hp, rfl⟩ | ⟨k, pkt, rfl, hpkt, rfl⟩ | ⟨k, rfl, rfl⟩
  · exact hupdate i p (Process.step_later hp)
  · exact hupdate pkt.dst _
      (Process.step_later (p := s.procs pkt.dst) (i := .addMessage pkt.src pkt.msg) rfl)
  · exact Later.refl _

/-- A move of a member keeps to the members. -/
theorem targets_moves {z : Hazard} {g : NodeId → Message → Prop} {nd nd' : Node}
    (h : Moves z g nd nd') {w : NodeId} {msg : Message} (hw : .send w msg ∈ nd'.history) :
    .send w msg ∈ nd.history ∨ w ∈ nd.channels := by
  induction h with
  | refl => exact .inl hw
  | tail h hm ih =>
    rcases hm.targets hw with hw | hw
    · exact ih hw
    · exact .inr ((Moves.later h).channels ▸ hw)

/-- A step keeps the members. -/
theorem step_members {s s' : Cluster} {op : Op} (hc : s.Conserved) (h : s.step op = some s') :
    s'.members = s.members := (step_moves hc (marks_empty s op) h).1

/-- What was sent before a step was sent after it. -/
theorem step_sent {s s' : Cluster} {op : Op} (hc : s.Conserved) (h : s.step op = some s')
    {i j : NodeId} {msg : Message} (hs : Sent s.members.ids s.node i j msg) :
    Sent s'.members.ids s'.node i j msg := by
  rw [step_members hc h]
  exact hs.mono fun j => (step_later h j).history

/-- A step sends to members only. -/
theorem step_targets {s s' : Cluster} {op : Op} (hc : s.Conserved) (h : s.step op = some s') :
    ∀ i ∈ s'.members.ids, ∀ w msg, .send w msg ∈ (s'.node i).history → w ∈ s'.members.ids := by
  intro i hi w msg hw
  obtain ⟨hmem, hnodes⟩ := step_moves hc (marks_empty s op) h
  rw [hmem] at hi ⊢
  rcases hnodes with heq | ⟨j, hj, nd, heq, hm⟩
  · exact hc.targets i hi w msg (heq ▸ hw)
  · rw [heq] at hw
    rcases eq_or_ne i j with rfl | hne
    · rw [Function.update_self] at hw
      rcases targets_moves hm hw with hw | hw
      · exact hc.targets i hi w msg hw
      · exact hc.channels i hi ▸ hw
    · rw [Function.update_of_ne hne] at hw
      exact hc.targets i hi w msg hw

/-- What is in flight after a step was sent by its source. -/
theorem step_network {s s' : Cluster} {op : Op} (hc : s.Conserved) (h : s.step op = some s') :
    ∀ pkt ∈ s'.network, Sent s'.members.ids s'.node pkt.dst pkt.src pkt.msg := by
  intro pkt hpkt
  have hsent := fun hs => step_sent hc h (hc.network pkt hs)
  rcases step_cases h with ⟨i, a, p, rfl, hi, hp, rfl⟩ | ⟨k, pkt', rfl, -, rfl⟩ | ⟨k, rfl, rfl⟩
  · rcases List.mem_append.1 hpkt with hpkt | hpkt
    · exact hsent hpkt
    · obtain ⟨rfl, hev⟩ := mem_packets hpkt
      refine ⟨hi, ?_⟩
      rw [update_node, Function.update_self]
      exact List.mem_of_mem_drop hev
  · exact hsent (List.mem_of_mem_eraseIdx hpkt)
  · exact hsent (List.mem_of_mem_eraseIdx hpkt)

/-- What waits at a process after a step was sent to it. -/
theorem step_pending {s s' : Cluster} {op : Op} (hc : s.Conserved) (h : s.step op = some s') :
    ∀ i, ∀ m ∈ (s'.procs i).pending, Sent s'.members.ids s'.node i m.1 m.2 := by
  have hids : s'.members.ids = s.members.ids := by rw [step_members hc h]
  have hsent : ∀ {i j msg}, Sent s.members.ids s.node i j msg →
      Sent s'.members.ids s'.node i j msg := fun hs => step_sent hc h hs
  -- what a process does next has been sent by itself if it was not sent before
  have hself : ∀ i ∈ s.members.ids, ∀ {p' : Process} {msg : Message},
      s'.node i = p'.node → .send (s.node i).myId msg ∈ p'.node.history →
      Sent s'.members.ids s'.node i (s.node i).myId msg := by
    intro i hi p' msg hp hm
    rw [hc.myId i] at hm ⊢
    exact ⟨hids ▸ hi, hp ▸ hm⟩
  intro j m hm
  rcases step_cases h with ⟨i, a, p, rfl, hi, hp, rfl⟩ | ⟨k, pkt, rfl, hpkt, rfl⟩ | ⟨k, rfl, rfl⟩
  · rcases eq_or_ne j i with rfl | hne
    · have hproc : (s.update j p).procs j = p := by simp [update]
      rw [hproc] at hm
      rcases Process.step_pending hp hm with hm | hm | ⟨hm, hm'⟩
      · exact hsent (hc.pending j m hm)
      · cases hm
      · rw [hm]
        exact hself j hi (by rw [update_node, Function.update_self]) hm'
    · have hproc : (s.update i p).procs j = s.procs j := by
        simp [update, Function.update_of_ne hne]
      rw [hproc] at hm
      exact hsent (hc.pending j m hm)
  · rcases eq_or_ne j pkt.dst with rfl | hne
    · dsimp only at hm
      rw [Function.update_self] at hm
      rcases Process.step_pending (p := s.procs pkt.dst) (i := .addMessage pkt.src pkt.msg) rfl hm
        with hm | hm | ⟨hm, hm'⟩
      · exact hsent (hc.pending _ m hm)
      · obtain ⟨h1, h2⟩ := Input.addMessage.inj hm
        rw [← h1, ← h2]
        exact hsent (hc.network pkt (List.mem_of_getElem? hpkt))
      · have hd := hc.network pkt (List.mem_of_getElem? hpkt)
        rw [hm]
        exact hself pkt.dst (hc.targets _ hd.1 _ _ hd.2) (by simp [node]) hm'
    · dsimp only at hm
      rw [Function.update_of_ne hne] at hm
      exact hsent (hc.pending j m hm)
  · exact hsent (hc.pending j m hm)

/-- A step lets no message come from nowhere. -/
theorem step_conserved {s s' : Cluster} {op : Op} (hc : s.Conserved) (h : s.step op = some s') :
    s'.Conserved where
  myId i := (step_later h i).myId.trans (hc.myId i)
  channels i hi := by
    rw [step_members hc h] at hi ⊢
    exact (step_later h i).channels.trans (hc.channels i hi)
  targets := step_targets hc h
  network := step_network hc h
  pending := step_pending hc h

/-- The invariant rule for a cluster from any state in which no message has come from nowhere. -/
theorem invariant_exec {z : Hazard} {members : Members} {I : (NodeId → Node) → Prop}
    (hmove : ∀ nodes i nd, I nodes → MemberMove z members.ids nodes i nd →
      I (Function.update nodes i nd))
    {s s' : Cluster} {ops : List Op} (hc : s.Conserved) (hmem : s.members = members)
    (hI : I s.node) (hrun : exec step ops s = some s')
    (hz : Avoids step (marks z) ops s = true) :
    I s'.node ∧ s'.Conserved ∧ s'.members = members := by
  refine exec_invariant (I := fun s => I s.node ∧ s.Conserved ∧ s.members = members) ?_
    ⟨hI, hc, hmem⟩ hrun hz
  rintro s op s' ⟨hI, hc, rfl⟩ hz h
  obtain ⟨hmem, hnodes⟩ := step_moves hc hz h
  refine ⟨?_, step_conserved hc h, hmem⟩
  rcases hnodes with heq | ⟨i, hi, nd, heq, hm⟩
  · rwa [heq]
  · rw [heq]
    exact moves_invariant hmove hi (hc.myId i) (hc.channels i hi) hm hI

/-- The invariant rule for runs from the start. -/
theorem invariant_run {z : Hazard} {members : Members} {I : (NodeId → Node) → Prop}
    (hmove : ∀ nodes i nd, I nodes → MemberMove z members.ids nodes i nd →
      I (Function.update nodes i nd))
    (hI : I (initialNode members)) {s : Cluster} {ops : List Op}
    (hrun : exec step ops (init members) = some s)
    (hz : Avoids step (marks z) ops (init members) = true) : I s.node :=
  (invariant_exec hmove (init_conserved members) rfl hI hrun hz).1

/-- A run continues the life of every node. -/
theorem later_exec {s s' : Cluster} {ops : List Op} (hrun : exec step ops s = some s')
    (j : NodeId) : Later (s.node j) (s'.node j) :=
  exec_relation (R := fun s s' => Later (s.node j) (s'.node j)) (fun _ => Later.refl _)
    (fun _ _ _ => Later.trans) (fun _ _ _ h => step_later h j) hrun

/-- A run forgets nothing. -/
theorem history_exec {s s' : Cluster} {ops : List Op} (hrun : exec step ops s = some s')
    (j : NodeId) : (s.node j).history <+: (s'.node j).history := (later_exec hrun j).history

/-- After a run no message has come from nowhere. -/
theorem conserved_run {members : Members} {s : Cluster} {ops : List Op}
    (hrun : exec step ops (init members) = some s) : s.Conserved :=
  exec_invariant' (fun _ _ _ hc h => step_conserved hc h) (init_conserved members) hrun

/-- A run keeps the members. -/
theorem members_run {members : Members} {s : Cluster} {ops : List Op}
    (hrun : exec step ops (init members) = some s) : s.members = members := by
  refine exec_invariant' (I := fun s => s.members = members) ?_ rfl hrun
  rintro s op s' rfl h
  rcases step_cases h with ⟨i, a, p, -, -, -, rfl⟩ | ⟨k, pkt, -, -, rfl⟩ | ⟨k, -, rfl⟩ <;> rfl

/-- The members of the three stay 1, 2 and 3. -/
theorem ids_threeMembers {s : Cluster} {ops : List Op}
    (hrun : exec step ops (init threeMembers) = some s) : s.members.ids = [1, 2, 3] := by
  rw [members_run hrun]
  rfl

end Cluster

end ToFTDS.Consensus
