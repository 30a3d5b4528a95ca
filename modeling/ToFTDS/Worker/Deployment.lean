import ToFTDS.Worker.Carriage
import ToFTDS.Worker.Service

/-!
# The workers of a cluster

A `Deployment` is what runs when every member runs `main` (`worker.cpp:262`): a key-value service
with its node per member, and between them the calls of `SendAnnotatedMessage` that are under way.
Each is made by a task of its own (`worker.cpp:247`), so any of them may come in next, or fail. What
comes in is decoded into local structs, whose numbers are arbitrary before.

As in a cluster, what a node handles was sent to it by a member (`Conserved`), as far as the wire
carries it. The rule for runs (`invariant_exec`) is that of `Cluster`, for what does not depend on
the field that the wire loses; where the field happens to arrive it holds for everything.
-/

namespace ToFTDS.Worker

open Consensus Consensus.Node Run
open Communication (AnnotatedMessage)

/-- The services of the members, and the calls under way, each with the member that it is for. -/
structure Deployment where
  members : Members
  services : NodeId → Service
  network : List (NodeId × AnnotatedMessage)

namespace Deployment

/-- A step of a deployment: of the service of a member; a call that comes in, with what the local
structs of its handler hold; or a call that fails. -/
inductive Op where
  | service (i : NodeId) (op : Worker.Op)
  | deliver (k : Nat) (locals : CommunicationImpl.Uninitialised)
  | fail (k : Nat)

/-- A step that a service makes by itself: messages come over the wire, and the calls of the node
come from the calls of clients. -/
def own : Worker.Op → Bool
  | .node (.addMessage ..) | .node (.act (.addCommand _)) => false
  | .node (.act (.getPersistentCommands ..)) => false
  | _ => true

/-- All workers as `main` starts them. -/
def init (members : Members) : Deployment where
  members := members
  services i := Service.init i (members.ids.erase i)
  network := []

/-- The node of member `i`. -/
def node (d : Deployment) (i : NodeId) : Node := (d.services i).node

/-- The calls that the messages among `events` of node `i` make. A task that throws makes none. -/
def calls (i : NodeId) (events : List Event) : List (NodeId × AnnotatedMessage) :=
  events.filterMap fun
    | .send whom msg =>
      if whom = i then none
      else (OtherNodesMessageSender.send i msg).toOption.map fun wire => (whom, wire)
    | _ => none

/-- The deployment after the service of `i` has become `s`. -/
def update (d : Deployment) (i : NodeId) (s : Service) : Deployment :=
  { d with
    services := Function.update d.services i s
    network := d.network ++ calls i (s.node.history.drop (d.node i).history.length) }

/-- One step of a deployment. A call that is cancelled changes nothing else. -/
def step (d : Deployment) : Op → Option Deployment
  | .service i op =>
    if i ∈ d.members.ids ∧ own op = true then ((d.services i).step op).map (d.update i) else none
  | .deliver k locals =>
    match d.network[k]? with
    | none => none
    | some (whom, wire) =>
      match (CommunicationImpl.sendAnnotatedMessage locals wire).sent with
      | none => some { d with network := d.network.eraseIdx k }
      | some (sender, msg) =>
        ((d.services whom).step (.node (.addMessage sender msg))).map fun s =>
          { d with
            services := Function.update d.services whom s
            network := d.network.eraseIdx k }
  | .fail k =>
    if k < d.network.length then some { d with network := d.network.eraseIdx k } else none

instance : DecidablePred Fits := fun m => by
  cases m <;> unfold Fits <;> infer_instance

/-- A member sends a message with a number that does not fit. -/
def overflows (d : Deployment) : Op → Bool
  | .service i op =>
    match (d.services i).step op with
    | some s => (s.node.history.drop (d.node i).history.length).any fun
      | .send whom msg => decide (whom ≠ i) && !decide (Fits msg)
      | _ => false
    | none => false
  | _ => false

/-- A request comes in whose handler holds another `leader_commit`. -/
def mistakes (d : Deployment) : Op → Bool
  | .deliver k locals =>
    match d.network[k]? with
    | some (_, { message := some (.aeReq req), .. }) =>
      decide (locals.aeReq.leaderCommit ≠ ofInt32 req.leaderCommit)
    | _ => false
  | _ => false

/-- The hazard marks the next step. -/
def marks (z : Hazard) (d : Deployment) : Op → Bool
  | .service i (.node (.act a)) => (d.services i).process.marks z a
  | _ => false

end Deployment

/-! ## Services and their processes -/

/-- To the process of a service its own step is a step of the tick thread, a query, the call of
`AddCommand` of a `Write` that has come through, or none. -/
theorem Service.step_process {s s' : Service} {op : Worker.Op} (hown : Deployment.own op = true)
    (h : s.step op = some s') : s'.process = s.process ∨
      ∃ a, s.process.step (.act a) = some s'.process ∧
        (op = .node (.act a) ∧ (∀ command, a ≠ .addCommand command) ∨
          (∃ start maxCount, a = .getPersistentCommands start maxCount) ∨
          ∃ key value, .write key value ∈ s.actualized ∧
            a = .addCommand (writeCommand key value)) := by
  cases op with
  | node i =>
    obtain ⟨p, hp, rfl⟩ := Option.map_eq_some_iff.1 h
    cases i with
    | act a =>
      refine .inr ⟨a, hp, .inl ⟨rfl, fun command ha => ?_⟩⟩
      subst ha
      cases hown
    | addMessage sender msg => cases hown
  | enter call =>
    simp only [step] at h
    split at h
    · cases h
    · cases h
      exact .inr ⟨_, rfl, .inr (.inl ⟨_, _, rfl⟩)⟩
  | actualize =>
    simp only [step] at h
    split at h
    · obtain ⟨commands, -, rfl⟩ := Option.map_eq_some_iff.1 h
      exact .inl rfl
    · cases h
  | proceed k =>
    simp only [step] at h
    split at h
    · next call hcall =>
      cases call with
      | write key value =>
        cases h
        exact .inr ⟨_, rfl, .inr (.inr ⟨key, value, List.mem_of_getElem? hcall, rfl⟩)⟩
      | read | dumpState =>
        simp only [proceed] at h
        split at h
        · cases h
        · cases h
          exact .inl rfl
    · cases h
  | respond k =>
    simp only [step] at h
    split at h
    · obtain ⟨result, -, rfl⟩ := Option.map_eq_some_iff.1 h
      exact .inl rfl
    · cases h

/-- A step of a service leaves its node no earlier than it was. -/
theorem Service.step_later {s s' : Service} {op : Worker.Op} (hown : Deployment.own op = true)
    (h : s.step op = some s') : Later s.node s'.node := by
  rcases step_process hown h with heq | ⟨a, hp, -⟩
  · rw [Service.node, Service.node, heq]
    exact Later.refl _
  · exact Process.step_later hp

namespace Deployment

/-! ## What is on its way has been sent -/

section
variable {R : Message → Message → Prop} {z : Hazard} {d d' : Deployment} {op : Op}

/-- As in a cluster, with the members' ids in the range of the wire: what waits at a process is
related by `R` to what has been sent. -/
structure Conserved (R : Message → Message → Prop) (d : Deployment) : Prop where
  ids : ∀ i ∈ d.members.ids, i < 2 ^ 31
  myId : ∀ i, (d.node i).myId = i
  channels : ∀ i ∈ d.members.ids, (d.node i).channels = d.members.ids
  targets : ∀ i ∈ d.members.ids, ∀ w msg, .send w msg ∈ (d.node i).history → w ∈ d.members.ids
  network : ∀ {whom wire}, (whom, wire) ∈ d.network → ∃ j msg,
    Cluster.Sent d.members.ids d.node whom j msg ∧ Fits msg ∧
      OtherNodesMessageSender.send j msg = .ok wire
  pending : ∀ i, ∀ m ∈ (d.services i).process.pending, Got R d.members.ids d.node i m.1 m.2

/-- What comes in with this step is related by `R` to what was sent. -/
def Brings (R : Message → Message → Prop) (d : Deployment) (op : Op) : Prop :=
  ∀ {k locals whom wire j m}, op = .deliver k locals → d.network[k]? = some (whom, wire) →
    OtherNodesMessageSender.send j m = .ok wire → Fits m → R m (arrives locals m)

/-- Whatever is in the receiver's struct, the fields that count but `leader_commit` come in. -/
theorem brings_carries : Brings Carries d op := fun _ _ _ _ => carries_arrives _ _

/-- Without mistakes all fields that count come in. -/
theorem brings_same (h : d.mistakes op = false) : Brings SameFields d op := by
  rintro k locals whom wire j m rfl hwire hsend hfits
  refine same_arrives fun req heq => ?_
  subst heq
  cases hsend
  have hcommit : ofInt32 (toInt32 req.leaderCommit) = req.leaderCommit :=
    ofInt32_toInt32 hfits.2.2.2.2.2
  simpa [mistakes, hwire, hcommit] using h

/-- Replacing a service replaces its node. -/
theorem node_update (d : Deployment) (i : NodeId) (s : Service) :
    (d.update i s).node = Function.update d.node i s.node := by
  funext j
  rcases eq_or_ne j i with rfl | hne
  · simp [node, update]
  · simp [node, update, Function.update_of_ne hne]

/-- A step is one of a service, or a call that comes in, or one that is gone. -/
theorem step_cases (h : d.step op = some d') :
    (∃ i op' s, op = .service i op' ∧ i ∈ d.members.ids ∧ own op' = true ∧
      (d.services i).step op' = some s ∧ d' = d.update i s) ∨
    (∃ k locals whom wire sender msg, op = .deliver k locals ∧
      d.network[k]? = some (whom, wire) ∧
      (CommunicationImpl.sendAnnotatedMessage locals wire).sent = some (sender, msg) ∧
      d' = { d with
        services := Function.update d.services whom
          ((d.services whom).setNode ((d.node whom).addMessage sender msg))
        network := d.network.eraseIdx k }) ∨
    ∃ k, d' = { d with network := d.network.eraseIdx k } := by
  cases op with
  | service i op' =>
    simp only [step] at h
    split at h
    · next hi =>
      obtain ⟨s, hs, rfl⟩ := Option.map_eq_some_iff.1 h
      exact .inl ⟨i, op', s, rfl, hi.1, hi.2, hs, rfl⟩
    · cases h
  | deliver k locals =>
    simp only [step] at h
    split at h
    · cases h
    · next whom wire hwire =>
      split at h
      · cases h
        exact .inr (.inr ⟨k, rfl⟩)
      · next sender msg hsent =>
        obtain ⟨s, hs, rfl⟩ := Option.map_eq_some_iff.1 h
        cases hs
        exact .inr (.inl ⟨k, locals, whom, wire, sender, msg, rfl, hwire, hsent, rfl⟩)
  | fail k =>
    simp only [step] at h
    split at h
    · cases h
      exact .inr (.inr ⟨k, rfl⟩)
    · cases h

/-- What comes in was sent, by the member that it names. -/
theorem Conserved.delivered (hc : d.Conserved R) {k : Nat}
    {locals : CommunicationImpl.Uninitialised} {whom sender : NodeId} {wire : AnnotatedMessage}
    {msg : Message} (hb : Brings R d (.deliver k locals))
    (hwire : d.network[k]? = some (whom, wire))
    (hsent : (CommunicationImpl.sendAnnotatedMessage locals wire).sent = some (sender, msg)) :
    Got R d.members.ids d.node whom sender msg := by
  obtain ⟨j, m, hm, hfits, hsend⟩ := hc.network (List.mem_of_getElem? hwire)
  obtain ⟨wire', hsend', hrecv⟩ := received (hc.ids j hm.1) hfits
  obtain rfl : wire = wire' := Except.ok.inj (hsend.symm.trans hsend')
  rw [hrecv locals] at hsent
  cases hsent
  exact ⟨m, hm, hb rfl hwire hsend hfits⟩

/-- Nothing is on its way at the start. -/
theorem init_conserved {members : Members} (hids : ∀ i ∈ members.ids, i < 2 ^ 31) :
    (init members).Conserved R where
  ids := hids
  myId _ := rfl
  channels _ hi := Cluster.initialNode_channels hi
  targets _ _ _ _ h := by cases h
  network h := by cases h
  pending _ _ h := by cases h

/-- A step changes the nodes by moves of one member. -/
theorem step_moves (hc : d.Conserved R) (hz : d.marks z op = false) (h : d.step op = some d') :
    d'.members = d.members ∧ (d'.node = d.node ∨ ∃ i ∈ d.members.ids, ∃ nd,
      d'.node = Function.update d.node i nd ∧
      Moves z (Got R d.members.ids d.node i) (d.node i) nd) := by
  rcases step_cases h with ⟨i, op', s, rfl, hi, hown, hs, rfl⟩ |
    ⟨k, locals, whom, wire, sender, msg, rfl, hwire, hsent, rfl⟩ | ⟨k, rfl⟩
  · refine ⟨rfl, .inr ⟨i, hi, s.node, node_update d i s, ?_⟩⟩
    rcases Service.step_process hown hs with heq | ⟨a, hp, hop⟩
    · rw [Service.node, heq]
      exact Moves.refl
    · refine Process.step_moves (fun m hm => hc.pending i m hm) ?_ hp
      rcases hop with ⟨rfl, -⟩ | ⟨start, maxCount, rfl⟩ | ⟨key, value, -, rfl⟩
      · exact hz
      · rfl
      · rfl
  · obtain ⟨j, m, hm, -, -⟩ := hc.network (List.mem_of_getElem? hwire)
    refine ⟨rfl, .inr ⟨whom, hc.targets j hm.1 _ _ hm.2, (d.node whom).addMessage sender msg, ?_,
      Process.addMessage_moves _ _ _⟩⟩
    exact node_update d whom ((d.services whom).setNode ((d.node whom).addMessage sender msg))
  · exact ⟨rfl, .inl rfl⟩

/-- A step leaves no node earlier than it was. -/
theorem step_later (h : d.step op = some d') (j : NodeId) : Later (d.node j) (d'.node j) := by
  have hupdate : ∀ i nd, Later (d.node i) nd →
      Later (d.node j) (Function.update d.node i nd j) := by
    intro i nd hl
    rcases eq_or_ne j i with rfl | hne
    · rwa [Function.update_self]
    · rw [Function.update_of_ne hne]
      exact Later.refl _
  rcases step_cases h with ⟨i, op', s, rfl, hi, hown, hs, rfl⟩ |
    ⟨k, locals, whom, wire, sender, msg, rfl, -, -, rfl⟩ | ⟨k, rfl⟩
  · rw [node_update]
    exact hupdate i s.node (Service.step_later hown hs)
  · have heq := node_update d whom
      ((d.services whom).setNode ((d.node whom).addMessage sender msg))
    change Later (d.node j) ((d.update whom _).node j)
    rw [heq]
    exact hupdate whom _ ⟨rfl, rfl, Nat.le_refl _, List.prefix_refl _⟩
  · exact Later.refl _

/-- A call carries a message that its node has sent to another one. -/
theorem mem_calls {i whom : NodeId} {wire : AnnotatedMessage} {events : List Event}
    (h : (whom, wire) ∈ calls i events) : ∃ msg, .send whom msg ∈ events ∧ whom ≠ i ∧
      OtherNodesMessageSender.send i msg = .ok wire := by
  obtain ⟨e, he, heq⟩ := List.mem_filterMap.1 h
  cases e with
  | send whom' msg =>
    dsimp only at heq
    split at heq
    · cases heq
    · next hne =>
      obtain ⟨wire', hwire, hpair⟩ := Option.map_eq_some_iff.1 heq
      cases hpair
      refine ⟨msg, he, hne, ?_⟩
      cases hsend : OtherNodesMessageSender.send i msg with
      | error e =>
        rw [hsend] at hwire
        cases hwire
      | ok wire' =>
        rw [hsend] at hwire
        cases hwire
        rfl
  | _ => cases heq

/-- A step keeps the members. -/
theorem step_members (hc : d.Conserved R) (h : d.step op = some d') : d'.members = d.members :=
  (step_moves (z := {}) hc (by unfold marks; split <;> simp) h).1

section
variable (hc : d.Conserved R) (h : d.step op = some d')

include hc h

/-- What was sent before a step was sent after it. -/
theorem step_sent {i j : NodeId} {msg : Message}
    (hs : Cluster.Sent d.members.ids d.node i j msg) :
    Cluster.Sent d'.members.ids d'.node i j msg := by
  rw [step_members hc h]
  exact hs.mono fun j => (step_later h j).history

/-- A step sends to members only. -/
theorem step_targets : ∀ i ∈ d'.members.ids, ∀ w msg, .send w msg ∈ (d'.node i).history →
    w ∈ d'.members.ids := by
  intro i hi w msg hw
  obtain ⟨hmem, hnodes⟩ := step_moves (z := {}) hc (by unfold marks; split <;> simp) h
  rw [hmem] at hi ⊢
  rcases hnodes with heq | ⟨j, hj, nd, heq, hm⟩
  · exact hc.targets i hi w msg (heq ▸ hw)
  · rw [heq] at hw
    rcases eq_or_ne i j with rfl | hne
    · rw [Function.update_self] at hw
      rcases Cluster.targets_moves hm hw with hw | hw
      · exact hc.targets i hi w msg hw
      · exact hc.channels i hi ▸ hw
    · rw [Function.update_of_ne hne] at hw
      exact hc.targets i hi w msg hw

/-- A call that is on its way after a step carries what a member has sent, if it fits. -/
theorem step_network (hfits : d.overflows op = false) {whom : NodeId} {wire : AnnotatedMessage}
    (hwire : (whom, wire) ∈ d'.network) : ∃ j msg,
      Cluster.Sent d'.members.ids d'.node whom j msg ∧ Fits msg ∧
        OtherNodesMessageSender.send j msg = .ok wire := by
  have hold : (whom, wire) ∈ d.network → ∃ j msg,
      Cluster.Sent d'.members.ids d'.node whom j msg ∧ Fits msg ∧
        OtherNodesMessageSender.send j msg = .ok wire := by
    intro hs
    obtain ⟨j, msg, hs, hrest⟩ := hc.network hs
    exact ⟨j, msg, step_sent hc h hs, hrest⟩
  rcases step_cases h with ⟨i, op', s, rfl, hi, hown, hs, rfl⟩ |
    ⟨k, locals, whom', wire', sender, msg, rfl, -, -, rfl⟩ | ⟨k, rfl⟩
  · rcases List.mem_append.1 hwire with hwire | hwire
    · exact hold hwire
    · obtain ⟨msg, hev, hne, hsend⟩ := mem_calls hwire
      refine ⟨i, msg, ⟨hi, ?_⟩, ?_, hsend⟩
      · rw [node_update, Function.update_self]
        exact List.mem_of_mem_drop hev
      · simp only [overflows, hs, List.any_eq_false] at hfits
        simpa [hne] using hfits _ hev
  · exact hold (List.mem_of_mem_eraseIdx hwire)
  · exact hold (List.mem_of_mem_eraseIdx hwire)

/-- What waits at a process after a step is related to what was sent to it. -/
theorem step_pending (hrefl : ∀ m, R m m) (hb : Brings R d op) :
    ∀ i, ∀ m ∈ (d'.services i).process.pending, Got R d'.members.ids d'.node i m.1 m.2 := by
  have hgot : ∀ {i j msg}, Got R d.members.ids d.node i j msg →
      Got R d'.members.ids d'.node i j msg :=
    fun hg => hg.imp fun _ hm => ⟨step_sent hc h hm.1, hm.2⟩
  have hids := step_members hc h
  -- what a node has just sent to itself arrives as it is
  have hself : ∀ i ∈ d.members.ids, ∀ {msg : Message},
      .send (d.node i).myId msg ∈ (d'.node i).history →
      Got R d'.members.ids d'.node i (d.node i).myId msg := by
    intro i hi msg hm
    rw [hc.myId i] at hm ⊢
    exact ⟨msg, ⟨hids ▸ hi, hm⟩, hrefl msg⟩
  intro j m hm
  rcases step_cases h with ⟨i, op', s, rfl, hi, hown, hs, rfl⟩ |
    ⟨k, locals, whom, wire, sender, msg, rfl, hwire, hsent, rfl⟩ | ⟨k, rfl⟩
  · rcases eq_or_ne j i with rfl | hne
    · have hservice : (d.update j s).services j = s := by simp [update]
      rw [hservice] at hm
      rcases Service.step_process hown hs with heq | ⟨a, hp, -⟩
      · rw [heq] at hm
        exact hgot (hc.pending j m hm)
      · rcases Process.step_pending hp hm with hm | hm | ⟨hm, hm'⟩
        · exact hgot (hc.pending j m hm)
        · cases hm
        · rw [hm]
          refine hself j hi ?_
          rw [node_update, Function.update_self]
          exact hm'
    · have hservice : (d.update i s).services j = d.services j := by
        simp [update, Function.update_of_ne hne]
      rw [hservice] at hm
      exact hgot (hc.pending j m hm)
  · rcases eq_or_ne j whom with rfl | hne
    · dsimp only at hm
      rw [Function.update_self] at hm
      rcases Process.step_pending (p := (d.services j).process)
        (i := .addMessage sender msg) rfl hm with hm | hm | ⟨hm, hm'⟩
      · exact hgot (hc.pending j m hm)
      · obtain ⟨h1, h2⟩ := Input.addMessage.inj hm
        rw [← h1, ← h2]
        exact hgot (hc.delivered hb hwire hsent)
      · obtain ⟨j', m', hs', -, -⟩ := hc.network (List.mem_of_getElem? hwire)
        rw [hm]
        refine hself j (hc.targets j' hs'.1 _ _ hs'.2) ?_
        simp only [node, Function.update_self]
        exact hm'
    · dsimp only at hm
      rw [Function.update_of_ne hne] at hm
      exact hgot (hc.pending j m hm)
  · exact hgot (hc.pending j m hm)

/-- A step in which everything fits lets no message come from nowhere. -/
theorem step_conserved (hrefl : ∀ m, R m m) (hfits : d.overflows op = false)
    (hb : Brings R d op) : d'.Conserved R where
  ids := by
    rw [step_members hc h]
    exact hc.ids
  myId i := (step_later h i).myId.trans (hc.myId i)
  channels i hi := by
    rw [step_members hc h] at hi ⊢
    exact (step_later h i).channels.trans (hc.channels i hi)
  targets := step_targets hc h
  network := step_network hc h hfits
  pending := step_pending hc h hrefl hb

end

/-- An invariant of the nodes that each move of a member keeps is kept by a step of the deployment:
if it does not depend on commit indices, or if these arrive. -/
theorem invariant_step {I : (NodeId → Node) → Prop} (hR : ∀ {m m'}, R m m' → Carries m m')
    (hblind : Blind z)
    (hmove : ∀ nodes i nd, I nodes → Cluster.MemberMove z d.members.ids nodes i nd →
      I (Function.update nodes i nd))
    (hlabel : (∀ {m m'}, R m m' → SameFields m m') ∨ ∀ nodes i nd, I nodes → i ∈ d.members.ids →
      Relabelled (nodes i) nd → I (Function.update nodes i nd))
    (hc : d.Conserved R) (hI : I d.node) (hz : d.marks z op = false) (h : d.step op = some d') :
    I d'.node := by
  obtain ⟨-, heq | ⟨i, hi, nd, heq, hm⟩⟩ := step_moves hc hz h
  · rwa [heq]
  · rw [heq]
    exact moves_carried hR hblind hmove hlabel hi (hc.myId i) (hc.channels i hi) hm hI

end

end Deployment

end ToFTDS.Worker
