import Mathlib.Data.Finset.Max
import ToFTDS.Consensus.Provenance
import ToFTDS.Worker.Deployment

/-!
# The replicated store

What is proved of clusters is carried over to the workers as they run, with their encoders and
decoders in between. Whatever the decoders' structs hold before, no term has two leaders and the
logs match (`leaders_and_logs`); `leader_commit` does not come into it. As long as the numbers in it
happen to be right as well and no step is unsafe, one list of commands explains all stores: at any
moment each of them is what some beginning of this list makes, and each command in it is from a
client's `Write` (`one_history`).
-/

namespace ToFTDS.Worker

open Consensus Consensus.Node Run

namespace Deployment

/-! ## Runs -/

section
variable {R : Message → Message → Prop} {z : Hazard} {d d' : Deployment} {ops : List Op}

/-- The rule for runs that avoid what is marked by `bad`. -/
theorem invariant_exec {I : (NodeId → Node) → Prop} {members : Members}
    {bad : Deployment → Op → Bool} (hrefl : ∀ m, R m m) (hR : ∀ {m m'}, R m m' → Carries m m')
    (hblind : Blind z)
    (hbad : ∀ d op, bad d op = false →
      d.overflows op = false ∧ d.marks z op = false ∧ Brings R d op)
    (hmove : ∀ nodes i nd, I nodes → Cluster.MemberMove z members.ids nodes i nd →
      I (Function.update nodes i nd))
    (hlabel : (∀ {m m'}, R m m' → SameFields m m') ∨ ∀ nodes i nd, I nodes → i ∈ members.ids →
      Relabelled (nodes i) nd → I (Function.update nodes i nd))
    (hc : d.Conserved R) (hmem : d.members = members) (hI : I d.node)
    (hrun : exec step ops d = some d') (havoid : Avoids step bad ops d = true) :
    d'.Conserved R ∧ d'.members = members ∧ I d'.node := by
  refine Run.exec_invariant
    (I := fun d => d.Conserved R ∧ d.members = members ∧ I d.node) ?_ ⟨hc, hmem, hI⟩ hrun havoid
  rintro d op d' ⟨hc, rfl, hI⟩ hb h
  obtain ⟨hfits, hz, hbrings⟩ := hbad d op hb
  exact ⟨step_conserved hc h hrefl hfits hbrings, step_members hc h,
    invariant_step hR hblind hmove hlabel hc hI hz h⟩

end

/-- The cluster of the nodes. -/
def cluster (d : Deployment) : Cluster where
  members := d.members
  procs i := (d.services i).process
  network := []

@[simp] theorem cluster_node (d : Deployment) : d.cluster.node = d.node := rfl

@[simp] theorem cluster_members (d : Deployment) : d.cluster.members = d.members := rfl

/-! ## Leaders and logs -/

/-- Logs that are replicas of a ledger match. -/
theorem logsMatch_of_sim {s : Cluster} {a : Ledger NodeId LogItem}
    (hS : Sim s.members.ids a s.node) : s.LogsMatch := by
  intro i hi j hj k item item' hitem hitem' hterm
  have hwf : ∀ i ∈ s.members.ids, a.WfLog LogItem.leaderTerm (s.node i).log := by
    intro i hi
    rw [← (hS.nodes i hi).log]
    exact hS.inv.log_wf i
  exact (Ledger.agreeTo_of_wfLog (hwf i hi) (hwf j hj) hitem hitem' hterm).2

/-- A step in which a number does not fit or a leader votes for another candidate of its term. -/
def votesAmiss (d : Deployment) (op : Op) : Bool := d.overflows op || d.marks votesAsLeader op

/-- **Leaders and logs.** As long as the numbers fit into the messages and no leader votes for
another candidate of its own term, no two workers ever lead in the same term, and logs with an entry
of the same term at an index are the same up to it: whatever the local structs hold when messages
come in. -/
theorem leaders_and_logs (members : Members) (hids : ∀ i ∈ members.ids, i < 2 ^ 31)
    (ops : List Op) (d : Deployment) (hrun : exec step ops (init members) = some d)
    (havoid : Avoids step votesAmiss ops (init members) = true) :
    d.cluster.OneLeaderPerTerm ∧ d.cluster.LogsMatch := by
  obtain ⟨-, hmem, hE, a, hS⟩ := invariant_exec (R := Carries) (z := votesAsLeader)
    (I := fun nodes => Elections members.ids nodes ∧ ∃ a, Sim members.ids a nodes)
    (fun m => .of_same (.refl m)) id blind_votesAsLeader
    (fun d op hb => ⟨(Bool.or_eq_false_iff.1 hb).1, (Bool.or_eq_false_iff.1 hb).2, brings_carries⟩)
    (fun nodes i nd ⟨hE, a, hS⟩ hm => by
      have hE' := elections_move (Hazard.Le.refl _) (Cluster.nodup_ids members) hE hm
      obtain ⟨a', -, hS'⟩ := sim_move (Cluster.nodup_ids members) hS hm hE'.uniqueLeaders
      exact ⟨hE', a', hS'⟩)
    (.inr fun nodes i nd ⟨hE, a, hS⟩ hi h =>
      ⟨elections_relabelled hE hi h, a, sim_relabelled hS hi h⟩)
    (init_conserved hids) rfl ⟨elections_init members, _, sim_init members⟩ hrun havoid
  subst hmem
  exact ⟨hE.uniqueLeaders, logsMatch_of_sim hS⟩

/-- Local structs of which the `leader_commit` is `c`. -/
def holding (c : Nat) : CommunicationImpl.Uninitialised where
  aeReq :=
    { leaderTerm := 0
      leaderId := 0
      prevLogIndex := 0
      prevLogTerm := 0
      entries := []
      leaderCommit := c }
  rvResp := {}

/-- The steps of a tick of worker `i` that nobody interrupts and that handles `k` messages. -/
def tickOps (i : NodeId) (k : Nat) (expired : Bool := false) : List Op :=
  (Service.tickOps k expired).map (.service i)

/-- Worker 1 is elected with the votes of itself and of 3, and a client writes `y` to `x` there. Its
second tick from then on sends the command to the others. -/
def firstWriteRun : List Op :=
  tickOps 1 0 true ++ .deliver 1 (holding 0) :: tickOps 3 1 ++ tickOps 1 1 ++
  .deliver 1 (holding 0) :: tickOps 1 2 ++ .service 1 (.enter (.write "x" "y")) :: tickOps 1 1 ++
  [.service 1 .actualize, .service 1 (.proceed 0)] ++ tickOps 1 2 ++ tickOps 1 2

/-- Worker 3 receives the command into a struct that happens to hold 77. -/
def mistakenRun : List Op := firstWriteRun ++ .deliver 8 (holding 77) :: tickOps 3 1

/-- Worker 3 takes the command for committed, which worker 1 does not. -/
theorem leaders_and_logs_mistakenRun :
    ∃ d, exec step mistakenRun (init Cluster.threeMembers) = some d ∧
      (d.node 1).commitIndex = 0 ∧ (d.node 3).commitIndex = 1 ∧
      d.cluster.OneLeaderPerTerm ∧ d.cluster.LogsMatch := by
  obtain ⟨d, hrun, hd⟩ : ∃ d, exec step mistakenRun (init Cluster.threeMembers) = some d ∧
      ((d.node 1).commitIndex = 0 && (d.node 3).commitIndex = 1 : Bool) = true :=
    exists_of_any (by decide +kernel)
  simp only [Bool.and_eq_true, decide_eq_true_eq] at hd
  exact ⟨d, hrun, hd.1, hd.2,
    leaders_and_logs Cluster.threeMembers (by decide) mistakenRun d hrun (by decide +kernel)⟩

/-! ## Where the commands come from -/

end Deployment

/-- The service knows only of calls that `W` knows, and has given its node only commands of calls of
`Write`. -/
structure Called (W : Call → Prop) (s : Service) : Prop where
  actualizing : ∀ {call q}, s.actualizing = some (call, q) → W call
  actualized : ∀ call ∈ s.actualized, W call
  commands : ∀ {p command}, .addCommand p command ∈ s.node.history →
    ∃ key value, W (.write key value) ∧ command = writeCommand key value

/-- A call gets into `ActualizeState` from outside, and comes through from there. -/
theorem Service.step_calls {s s' : Service} {op : Worker.Op} (h : s.step op = some s') :
    (∀ {call q}, s'.actualizing = some (call, q) →
      op = .enter call ∨ s.actualizing = some (call, q)) ∧
    ∀ call ∈ s'.actualized, call ∈ s.actualized ∨ ∃ q, s.actualizing = some (call, q) := by
  cases op with
  | node i =>
    obtain ⟨p, -, rfl⟩ := Option.map_eq_some_iff.1 h
    exact ⟨.inr, fun _ => .inl⟩
  | enter call =>
    simp only [step] at h
    split at h
    · cases h
    · cases h
      refine ⟨fun hq => .inl ?_, fun _ => .inl⟩
      cases hq
      rfl
  | actualize =>
    simp only [step] at h
    split at h
    · next call q hq =>
      obtain ⟨commands, -, rfl⟩ := Option.map_eq_some_iff.1 h
      refine ⟨fun hq' => (by cases hq'), fun call' hcall => ?_⟩
      rcases List.mem_append.1 hcall with hcall | hcall
      · exact .inl hcall
      · cases List.mem_singleton.1 hcall
        exact .inr ⟨q, hq⟩
    · cases h
  | proceed k =>
    have hold : s'.actualizing = s.actualizing ∧ s'.actualized = s.actualized.eraseIdx k := by
      simp only [step] at h
      split at h
      · next call _ =>
        cases call with
        | write key value =>
          cases h
          exact ⟨rfl, rfl⟩
        | read | dumpState =>
          simp only [proceed] at h
          split at h
          · cases h
          · cases h
            exact ⟨rfl, rfl⟩
      · cases h
    rw [hold.1, hold.2]
    exact ⟨.inr, fun _ hcall => .inl (List.mem_of_mem_eraseIdx hcall)⟩
  | respond k =>
    simp only [step] at h
    split at h
    · obtain ⟨result, -, rfl⟩ := Option.map_eq_some_iff.1 h
      exact ⟨.inr, fun _ => .inl⟩
    · cases h

/-- A step handles no call that has not been made. -/
theorem called_step {W : Call → Prop} {s s' : Service} {op : Worker.Op}
    (hown : Deployment.own op = true) (hW : ∀ call, op = .enter call → W call) (hI : Called W s)
    (h : s.step op = some s') : Called W s' := by
  have hcommands : ∀ {p command}, .addCommand p command ∈ s'.node.history →
      ∃ key value, W (.write key value) ∧ command = writeCommand key value := by
    intro p command hev
    rcases Service.step_process hown h with heq | ⟨a, hp, hop⟩
    · refine hI.commands (p := p) ?_
      rwa [Service.node, ← heq]
    · have hkept : (∀ command, a ≠ .addCommand command) → ∃ key value, W (.write key value) ∧
          command = writeCommand key value :=
        fun ha => hI.commands (p := p) ((Process.step_addCommand hp ha).mem hev rfl)
      rcases hop with ⟨-, ha⟩ | ⟨start, maxCount, rfl⟩ | ⟨key, value, hcall, rfl⟩
      · exact hkept ha
      · exact hkept fun command ha => by cases ha
      · cases hp' : s'.process with
        | mk nd ticking =>
          rw [hp'] at hp
          cases hp
          rw [Service.node, hp'] at hev
          rcases List.mem_append.1 hev with hev | hev
          · exact hI.commands hev
          · cases List.mem_singleton.1 hev
            exact ⟨key, value, hI.actualized _ hcall, rfl⟩
  obtain ⟨hactualizing, hactualized⟩ := Service.step_calls h
  refine ⟨fun {call q} hq => ?_, fun call hcall => ?_, hcommands⟩
  · exact (hactualizing hq).elim (hW call) hI.actualizing
  · rcases hactualized call hcall with hcall | ⟨q, hq⟩
    · exact hI.actualized call hcall
    · exact hI.actualizing hq

/-! ## One history -/

/-- Two logs agree on what the one knows is committed, if the other knows as much. -/
theorem committedGrows_of_settled {ids : List NodeId} {a : Ledger NodeId LogItem} {nd nd' : Node}
    {t t' : Nat} (hI : a.Inv LogItem.leaderTerm (quorum ids))
    (h : Settled ids a t nd.log nd.commitIndex) (h' : Settled ids a t' nd'.log nd'.commitIndex)
    (hle : nd.commitIndex ≤ nd'.commitIndex) : CommittedGrows nd nd' := by
  refine ⟨hle, ?_⟩
  rw [(hI.settled_agree (fun q q' => Majority.inter) h h' hle).take_eq]
  exact List.take_prefix _ _

namespace Deployment

/-- A step that is not safe: a number does not fit, a wrong `leader_commit` comes in, or a node does
what a cluster has to avoid. -/
def risky (d : Deployment) (op : Op) : Bool :=
  d.overflows op || d.mistakes op || d.marks unsafeStep op

/-- What the workers keep to, with what has been settled in `a` and the calls that `W` knows. -/
structure Healthy (W : NodeId → Call → Prop) (members : Members) (a : Ledger NodeId LogItem)
    (d : Deployment) : Prop where
  conserved : d.Conserved SameFields
  mem : d.members = members
  elections : Elections members.ids d.node
  sim : Sim members.ids a d.node
  safe : ∀ i ∈ members.ids, SafeNode members.ids a (d.node i)
  given : ∀ i ∈ members.ids, GivenNode (Given members.ids d.node) (d.node i)
  replays : ∀ i ∈ members.ids, (d.services i).Replays
  called : ∀ i ∈ members.ids, Called (W i) (d.services i)

variable {W : NodeId → Call → Prop} {members : Members} {a : Ledger NodeId LogItem}
  {d d' : Deployment} {op : Op} {ops : List Op}

/-- The workers are healthy at the start. -/
theorem init_healthy (hids : ∀ i ∈ members.ids, i < 2 ^ 31) :
    Healthy W members (Ledger.init sentinel) (init members) where
  conserved := init_conserved hids
  mem := rfl
  elections := elections_init members
  sim := sim_init members
  safe := safe_init members
  given := given_init members
  replays _ _ := Service.replays_init _ _
  called _ _ := ⟨nofun, nofun, nofun⟩

/-- A step that is not risky keeps the nodes to what is settled, and no commit index goes down. -/
theorem safe_step (hH : Healthy W members a d) (hz : d.risky op = false)
    (h : d.step op = some d') : d'.Conserved SameFields ∧ ∃ a', a.Extends a' ∧
      Elections members.ids d'.node ∧ Sim members.ids a' d'.node ∧
      (∀ i ∈ members.ids, GivenNode (Given members.ids d'.node) (d'.node i)) ∧
      ∀ i ∈ members.ids, (d.node i).commitIndex ≤ (d'.node i).commitIndex ∧
        SafeNode members.ids a' (d'.node i) := by
  obtain rfl := hH.mem
  simp only [risky, Bool.or_eq_false_iff] at hz
  obtain ⟨⟨hfits, hmistakes⟩, hmarks⟩ := hz
  have hids := Cluster.nodup_ids d.members
  refine ⟨step_conserved hH.conserved h .refl hfits (brings_same hmistakes), ?_⟩
  refine invariant_step (z := unsafeStep) (I := fun nodes => ∃ a', a.Extends a' ∧
    Elections d.members.ids nodes ∧ Sim d.members.ids a' nodes ∧
    (∀ i ∈ d.members.ids, GivenNode (Given d.members.ids nodes) (nodes i)) ∧
    ∀ i ∈ d.members.ids, (d.node i).commitIndex ≤ (nodes i).commitIndex ∧
      SafeNode d.members.ids a' (nodes i)) .of_same blind_unsafeStep ?_ (.inl id) hH.conserved ?_
    hmarks h
  · rintro nodes i nd ⟨a', hx, hE, hS, hG, hK⟩ hm
    have hE' := elections_move (Hazard.Le.refl _).or_left hids hE hm
    obtain ⟨a'', hx', hS'⟩ := sim_move hids hS hm hE'.uniqueLeaders
    obtain ⟨hle, hsafe⟩ := safe_move (Hazard.Le.refl _).or_left.or_right
      (Hazard.Le.refl _).or_right.or_right hids hS (fun j hj => (hK j hj).2) hm
    refine ⟨a'', hx.trans hx', hE', hS', given_move hG hm, ?_⟩
    exact Cluster.forall_update (P := fun i nd => (d.node i).commitIndex ≤ nd.commitIndex ∧
      SafeNode d.members.ids a'' nd) ⟨Nat.le_trans (hK i hm.mem).1 hle, hsafe.mono hx'⟩
      fun j hj => ⟨(hK j hj).1, (hK j hj).2.mono hx'⟩
  · exact ⟨a, .refl a, hH.elections, hH.sim, hH.given,
      fun i hi => ⟨Nat.le_refl _, hH.safe i hi⟩⟩

/-- What a step makes of the service of a member. -/
theorem step_service (h : d.step op = some d') (i : NodeId) :
    d'.services i = d.services i ∨
      (∃ op', op = .service i op' ∧ own op' = true ∧
        (d.services i).step op' = some (d'.services i)) ∨
      ∃ sender msg,
        d'.services i = (d.services i).setNode ((d.node i).addMessage sender msg) := by
  rcases step_cases h with ⟨j, op', s, rfl, hj, hown, hs, rfl⟩ |
    ⟨k, locals, whom, wire, sender, msg, rfl, -, -, rfl⟩ | ⟨k, rfl⟩
  · rcases eq_or_ne i j with rfl | hne
    · have hservice : (d.update i s).services i = s := by simp [update]
      exact .inr (.inl ⟨op', rfl, hown, by rwa [hservice]⟩)
    · exact .inl (by simp [update, Function.update_of_ne hne])
  · rcases eq_or_ne i whom with rfl | hne
    · exact .inr (.inr ⟨sender, msg, Function.update_self ..⟩)
    · exact .inl (by simp [Function.update_of_ne hne])
  · exact .inl rfl

/-- A step that is not risky keeps the workers healthy, settles more, and lowers no commit index. -/
theorem healthy_step (hH : Healthy W members a d)
    (hW : ∀ i call, op = .service i (.enter call) → W i call) (hz : d.risky op = false)
    (h : d.step op = some d') : ∃ a', a.Extends a' ∧ Healthy W members a' d' ∧
      ∀ i ∈ members.ids, (d.node i).commitIndex ≤ (d'.node i).commitIndex := by
  obtain ⟨hc, a', hx, hE, hS, hG, hK⟩ := safe_step hH hz h
  refine ⟨a', hx, ⟨hc, (step_members hH.conserved h).trans hH.mem, hE, hS,
    fun i hi => (hK i hi).2, hG, fun i hi => ?_, fun i hi => ?_⟩, fun i hi => (hK i hi).1⟩
  · -- what the service has replayed stays committed
    have hgrows : CommittedGrows (d.services i).node (d'.services i).node :=
      committedGrows_of_settled hS.inv ((hH.safe i hi).commit.extends hx) (hK i hi).2.commit
        (hK i hi).1
    have hkept : ∀ {op'}, (d.services i).step op' = some (d'.services i) →
        (d'.services i).Replays := by
      intro op' hs
      refine Service.replays_step (hH.replays i hi) ?_ hs
      simpa [Service.losesCommitted, hs] using hgrows
    rcases step_service h i with heq | ⟨op', -, -, hs⟩ | ⟨sender, msg, heq⟩
    · rw [heq]
      exact hH.replays i hi
    · exact hkept hs
    · have hs : (d.services i).step (.node (.addMessage sender msg)) = some (d'.services i) :=
        congrArg some heq.symm
      exact hkept hs
  · have hI := hH.called i hi
    rcases step_service h i with heq | ⟨op', rfl, hown, hs⟩ | ⟨sender, msg, heq⟩
    · rwa [heq]
    · exact called_step hown (fun call hop => hW i call (congrArg _ hop)) hI hs
    · rw [heq]
      exact ⟨hI.actualizing, hI.actualized, hI.commands⟩

/-- A run without risky steps keeps the workers healthy, settles more, and lowers no commit index.
-/
theorem healthy_exec (hH : Healthy W members a d)
    (hW : ∀ i call, .service i (.enter call) ∈ ops → W i call)
    (hrun : exec step ops d = some d') (hz : Avoids step risky ops d = true) :
    ∃ a', a.Extends a' ∧ Healthy W members a' d' ∧
      ∀ i ∈ members.ids, (d.node i).commitIndex ≤ (d'.node i).commitIndex := by
  induction ops generalizing a d with
  | nil =>
    cases hrun
    exact ⟨a, .refl a, hH, fun _ _ => Nat.le_refl _⟩
  | cons op ops ih =>
    obtain ⟨e, he, hrun⟩ := exec_cons_eq.1 hrun
    obtain ⟨hbad, hz⟩ := avoids_cons hz he
    obtain ⟨a₁, hx₁, hH₁, hle₁⟩ :=
      healthy_step hH (fun i call hop => hW i call (hop ▸ List.mem_cons_self)) hbad he
    obtain ⟨a₂, hx₂, hH₂, hle₂⟩ :=
      ih hH₁ (fun i call hop => hW i call (List.mem_cons_of_mem _ hop)) hrun hz
    exact ⟨a₂, hx₁.trans hx₂, hH₂, fun i hi => Nat.le_trans (hle₁ i hi) (hle₂ i hi)⟩

/-- The commands that a node knows are committed. -/
def committed (nd : Node) : List Command :=
  ((nd.log.drop 1).take nd.commitIndex).map LogItem.command

/-- What a service has replayed is a beginning of what any node knows that knows as much. -/
theorem Healthy.replayed {a' : Ledger NodeId LogItem} (hx : a.Extends a')
    (hH : Healthy W members a d) (hH' : Healthy W members a' d') {i j : NodeId}
    (hi : i ∈ members.ids) (hj : j ∈ members.ids)
    (hle : (d.node i).commitIndex ≤ (d'.node j).commitIndex) :
    (d.services i).store.lastPersistedId.toNat ≤ (committed (d'.node j)).length ∧
      (d.services i).store.storage =
        replay ((committed (d'.node j)).take (d.services i).store.lastPersistedId.toNat) := by
  have hset' := (hH'.safe j hj).commit
  have hag := hH'.sim.inv.settled_agree (fun q q' => Majority.inter)
    ((hH.safe i hi).commit.extends hx) hset' hle
  obtain ⟨hstorage, hlast⟩ := (hH.replays i hi).refines
  change (d.services i).store.lastPersistedId.toNat ≤ (d.node i).commitIndex at hlast
  have hlt := hset'.lt
  generalize (d.services i).store.lastPersistedId.toNat = last at hstorage hlast ⊢
  have hlog : ((d.node i).log.drop 1).take last = ((d'.node j).log.drop 1).take last := by
    have htake := (hag.mono hlast).take_eq
    rw [← Nat.add_sub_cancel last 1, ← List.drop_take, ← List.drop_take, htake]
  refine ⟨?_, ?_⟩
  · rw [committed, List.length_map, List.length_take, List.length_drop]
    omega
  · rw [hstorage, committed, ← List.map_take, List.take_take,
      Nat.min_eq_left (Nat.le_trans hlast hle)]
    exact congrArg (fun l => replay (l.map LogItem.command)) hlog

/-- **One history.** In every run of the workers without a risky step there is one list of commands,
all from calls of `Write`, such that at each moment of the run each worker's store is what the
first commands of the list make of the empty store, as many as it has handled. -/
theorem one_history (members : Members) (hids : ∀ i ∈ members.ids, i < 2 ^ 31) (ops : List Op)
    (d : Deployment) (hrun : exec step ops (init members) = some d)
    (havoid : Avoids step risky ops (init members) = true) :
    ∃ commands : List Command,
      (∀ command ∈ commands, ∃ i ∈ members.ids, ∃ key value,
        .service i (.enter (.write key value)) ∈ ops ∧ command = writeCommand key value) ∧
      ∀ before after e, ops = before ++ after → exec step before (init members) = some e →
        ∀ i ∈ members.ids, (e.services i).store.lastPersistedId.toNat ≤ commands.length ∧
          (e.services i).store.storage =
            replay (commands.take (e.services i).store.lastPersistedId.toNat) := by
  rcases eq_or_ne members.ids [] with hnil | hne
  · exact ⟨[], by simp, fun _ _ _ _ _ i hi => by simp [hnil] at hi⟩
  -- the list is what the member knows that has committed most in the end
  obtain ⟨j, hj, hmax⟩ := members.ids.toFinset.exists_max_image
    (fun i => (d.node i).commitIndex) (List.toFinset_nonempty_iff _ |>.2 hne)
  rw [List.mem_toFinset] at hj
  let W : NodeId → Call → Prop := fun i call => .service i (.enter call) ∈ ops
  refine ⟨committed (d.node j), fun command hcommand => ?_, ?_⟩
  · obtain ⟨a, -, hH, -⟩ := healthy_exec (W := W) (init_healthy hids) (fun _ _ => id) hrun havoid
    obtain ⟨item, hitem, rfl⟩ := List.mem_map.1 hcommand
    obtain ⟨k, hk, p, index, -, hadd⟩ := (hH.given j hj).log item (List.mem_of_mem_take hitem)
    obtain ⟨key, value, hcall, heq⟩ := (hH.called k hk).commands hadd
    exact ⟨k, hk, key, value, hcall, heq⟩
  · rintro before after e rfl hbefore i hi
    obtain ⟨e', he', hafter⟩ := exec_append.1 hrun
    obtain rfl : e = e' := Option.some.inj (hbefore.symm.trans he')
    obtain ⟨havoid, havoid'⟩ := avoids_append hbefore havoid
    obtain ⟨a, -, hH, -⟩ := healthy_exec (W := W) (init_healthy hids)
      (fun _ _ h => List.mem_append_left _ h) hbefore havoid
    obtain ⟨a', hx, hH', hle⟩ := healthy_exec (W := W) hH
      (fun _ _ h => List.mem_append_right _ h) hafter havoid'
    exact hH.replayed hx hH' hi hj
      (Nat.le_trans (hle i hi) (hmax i (List.mem_toFinset.2 hi)))

/-- Worker 3 receives the command, and worker 1 its reply. When worker 1 has committed the command
it tells worker 3, where somebody asks for a dump. -/
def replicatedRun : List Op :=
  firstWriteRun ++ .deliver 8 (holding 0) :: tickOps 3 1 ++ .deliver 8 (holding 0) :: tickOps 1 3 ++
  tickOps 1 2 ++ tickOps 1 2 ++ .deliver 13 (holding 1) :: tickOps 3 1 ++
  .service 3 (.enter .dumpState) :: tickOps 3 0 ++ [.service 3 .actualize]

/-- The store of worker 3 holds what was written at worker 1. -/
theorem one_history_replicatedRun :
    ∃ d, exec step replicatedRun (init Cluster.threeMembers) = some d ∧
      (d.services 3).store.lastPersistedId = 1 ∧
      ∃ commands : List Command, 1 ≤ commands.length ∧
        (d.services 3).store.storage = replay (commands.take 1) := by
  obtain ⟨d, hrun, hd⟩ : ∃ d, exec step replicatedRun (init Cluster.threeMembers) = some d ∧
      decide ((d.services 3).store.lastPersistedId = 1) = true :=
    exists_of_any (by decide +kernel)
  have hlast := of_decide_eq_true hd
  obtain ⟨commands, -, hall⟩ :=
    one_history Cluster.threeMembers (by decide) replicatedRun d hrun (by decide +kernel)
  have h3 := hall replicatedRun [] d (List.append_nil _).symm hrun 3 (by decide)
  rw [hlast] at h3
  exact ⟨d, hrun, hlast, commands, h3⟩

end Deployment

end ToFTDS.Worker
