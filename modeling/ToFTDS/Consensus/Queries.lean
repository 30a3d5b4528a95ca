import Mathlib.Algebra.GroupWithZero.Nat
import ToFTDS.Consensus.Runs

/-!
# Queries for the committed commands

`GetPersistentCommands` puts a query into a queue, and the next tick begins with answering the whole
queue (`HandleGetPersistentCommandRequests`). An answer is a `window` into the log. The end of the
window is a sum of two 64-bit numbers, which may wrap: `committed_windows_exact` says for which
calls the window is the one that was asked for.

The number of a call names its future. It is answered once (`QueryIds`), and nothing but the
beginning of a tick answers (`Process.step_queries`).
-/

namespace ToFTDS.Consensus

open Run Node

namespace Node

/-! ## Windows -/

/-- The commands of `log` from index `start` on, `count` of them at most and none past index `k`. -/
def window (log : Log) (start count : UInt64) (k : Nat) : List Command :=
  ((log.take (min (start + count).toNat (k + 1))).drop start.toNat).map LogItem.command

/-- Reading a range of existing items succeeds. -/
theorem mapM_logAt (nd : Node) (start n : Nat) (h : start + n ≤ nd.log.length) :
    (List.range' start n).mapM (fun i => do return (← nd.logAt i).command) =
      .ok (((nd.log.drop start).take n).map LogItem.command) := by
  induction n generalizing start with
  | zero => rfl
  | succ n ih =>
    have hlt : start < nd.log.length := by omega
    have hat : nd.logAt start = .ok nd.log[start] := by
      simp [logAt, hlt]
    rw [List.range'_succ, List.mapM_cons, hat, ih (start + 1) (by omega),
      List.drop_eq_getElem_cons hlt]
    rfl

/-- A query reads up to the commit index, so that it never reads past the log as long as the commit
index does not. -/
theorem persistentCommands_eq {nd : Node} (h : nd.commitIndex < nd.log.length)
    (start count : UInt64) :
    nd.persistentCommands start count = .ok (window nd.log start count nd.commitIndex) := by
  rw [persistentCommands, window, List.drop_take]
  rcases Nat.lt_or_ge start.toNat (min (start + count).toNat (nd.commitIndex + 1)) with hlt | hge
  · exact mapM_logAt nd start.toNat _ (by omega)
  · rw [Nat.sub_eq_zero_of_le hge, List.take_zero]
    rfl

/-- Windows into two logs that agree up to the smaller of their ends. -/
theorem window_isPrefix {log log' : Log} {k k' : Nat} (h : AgreeTo k log log') (hk : k ≤ k')
    (start count : UInt64) : window log start count k <+: window log' start count k' := by
  have htake : log.take (min (start + count).toNat (k + 1)) =
      log'.take (min (start + count).toNat (k + 1)) := by
    refine List.ext_getElem? fun j => ?_
    rw [List.getElem?_take, List.getElem?_take]
    split
    · exact h.getElem?_eq (by omega)
    · rfl
  rw [window, window, htake]
  exact ((List.take_prefix_take_left (by omega)).drop _).map _

/-- Reading a range of the log succeeds only within the log. -/
theorem mapM_logAt_ok {nd : Node} {start n : Nat} {result : List Command}
    (h : (List.range' start n).mapM (fun i => do return (← nd.logAt i).command) = .ok result) :
    n = 0 ∨ start + n ≤ nd.log.length := by
  induction n generalizing start result with
  | zero => exact .inl rfl
  | succ n ih =>
    rw [List.range'_succ, List.mapM_cons] at h
    obtain ⟨command, h1, h2⟩ := bind_eq_ok.1 h
    obtain ⟨item, h1, -⟩ := bind_eq_ok.1 h1
    obtain ⟨rest, h2, -⟩ := bind_eq_ok.1 h2
    have hlt : start < nd.log.length := by
      unfold logAt at h1
      split at h1
      · next hitem => exact (List.getElem?_eq_some_iff.1 hitem).1
      · cases h1
    right
    rcases ih h2 with rfl | hle <;> omega

/-- An answer is a window, whatever the commit index. -/
theorem persistentCommands_ok {nd : Node} {start count : UInt64} {result : List Command}
    (h : nd.persistentCommands start count = .ok result) :
    result = window nd.log start count nd.commitIndex := by
  rw [window, List.drop_take]
  unfold persistentCommands at h
  rcases mapM_logAt_ok h with h0 | hle
  · rw [h0] at h ⊢
    cases h
    rfl
  · rw [mapM_logAt nd _ _ hle] at h
    exact (Except.ok.inj h).symm

/-- The node after it has answered its queries. -/
def answerAll (nd : Node) : Node :=
  { nd with
    getPersistentCommandsReqs := []
    history := nd.history ++ nd.getPersistentCommandsReqs.map fun req =>
      .setCommands req.1 req.2.1 req.2.2 (window nd.log req.2.1 req.2.2 nd.commitIndex) }

/-- The loop of `HandleGetPersistentCommandRequests`, as far as its queries can be answered. -/
theorem foldlM_answer (nd : Node) (reqs : List (QueryId × UInt64 × UInt64))
    (h : ∀ req ∈ reqs, nd.persistentCommands req.2.1 req.2.2 =
      .ok (window nd.log req.2.1 req.2.2 nd.commitIndex)) :
    reqs.foldlM (fun nd req => do
        let result ← nd.persistentCommands req.2.1 req.2.2
        return nd.emit (.setCommands req.1 req.2.1 req.2.2 result)) nd =
      Except.ok (nd.note (reqs.map fun req =>
        .setCommands req.1 req.2.1 req.2.2 (window nd.log req.2.1 req.2.2 nd.commitIndex))) := by
  induction reqs generalizing nd with
  | nil => simp [note, pure, Except.pure]
  | cons req reqs ih =>
    rw [List.foldlM_cons, h req List.mem_cons_self]
    refine (ih (nd.emit _) fun req' hreq' => h req' (List.mem_cons_of_mem _ hreq')).trans ?_
    simp [note, emit]

/-- As long as the commit index is in the log, every query is answered. -/
theorem handleGetPersistentCommandRequests_eq {nd : Node} (h : nd.commitIndex < nd.log.length) :
    nd.handleGetPersistentCommandRequests = .ok nd.answerAll :=
  foldlM_answer { nd with getPersistentCommandsReqs := [] } _ fun _ _ => persistentCommands_eq h _ _

/-- The queue is answered only if each of its queries can be. -/
theorem persistentCommands_of_ok {nd nd' : Node}
    (h : nd.handleGetPersistentCommandRequests = .ok nd') :
    ∀ req ∈ nd.getPersistentCommandsReqs, nd.persistentCommands req.2.1 req.2.2 =
      .ok (window nd.log req.2.1 req.2.2 nd.commitIndex) := by
  have hall : ∀ (reqs : List (QueryId × UInt64 × UInt64)) (nd : Node),
      reqs.foldlM (fun nd req => do
        let result ← nd.persistentCommands req.2.1 req.2.2
        return nd.emit (.setCommands req.1 req.2.1 req.2.2 result)) nd = .ok nd' →
      ∀ req ∈ reqs, nd.persistentCommands req.2.1 req.2.2 =
        .ok (window nd.log req.2.1 req.2.2 nd.commitIndex) := by
    intro reqs
    induction reqs with
    | nil => simp
    | cons req reqs ih =>
      intro nd h req' hreq'
      rw [List.foldlM_cons] at h
      obtain ⟨nd₁, h1, h2⟩ := bind_eq_ok.1 h
      obtain ⟨result, hr, h1⟩ := bind_eq_ok.1 h1
      cases h1
      rcases List.mem_cons.1 hreq' with rfl | hreq'
      · rw [← persistentCommands_ok hr, hr]
      · exact ih _ h2 req' hreq'
  exact hall _ { nd with getPersistentCommandsReqs := [] } h

/-- Where the queue of queries is handled, every query has got its answer. -/
theorem handleGetPersistentCommandRequests_ok {nd nd' : Node}
    (h : nd.handleGetPersistentCommandRequests = .ok nd') : nd' = nd.answerAll := by
  have heq := foldlM_answer { nd with getPersistentCommandsReqs := [] }
    nd.getPersistentCommandsReqs fun req hreq => persistentCommands_of_ok h req hreq
  exact Except.ok.inj (h.symm.trans heq)

/-! ## Calls -/

/-- The commands that a call asks for: those at the indices from `start` on, `count` of them at most
and none past the commit index. -/
def committedFrom (nd : Node) (start count : Nat) : List Command :=
  (((nd.log.take (nd.commitIndex + 1)).drop start).take count).map LogItem.command

/-- The first index that `GetPersistentCommands` looks at. -/
def firstIndex (start : UInt64) : Nat := max start.toNat 1

/-- What a call of `GetPersistentCommands` gets from `HandleGetPersistentCommandRequests` of the
next tick. Its query is the last of the queue. -/
def answerAtTick (nd : Node) (start maxCount : UInt64) : Option (List Command) :=
  match (nd.getPersistentCommands start maxCount).handleGetPersistentCommandRequests with
  | .ok nd' =>
    match nd'.history.getLast? with
    | some (.setCommands q _ _ result) => if q = nd.queries then some result else none
    | _ => none
  | .error _ => none

/-- A reader that asks for consecutive pages of the given sizes, from `start` on. -/
def readPages (nd : Node) : UInt64 → List UInt64 → Option (List Command)
  | _, [] => some []
  | start, size :: sizes => do
    let page ← nd.answerAtTick start size
    let pages ← nd.readPages (start + size) sizes
    return page ++ pages

/-- The next tick answers a call with its window. -/
theorem answerAtTick_eq {nd : Node} (h : nd.commitIndex < nd.log.length)
    (start maxCount : UInt64) :
    nd.answerAtTick start maxCount =
      some (window nd.log (if start = 0 then 1 else start) maxCount nd.commitIndex) := by
  have heq : (nd.getPersistentCommands start maxCount).handleGetPersistentCommandRequests = .ok _ :=
    handleGetPersistentCommandRequests_eq h
  rw [answerAtTick, heq]
  simp [answerAll, getPersistentCommands]

/-- A call that starts at 0 starts at 1. -/
theorem toNat_start (start : UInt64) :
    (if start = 0 then 1 else start : UInt64).toNat = firstIndex start := by
  unfold firstIndex
  split
  · next h => rw [h]; rfl
  · next h =>
    have : start.toNat ≠ 0 := fun h0 => h (UInt64.toNat_inj.1 h0)
    omega

/-- A window that does not wrap. -/
theorem window_eq {nd : Node} {start count : UInt64} (h : start.toNat + count.toNat < 2 ^ 64) :
    window nd.log start count nd.commitIndex = nd.committedFrom start.toNat count.toNat := by
  rw [window, committedFrom, UInt64.toNat_add, Nat.mod_eq_of_lt h, ← List.take_take, List.drop_take,
    Nat.add_sub_cancel_left]

/-- A window that wraps ends in front of its start. -/
theorem window_eq_nil {nd : Node} {start count : UInt64}
    (h : 2 ^ 64 ≤ start.toNat + count.toNat) :
    window nd.log start count nd.commitIndex = [] := by
  have hc := count.toNat_lt
  have hs := start.toNat_lt
  have hadd : (start + count).toNat = start.toNat + count.toNat - 2 ^ 64 := by
    rw [UInt64.toNat_add]
    omega
  rw [window, hadd, List.drop_eq_nil_of_le, List.map_nil]
  rw [List.length_take]
  omega

/-- There is nothing to answer if nothing is asked for, or nothing is committed from the start on.
-/
theorem committedFrom_eq_nil_iff {nd : Node} (h : nd.commitIndex < nd.log.length)
    {start count : Nat} :
    nd.committedFrom start count = [] ↔ count = 0 ∨ nd.commitIndex < start := by
  rw [committedFrom, List.map_eq_nil_iff, List.take_eq_nil_iff, List.drop_eq_nil_iff,
    List.length_take]
  omega

/-- The next page begins where this one ends. -/
theorem committedFrom_append (nd : Node) (start count count' : Nat) :
    nd.committedFrom start count ++ nd.committedFrom (start + count) count' =
      nd.committedFrom start (count + count') := by
  rw [committedFrom, committedFrom, committedFrom, ← List.map_append, ← List.drop_drop,
    ← List.take_add]

/-- **Committed-command windows.** A call gets what it asks for unless the end of its window wraps
around and the window is not empty. So consecutive pages whose ends do not wrap around hold the
commands from index 1 on one after the other. -/
theorem committed_windows_exact (nd : Node) (h : nd.commitIndex < nd.log.length) :
    (∀ start maxCount : UInt64,
      nd.answerAtTick start maxCount =
          some (nd.committedFrom (firstIndex start) maxCount.toNat) ↔
        firstIndex start + maxCount.toNat < 2 ^ 64 ∨ nd.commitIndex < firstIndex start) ∧
    ∀ sizes : List UInt64, 1 + (sizes.map UInt64.toNat).sum < 2 ^ 64 →
      nd.readPages 1 sizes = some (nd.committedFrom 1 (sizes.map UInt64.toNat).sum) := by
  have hexact : ∀ start maxCount : UInt64, nd.answerAtTick start maxCount =
      some (nd.committedFrom (firstIndex start) maxCount.toNat) ↔
        firstIndex start + maxCount.toNat < 2 ^ 64 ∨ nd.commitIndex < firstIndex start := by
    intro start maxCount
    rw [answerAtTick_eq h, Option.some.injEq, ← toNat_start]
    generalize (if start = 0 then 1 else start : UInt64) = start
    rcases Nat.lt_or_ge (start.toNat + maxCount.toNat) (2 ^ 64) with hlt | hge
    · exact iff_of_true (window_eq hlt) (.inl hlt)
    · rw [window_eq_nil hge, eq_comm, committedFrom_eq_nil_iff h]
      have := start.toNat_lt
      omega
  refine ⟨hexact, ?_⟩
  have hpages : ∀ (sizes : List UInt64) (start : UInt64), start ≠ 0 →
      start.toNat + (sizes.map UInt64.toNat).sum < 2 ^ 64 →
      nd.readPages start sizes =
        some (nd.committedFrom start.toNat (sizes.map UInt64.toNat).sum) := by
    intro sizes
    induction sizes with
    | nil => simp [readPages, committedFrom]
    | cons size sizes ih =>
      intro start hstart hsum
      rw [List.map_cons, List.sum_cons] at hsum ⊢
      have hfirst : firstIndex start = start.toNat := by rw [← toNat_start, if_neg hstart]
      have hadd : (start + size).toNat = start.toNat + size.toNat := by
        rw [UInt64.toNat_add]
        omega
      have hpage := (hexact start size).2 (.inl (by omega))
      have hpos : 0 < start.toNat := by
        rw [← hfirst]
        exact Nat.lt_of_lt_of_le Nat.zero_lt_one (Nat.le_max_right _ _)
      have hrest := ih (start + size) (fun h0 => by rw [h0] at hadd; simp at hadd; omega) (by omega)
      rw [hadd] at hrest
      rw [readPages, hpage, hrest, hfirst, ← committedFrom_append]
      rfl
  exact fun sizes hsum => hpages sizes 1 (by decide) hsum

/-- A node that has committed the commands `x` and `y`. -/
def twoCommitted : Node where
  myId := 1
  channels := [1]
  log := [sentinel, { command := "x", leaderTerm := 1 }, { command := "y", leaderTerm := 1 }]
  commitIndex := 2

/-- A node with two committed commands answers with both, in one call or in two pages. -/
theorem committed_windows_exact_twoCommitted :
    twoCommitted.answerAtTick 0 10 = some ["x", "y"] ∧
      twoCommitted.readPages 1 [1, 5] = some ["x", "y"] :=
  ⟨((committed_windows_exact twoCommitted (by decide)).1 0 10).2 (.inl (by decide)),
    (committed_windows_exact twoCommitted (by decide)).2 [1, 5] (by decide)⟩

/-- Asked for everything from index 1 on, a node answers with nothing. -/
theorem not_committed_windows_exact :
    ¬ ∀ (nd : Node) (start maxCount : UInt64), nd.commitIndex < nd.log.length →
      nd.answerAtTick start maxCount =
        some (nd.committedFrom (firstIndex start) maxCount.toNat) := by
  intro h
  have hall := h twoCommitted 1 (2 ^ 64 - 1) (by decide)
  have hnone : twoCommitted.answerAtTick 1 (2 ^ 64 - 1) = some [] := by decide +kernel
  rw [hnone] at hall
  exact absurd (Option.some.inj hall) (by decide +kernel)

/-! ## Who answers -/

end Node

/-- The events that answer a query. -/
def Event.answersQuery : Event → Bool
  | .setCommands .. => true
  | _ => false

namespace Node

/-- The queue of queries is left alone, and none is answered. -/
structure KeepsQueries (nd nd' : Node) : Prop where
  reqs : nd'.getPersistentCommandsReqs = nd.getPersistentCommandsReqs
  queries : nd'.queries = nd.queries
  history : NoNew Event.answersQuery nd nd'

section
variable {nd nd₁ nd' : Node}

/-- Nothing is answered by doing nothing. -/
theorem KeepsQueries.refl (nd : Node) : KeepsQueries nd nd := ⟨rfl, rfl, noNew_of_history_eq rfl⟩

/-- What leaves the queries alone twice in a row leaves them alone. -/
theorem KeepsQueries.trans (h : KeepsQueries nd nd₁) (h' : KeepsQueries nd₁ nd') :
    KeepsQueries nd nd' :=
  ⟨h'.reqs.trans h.reqs, h'.queries.trans h.queries, h.history.trans h'.history⟩

/-- Other events leave the queries alone. -/
theorem keepsQueries_emit (nd : Node) {e : Event} (he : e.answersQuery = false) :
    KeepsQueries nd (nd.emit e) := ⟨rfl, rfl, [e], rfl, by simpa using he⟩

/-- Observing a term leaves the queries alone. -/
theorem keepsQueries_observeTerm (nd : Node) (term : Nat) :
    KeepsQueries nd (nd.observeTerm term) := by
  rcases nd.observeTerm_cases term with ⟨-, heq⟩ | ⟨-, heq⟩ <;> rw [heq]
  · exact .refl nd
  · exact ⟨rfl, rfl, [_], rfl, by simp [Event.answersQuery]⟩

/-- Sending leaves the queries alone. -/
theorem keepsQueries_send (nd : Node) (whom : NodeId) (msg : Message) :
    KeepsQueries nd (nd.send whom msg) := ⟨rfl, rfl, [_], rfl, by simp [Event.answersQuery]⟩

/-- Sending to several leaves the queries alone. -/
theorem keepsQueries_sendEach (l : List (NodeId × Message)) (nd : Node) :
    KeepsQueries nd (nd.sendEach l) := by
  induction l generalizing nd with
  | nil => exact .refl nd
  | cons x l ih => exact (keepsQueries_send nd x.1 x.2).trans (ih _)

/-- Redirecting commands leaves the queries alone. -/
theorem keepsQueries_redirectCommands (nd : Node) (leaderId : NodeId) :
    KeepsQueries nd (nd.redirectCommands leaderId) := by
  have hnew := noNew_redirectCommands (p := Event.answersQuery) (fun _ _ => rfl) nd leaderId
  unfold redirectCommands at hnew ⊢
  split <;> exact ⟨rfl, rfl, by simpa [*] using hnew⟩

/-- An AppendEntriesRequest leaves the queries alone. -/
theorem keepsQueries_handleAppendEntriesRequest (nd : Node) (req : AppendEntriesRequest) :
    KeepsQueries nd (nd.handleAppendEntriesRequest req).2 := by
  have h1 : KeepsQueries nd (nd.beforeEntries req) :=
    (keepsQueries_observeTerm nd _).trans (keepsQueries_emit _ rfl)
  have h2 := h1.trans (keepsQueries_redirectCommands _ req.leaderId)
  rcases nd.handleAppendEntriesRequest_cases req with
    ⟨-, heq⟩ | ⟨-, -, heq⟩ | ⟨-, -, heq⟩ <;> rw [heq]
  · exact h1
  · exact h2
  · exact h2.trans ⟨rfl, rfl, noNew_accept (fun _ => rfl) _ req⟩

/-- A RequestVoteRequest leaves the queries alone. -/
theorem keepsQueries_handleRequestVoteRequest (nd : Node) (req : RequestVoteRequest) :
    KeepsQueries nd (nd.handleRequestVoteRequest req).2 := by
  have h1 := keepsQueries_observeTerm nd req.candidateTerm
  rcases nd.handleRequestVoteRequest_cases req with
    ⟨-, heq⟩ | ⟨-, -, heq⟩ | ⟨-, -, heq⟩ <;> rw [heq]
  · exact h1
  · exact h1.trans ⟨rfl, rfl, [_], rfl, by simp [Event.answersQuery]⟩
  · exact h1

/-- An AppendEntriesResponse leaves the queries alone. -/
theorem keepsQueries_handleAppendEntriesResponse {resp : AppendEntriesResponse}
    {fromWho : NodeId} (h : nd.handleAppendEntriesResponse resp fromWho = .ok nd') :
    KeepsQueries nd nd' := by
  have h1 := keepsQueries_observeTerm nd resp.currentTerm
  rcases handleAppendEntriesResponse_ok h with
    ⟨-, rfl⟩ | ⟨-, ls, -, ⟨-, rfl⟩ | ⟨-, m, -, rfl⟩⟩
  · exact h1
  all_goals exact h1.trans ⟨rfl, rfl, noNew_of_history_eq rfl⟩

/-- Becoming the leader leaves the queries alone. -/
theorem keepsQueries_becomeLeader (h : nd.becomeLeader = .ok nd') : KeepsQueries nd nd' := by
  obtain ⟨l, rfl, -⟩ := becomeLeader_ok h
  refine KeepsQueries.trans ?_ (keepsQueries_sendEach l _)
  exact ⟨rfl, rfl, [_], rfl, by simp [Event.answersQuery]⟩

/-- A RequestVoteResponse leaves the queries alone. -/
theorem keepsQueries_handleRequestVoteResponse {resp : RequestVoteResponse}
    {fromWho : NodeId} (h : nd.handleRequestVoteResponse resp fromWho = .ok nd') :
    KeepsQueries nd nd' := by
  have h1 := keepsQueries_observeTerm nd resp.currentTerm
  rcases handleRequestVoteResponse_ok h with rfl | ⟨-, -, -, cs, -, rfl | ⟨-, h2⟩⟩
  · exact h1
  · exact h1.trans ⟨rfl, rfl, noNew_of_history_eq rfl⟩
  · exact (h1.trans ⟨rfl, rfl, noNew_of_history_eq rfl⟩).trans (keepsQueries_becomeLeader h2)

/-- The handling of any message leaves the queries alone. -/
theorem keepsQueries_handleMessage {sender : NodeId} {msg : Message}
    (h : nd.handleMessage sender msg = .ok nd') : KeepsQueries nd nd' := by
  rcases handleMessage_ok h with
    ⟨req, resp, -, -, -, rfl⟩ | ⟨req, -, -, rfl⟩ | ⟨resp, -, h⟩ | ⟨resp, -, h⟩
  · exact ((keepsQueries_handleAppendEntriesRequest nd req).trans
      (keepsQueries_emit _ rfl)).trans (keepsQueries_send _ _ _)
  · exact (keepsQueries_handleRequestVoteRequest nd req).trans (keepsQueries_send _ _ _)
  · exact keepsQueries_handleAppendEntriesResponse h
  · exact keepsQueries_handleRequestVoteResponse h

/-- Resolving an index leaves the queries alone. -/
theorem keepsQueries_resolve (nd : Node) (i : Nat) : KeepsQueries nd (nd.resolve i) := by
  unfold resolve
  split
  · exact ⟨rfl, rfl, [_], rfl, by simp [Event.answersQuery]⟩
  · exact .refl nd

/-- Resolving several indices leaves the queries alone. -/
theorem keepsQueries_foldl_resolve (l : List Nat) (nd : Node) :
    KeepsQueries nd (l.foldl resolve nd) := by
  induction l generalizing nd with
  | nil => exact .refl nd
  | cons i l ih => exact (keepsQueries_resolve nd i).trans (ih _)

/-- The commit scan leaves the queries alone. -/
theorem keepsQueries_commitIfPossible (h : nd.commitIfPossible = .ok nd') :
    KeepsQueries nd nd' := by
  rcases commitIfPossible_ok h with rfl | ⟨ls, id, -, -, rfl⟩
  · exact .refl _
  · have h1 :=
      keepsQueries_foldl_resolve (List.range' (nd.commitIndex + 1) (id - nd.commitIndex)) nd
    exact h1.trans ⟨rfl, rfl, [_], rfl, by simp [Event.answersQuery]⟩

/-- Appending commands leaves the queries alone. -/
theorem keepsQueries_foldl_addNewCommand (commands : List (Command × PromiseId)) (nd : Node) :
    KeepsQueries nd (commands.foldl addNewCommand nd) := by
  induction commands generalizing nd with
  | nil => exact .refl nd
  | cons command commands ih =>
    have h1 : KeepsQueries nd (nd.addNewCommand command) :=
      ⟨rfl, rfl, noNew_addNewCommand (fun _ => rfl) (fun _ _ _ => rfl) nd command⟩
    exact h1.trans (ih _)

/-- Ending a tick leaves the queries alone. -/
theorem keepsQueries_endTick {asLeader expired : Bool}
    (h : nd.endTick asLeader expired = .ok nd') : KeepsQueries nd nd' := by
  unfold endTick at h
  split at h
  · unfold finishTickLeader at h
    split at h
    · next hr =>
      obtain ⟨nd₁, h1, h2⟩ := bind_eq_ok.1 h
      cases h2
      obtain ⟨l, rfl, -⟩ := sendAppendEntriesToAll_ok hr h1
      have h1 : KeepsQueries (nd.sendEach l) { nd.sendEach l with incomingCommands := [] } :=
        ⟨rfl, rfl, noNew_of_history_eq rfl⟩
      exact ((keepsQueries_sendEach l nd).trans h1).trans (keepsQueries_foldl_addNewCommand _ _)
    · cases h
      exact .refl nd
  · cases h
    cases expired with
    | false => exact .refl nd
    | true =>
      change KeepsQueries nd nd.becomeCandidate
      have h1 : KeepsQueries nd { nd with
          currentTerm := nd.currentTerm + 1
          votedFor := some nd.myId
          history := nd.history ++ [.resetTimer] } :=
        ⟨rfl, rfl, [_], rfl, by simp [Event.answersQuery]⟩
      rw [becomeCandidate_eq]
      exact (h1.trans (keepsQueries_sendEach _ _)).trans ⟨rfl, rfl, noNew_of_history_eq rfl⟩

/-! ## Futures -/

/-- The value of the future of the call `q` of `GetPersistentCommands`, once there is one. -/
def commandsOf (nd : Node) (q : QueryId) : Option (List Command) :=
  nd.history.findSome? fun
    | .setCommands q' _ _ result => if q' = q then some result else none
    | _ => none

/-- The value of the future of the call `p` of `AddCommand`, once there is one. -/
def resultOf (nd : Node) (p : PromiseId) : Option AddCommandResult :=
  nd.history.findSome? fun
    | .setValue p' result => if p' = p then some result else none
    | _ => none

/-- The calls have different numbers, and each is answered once. -/
structure QueryIds (nd : Node) : Prop where
  waiting : ∀ req ∈ nd.getPersistentCommandsReqs, req.1 < nd.queries
  answered : ∀ {q start count result}, .setCommands q start count result ∈ nd.history →
    q < nd.queries
  apart : ∀ {q start count result}, .setCommands q start count result ∈ nd.history →
    ∀ req ∈ nd.getPersistentCommandsReqs, req.1 ≠ q
  nodup : (nd.getPersistentCommandsReqs.map Prod.fst).Nodup
  once : ∀ {q start count result start' count' result'},
    .setCommands q start count result ∈ nd.history →
    .setCommands q start' count' result' ∈ nd.history → result = result'

/-- What leaves the queries alone keeps their numbers in order. -/
theorem KeepsQueries.queryIds (h : KeepsQueries nd nd') (hI : QueryIds nd) : QueryIds nd' where
  waiting := by
    rw [h.reqs, h.queries]
    exact hI.waiting
  answered hev := h.queries ▸ hI.answered (h.history.mem hev rfl)
  apart hev := h.reqs ▸ hI.apart (h.history.mem hev rfl)
  nodup := h.reqs ▸ hI.nodup
  once hev hev' := hI.once (h.history.mem hev rfl) (h.history.mem hev' rfl)

/-- A new call gets a new number. -/
theorem queryIds_getPersistentCommands (h : QueryIds nd) (start maxCount : UInt64) :
    QueryIds (nd.getPersistentCommands start maxCount) where
  waiting req hreq := by
    rcases List.mem_append.1 hreq with hreq | hreq
    · exact Nat.lt_succ_of_lt (h.waiting req hreq)
    · cases List.mem_singleton.1 hreq
      exact Nat.lt_succ_self _
  answered hev := Nat.lt_succ_of_lt (h.answered hev)
  apart hev req hreq := by
    rcases List.mem_append.1 hreq with hreq | hreq
    · exact h.apart hev req hreq
    · cases List.mem_singleton.1 hreq
      exact Nat.ne_of_gt (h.answered hev)
  nodup := by
    rw [getPersistentCommands, List.map_append, List.nodup_append]
    refine ⟨h.nodup, by simp, ?_⟩
    intro q hq q' hq'
    obtain ⟨req, hreq, rfl⟩ := List.mem_map.1 hq
    obtain rfl : q' = nd.queries := by simpa using hq'
    exact Nat.ne_of_lt (h.waiting req hreq)
  once := h.once

/-- The new answers are those to the queue. -/
theorem mem_answerAll {q : QueryId} {start count : UInt64} {result : List Command} :
    .setCommands q start count result ∈ nd.answerAll.history ↔
      .setCommands q start count result ∈ nd.history ∨
        (q, start, count) ∈ nd.getPersistentCommandsReqs ∧
          result = window nd.log start count nd.commitIndex := by
  simp only [answerAll, List.mem_append, List.mem_map, Event.setCommands.injEq, Prod.exists]
  refine or_congr Iff.rfl ⟨?_, ?_⟩
  · rintro ⟨q', start', count', hreq, rfl, rfl, rfl, rfl⟩
    exact ⟨hreq, rfl⟩
  · rintro ⟨hreq, rfl⟩
    exact ⟨q, start, count, hreq, rfl, rfl, rfl, rfl⟩

/-- Answering the queue answers each call in it for the first time. -/
theorem queryIds_answerAll (h : QueryIds nd) : QueryIds nd.answerAll where
  waiting _ hreq := by cases hreq
  answered hev := by
    rcases mem_answerAll.1 hev with hev | ⟨hreq, -⟩
    · exact h.answered hev
    · exact h.waiting _ hreq
  apart _ _ hreq := by cases hreq
  nodup := List.nodup_nil
  once hev hev' := by
    rcases mem_answerAll.1 hev with hev | ⟨hreq, rfl⟩ <;>
      rcases mem_answerAll.1 hev' with hev' | ⟨hreq', rfl⟩
    · exact h.once hev hev'
    · exact absurd rfl (h.apart hev _ hreq')
    · exact absurd rfl (h.apart hev' _ hreq)
    · have heq := List.inj_on_of_nodup_map h.nodup hreq hreq' rfl
      cases heq
      rfl

/-- The future of an answered call has the answer. -/
theorem commandsOf_eq (h : QueryIds nd) {q : QueryId} {start count : UInt64}
    {result : List Command} (hev : .setCommands q start count result ∈ nd.history) :
    nd.commandsOf q = some result := by
  cases hq : nd.commandsOf q with
  | none =>
    have := List.findSome?_eq_none_iff.1 hq _ hev
    simp at this
  | some result' =>
    obtain ⟨e, he, heq⟩ := List.exists_of_findSome?_eq_some hq
    cases e with
    | setCommands q' start' count' result'' =>
      dsimp only at heq
      split at heq
      · next hqq =>
        cases heq
        subst hqq
        rw [h.once hev he]
      · cases heq
    | _ => cases heq

/-- A future has the value of an answer only. -/
theorem mem_of_commandsOf_eq_some {q : QueryId} {result : List Command}
    (h : nd.commandsOf q = some result) :
    ∃ start count, .setCommands q start count result ∈ nd.history := by
  obtain ⟨e, he, heq⟩ := List.exists_of_findSome?_eq_some h
  cases e with
  | setCommands q' start' count' result' =>
    dsimp only at heq
    split at heq
    · next hqq =>
      cases heq
      subst hqq
      exact ⟨_, _, he⟩
    · cases heq
  | _ => cases heq

end

end Node

/-- The beginning of a tick answers the queue. -/
theorem Process.beginTick_queries {p p' : Process} (h : p.step (.act .beginTick) = some p') :
    p.node.handleGetPersistentCommandRequests = .ok p.node.answerAll ∧
      KeepsQueries p.node.answerAll p'.node := by
  obtain ⟨nd, -, hnode, rfl⟩ := step_beginTick h
  obtain ⟨nd₁, h1, h2⟩ := bind_eq_ok.1 hnode
  obtain rfl := handleGetPersistentCommandRequests_ok h1
  have hk : KeepsQueries p.node.answerAll nd := by
    split at h2
    · exact keepsQueries_commitIfPossible h2
    · cases h2
      exact .refl _
  exact ⟨h1, hk.trans ⟨rfl, rfl, noNew_of_history_eq rfl⟩⟩

/-- Only a call adds to the queue, and only the beginning of a tick answers it. -/
theorem Process.step_queries {p p' : Process} {i : Input} (h : p.step i = some p') :
    (∃ start maxCount, p'.node = p.node.getPersistentCommands start maxCount) ∨
      (i = .act .beginTick ∧ KeepsQueries p.node.answerAll p'.node) ∨
      KeepsQueries p.node p'.node := by
  cases i with
  | addMessage sender msg =>
    cases h
    exact .inr (.inr ⟨rfl, rfl, noNew_of_history_eq rfl⟩)
  | act a =>
    cases a with
    | addCommand command =>
      cases h
      exact .inr (.inr ⟨rfl, rfl, [_], rfl, by simp [Event.answersQuery]⟩)
    | getPersistentCommands start maxCount =>
      cases h
      exact .inl ⟨start, maxCount, rfl⟩
    | beginTick => exact .inr (.inl ⟨rfl, (beginTick_queries h).2⟩)
    | handle =>
      obtain ⟨asLeader, m, rest, nd, -, hnode, rfl⟩ := step_handle h
      exact .inr (.inr (keepsQueries_handleMessage hnode))
    | endTick expired =>
      obtain ⟨asLeader, nd, -, hnode, rfl⟩ := step_endTick h
      exact .inr (.inr (keepsQueries_endTick hnode))

/-- Every step of a process keeps the numbers in order. -/
theorem Process.queryIds_step {p p' : Process} {i : Input} (hI : QueryIds p.node)
    (h : p.step i = some p') : QueryIds p'.node := by
  rcases step_queries h with ⟨start, maxCount, heq⟩ | ⟨-, hk⟩ | hk
  · rw [heq]
    exact queryIds_getPersistentCommands hI start maxCount
  · exact hk.queryIds (queryIds_answerAll hI)
  · exact hk.queryIds hI

end ToFTDS.Consensus
