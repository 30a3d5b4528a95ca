import ToFTDS.Lib.Splice
import ToFTDS.Consensus.Cluster

/-!
# What the methods of a node do

One lemma per method, for the proofs about runs, so that none of them unfolds a method. `Quiet`
collects the methods that leave the protocol's state alone: they answer clients, queue commands and
reset the timer. `sendEach` is the shape of all methods that send, and `Grows` is what every method
does to the history and the inboxes. `storeEntries_eq` says that the loop over the entries of a
request is `splice`.
-/

namespace ToFTDS.Consensus

/-- A run of `Except` that goes on has gone well so far. -/
theorem bind_eq_ok {ε α β : Type} {x : Except ε α} {f : α → Except ε β} {b : β} :
    (x >>= f) = .ok b ↔ ∃ a, x = .ok a ∧ f a = .ok b := by
  cases x with
  | error e => simp [bind, Except.bind]
  | ok a => simp [bind, Except.bind]

/-- A computation in two parts fails in the first part or in the second. -/
theorem bind_eq_error {ε α β : Type} {x : Except ε α} {f : α → Except ε β} {e : ε} :
    (x >>= f) = .error e ↔ x = .error e ∨ ∃ a, x = .ok a ∧ f a = .error e := by
  cases x with
  | error e => simp [bind, Except.bind]
  | ok a => simp [bind, Except.bind]

/-- A loop does not end in the error `e` if its body, from what holds between the
rounds, does not. -/
theorem foldlM_ne_error {ε α β : Type} {f : β → α → Except ε β} {I : β → Prop} {e : ε} {l : List α}
    (hne : ∀ b, ∀ a ∈ l, I b → f b a ≠ .error e)
    (hI : ∀ b a b', I b → f b a = .ok b' → I b') {b : β} (hb : I b) : l.foldlM f b ≠ .error e := by
  induction l generalizing b with
  | nil => nofun
  | cons a l ih =>
    rw [List.foldlM_cons]
    intro h
    rcases bind_eq_error.1 h with h | ⟨b', hb', h⟩
    · exact hne b a List.mem_cons_self hb h
    · exact ih (fun b a ha => hne b a (List.mem_cons_of_mem _ ha)) (hI b a b' hb hb') h

/-- The events that say nothing about the protocol. -/
def Event.quiet : Event → Bool
  | .resetTimer | .addCommand .. | .setValue .. | .brokenPromise .. | .setCommands .. => true
  | _ => false

namespace Node

/-! ## Quiet changes -/

/-- The protocol's state is untouched, and what happened was quiet. -/
structure Quiet (nd nd' : Node) : Prop where
  myId : nd'.myId = nd.myId
  channels : nd'.channels = nd.channels
  currentTerm : nd'.currentTerm = nd.currentTerm
  votedFor : nd'.votedFor = nd.votedFor
  log : nd'.log = nd.log
  commitIndex : nd'.commitIndex = nd.commitIndex
  leaderState : nd'.leaderState = nd.leaderState
  candidateState : nd'.candidateState = nd.candidateState
  role : nd'.role = nd.role
  history : ∃ evs, nd'.history = nd.history ++ evs ∧ ∀ e ∈ evs, e.quiet = true

/-- Leaving the node as it is counts as quiet. -/
theorem Quiet.refl (nd : Node) : Quiet nd nd :=
  ⟨rfl, rfl, rfl, rfl, rfl, rfl, rfl, rfl, rfl, [], by simp, by simp⟩

/-- Quiet changes compose. -/
theorem Quiet.trans {nd nd₁ nd₂ : Node} (h : Quiet nd nd₁) (h' : Quiet nd₁ nd₂) :
    Quiet nd nd₂ where
  myId := h'.myId.trans h.myId
  channels := h'.channels.trans h.channels
  currentTerm := h'.currentTerm.trans h.currentTerm
  votedFor := h'.votedFor.trans h.votedFor
  log := h'.log.trans h.log
  commitIndex := h'.commitIndex.trans h.commitIndex
  leaderState := h'.leaderState.trans h.leaderState
  candidateState := h'.candidateState.trans h.candidateState
  role := h'.role.trans h.role
  history := by
    obtain ⟨evs, h1, h2⟩ := h.history
    obtain ⟨evs', h1', h2'⟩ := h'.history
    refine ⟨evs ++ evs', by rw [h1', h1, List.append_assoc], fun e he => ?_⟩
    rcases List.mem_append.1 he with he | he
    · exact h2 e he
    · exact h2' e he

/-- A quiet change leaves the other events as they are. -/
theorem Quiet.mem_history {nd nd' : Node} (h : Quiet nd nd') {e : Event}
    (he : e.quiet = false) : e ∈ nd'.history ↔ e ∈ nd.history := by
  obtain ⟨evs, h1, h2⟩ := h.history
  rw [h1, List.mem_append]
  constructor
  · rintro (h | h)
    · exact h
    · rw [h2 e h] at he
      cases he
  · exact .inl

/-- A quiet event is a quiet change. -/
theorem quiet_emit (nd : Node) {e : Event} (he : e.quiet = true) : Quiet nd (nd.emit e) :=
  { Quiet.refl nd with history := ⟨[e], rfl, by simpa using he⟩ }

/-- Adding a command is quiet. -/
theorem quiet_addCommand (nd : Node) (command : Command) : Quiet nd (nd.addCommand command) :=
  { Quiet.refl nd with history := ⟨_, rfl, by simp [Event.quiet]⟩ }

/-- Redirecting the queued commands is quiet. -/
theorem quiet_redirectCommands (nd : Node) (leaderId : NodeId) :
    Quiet nd (nd.redirectCommands leaderId) := by
  unfold redirectCommands
  split
  · refine { Quiet.refl nd with history := ⟨_, rfl, ?_⟩ }
    intro e he
    obtain ⟨c, -, rfl⟩ := List.mem_map.1 he
    rfl
  · exact Quiet.refl nd

/-- Answering the promise at an index is quiet. -/
theorem quiet_resolve (nd : Node) (i : Nat) : Quiet nd (nd.resolve i) := by
  unfold resolve
  split
  · exact { Quiet.refl nd with history := ⟨[_], rfl, by simp [Event.quiet]⟩ }
  · exact Quiet.refl nd

/-- Answering the promises at a list of indices is quiet. -/
theorem quiet_foldl_resolve (l : List Nat) (nd : Node) : Quiet nd (l.foldl resolve nd) := by
  induction l generalizing nd with
  | nil => exact Quiet.refl nd
  | cons i l ih => exact (quiet_resolve nd i).trans (ih _)

/-! ## Sending -/

/-- Sends the messages of a list in order. -/
def sendEach (l : List (NodeId × Message)) (nd : Node) : Node :=
  l.foldl (fun nd x => nd.send x.1 x.2) nd

/-- Sending changes the history and the inboxes only. -/
theorem sendEach_eq (l : List (NodeId × Message)) (nd : Node) :
    nd.sendEach l = { nd with
      history := nd.history ++ l.map (fun x => .send x.1 x.2)
      incoming := (nd.sendEach l).incoming } := by
  induction l generalizing nd with
  | nil => simp [sendEach]
  | cons x l ih =>
    have h := ih (nd.send x.1 x.2)
    rw [show nd.sendEach (x :: l) = (nd.send x.1 x.2).sendEach l from rfl]
    rw [h]
    simp [send, List.append_assoc]

/-- `SendRequestVoteToAll` sends one request to each channel. -/
theorem sendRequestVoteToAll_eq (nd : Node) :
    nd.sendRequestVoteToAll = nd.sendEach (nd.channels.map fun id =>
      (id, .requestVoteRequest
        { candidateTerm := nd.currentTerm
          candidateId := nd.myId
          candidateLastLogIndex := nd.getLastLogIndex
          candidateLastLogTerm := nd.getLastLogTerm })) := by
  rw [sendRequestVoteToAll, sendEach, List.foldl_map]

/-- The requests that a leader sends: a slice of its log that reaches to the end, with the item in
front of it. -/
structure Builds (nd : Node) (req : AppendEntriesRequest) : Prop where
  leaderTerm : req.leaderTerm = nd.currentTerm
  leaderId : req.leaderId = nd.myId
  prev : ∃ item, nd.log[req.prevLogIndex]? = some item ∧ req.prevLogTerm = item.leaderTerm
  entries : req.entries = nd.log.drop (req.prevLogIndex + 1)
  leaderCommit : req.leaderCommit = nd.commitIndex

/-- A request is built on an item of the log. -/
theorem Builds.prev_lt {nd : Node} {req : AppendEntriesRequest} (h : nd.Builds req) :
    req.prevLogIndex < nd.log.length := by
  obtain ⟨item, hi, -⟩ := h.prev
  exact (List.getElem?_eq_some_iff.1 hi).1

/-- The slice reaches to the end of the log. -/
theorem Builds.length {nd : Node} {req : AppendEntriesRequest} (h : nd.Builds req) :
    req.prevLogIndex + req.entries.length + 1 = nd.log.length := by
  have := h.prev_lt
  rw [h.entries, List.length_drop]
  omega

/-- The entries of a built request are a slice of the log. -/
theorem Builds.sliceOf {nd : Node} {req : AppendEntriesRequest} (h : nd.Builds req) :
    SliceOf req.prevLogIndex req.entries nd.log := by
  refine ⟨by have := h.length; omega, ?_⟩
  rw [h.entries, List.take_length]

/-- `SendAppendEntriesToSomeone` of a leader, as far as it gets, sends one such request. -/
theorem sendAppendEntriesToSomeone_ok {nd nd' : Node} {who : NodeId} (hr : nd.role = .kLeader)
    (h : nd.sendAppendEntriesToSomeone who true = .ok nd') :
    ∃ req, nd.Builds req ∧ who ∈ nd.channels ∧ nd' = nd.send who (.appendEntriesRequest req) := by
  unfold sendAppendEntriesToSomeone at h
  rw [if_neg (by simp [hr])] at h
  split at h
  · cases h
  · next hmem =>
    split at h
    · cases h
    · next ls hls =>
      rw [if_neg (by simp)] at h
      split at h
      · cases h
      · next hnext =>
        obtain ⟨prev, hprev, h⟩ := bind_eq_ok.1 h
        cases h
        have hprev' : nd.log[ls.nextIndex.at who - 1]? = some prev := by
          unfold logAt at hprev
          split at hprev
          · next hp =>
            cases hprev
            exact hp
          · cases hprev
        refine ⟨_, ⟨rfl, rfl, ⟨prev, hprev', rfl⟩, ?_, rfl⟩, not_not.1 hmem, rfl⟩
        rw [Nat.sub_add_cancel (by omega)]

/-- `SendAppendEntriesToAll` of a leader sends such requests to members. -/
theorem sendAppendEntriesToAll_ok {nd nd' : Node} (hr : nd.role = .kLeader)
    (h : nd.sendAppendEntriesToAll = .ok nd') :
    ∃ l : List (NodeId × Message), nd' = nd.sendEach l ∧ ∀ x ∈ l, x.1 ∈ nd.channels ∧
      ∃ req, nd.Builds req ∧ x.2 = .appendEntriesRequest req := by
  have loop : ∀ (ids : List NodeId) (nd₁ : Node) (l : List (NodeId × Message)),
      nd₁ = nd.sendEach l →
      (∀ x ∈ l, x.1 ∈ nd.channels ∧ ∃ req, nd.Builds req ∧ x.2 = .appendEntriesRequest req) →
      ids.foldlM (fun nd id => nd.sendAppendEntriesToSomeone id true) nd₁ = .ok nd' →
      ∃ l : List (NodeId × Message), nd' = nd.sendEach l ∧ ∀ x ∈ l, x.1 ∈ nd.channels ∧
        ∃ req, nd.Builds req ∧ x.2 = .appendEntriesRequest req := by
    intro ids
    induction ids with
    | nil =>
      intro nd₁ l h1 h2 h
      cases h
      exact ⟨l, h1, h2⟩
    | cons id ids ih =>
      intro nd₁ l h1 h2 h
      rw [List.foldlM_cons] at h
      obtain ⟨nd₂, h3, h4⟩ := bind_eq_ok.1 h
      -- what was sent so far changed nothing that the next request is built from
      have heq := h1.trans (sendEach_eq l nd)
      obtain ⟨req, hb, hm, rfl⟩ := sendAppendEntriesToSomeone_ok (by rw [heq]; exact hr) h3
      rw [heq] at hb hm
      refine ih _ (l ++ [(id, .appendEntriesRequest req)]) ?_ ?_ h4
      · rw [h1, sendEach, sendEach, List.foldl_append]
        rfl
      · intro x hx
        rcases List.mem_append.1 hx with hx | hx
        · exact h2 x hx
        · cases List.mem_singleton.1 hx
          exact ⟨hm, req, ⟨hb.1, hb.2, hb.3, hb.4, hb.5⟩, rfl⟩
  exact loop nd.channels nd [] rfl (by simp) h

/-! ## The entries of a request -/

/-- The index at which the entries `es`, taken to stand from `s` on, first differ from an item of
the log: where `HandleAppendEntriesRequest` shrinks the log (`node.cpp:159`). -/
def conflictAt (log : Log) : Nat → List LogItem → Option Nat
  | _, [] => none
  | s, e :: es =>
    match log[s]? with
    | some item => if item = e then conflictAt log (s + 1) es else some s
    | none => none

@[simp] theorem conflictAt_length (log : Log) (es : List LogItem) :
    conflictAt log log.length es = none := by
  cases es with
  | nil => rfl
  | cons e es => simp [conflictAt]

/-- What stands in front of the first conflict is kept. -/
theorem take_prefix_splice {log : Log} {s n : Nat} {es : List LogItem} (hs : s ≤ log.length)
    (h : conflictAt log s es = some n) : log.take n <+: splice s es log := by
  induction es generalizing s with
  | nil => cases h
  | cons e es ih =>
    unfold conflictAt at h
    split at h
    · next item hitem =>
      have hlt := (List.getElem?_eq_some_iff.1 hitem).1
      split at h
      · next heq =>
        rw [splice_cons_of_getElem? (hitem.trans (congrArg some heq))]
        exact ih hlt h
      · next hne =>
        cases h
        rw [splice_of_not_isPrefix]
        · exact List.prefix_append _ _
        · rw [List.drop_eq_getElem_cons hlt, List.cons_prefix_cons]
          rintro ⟨rfl, -⟩
          rw [List.getElem?_eq_getElem hlt] at hitem
          exact hne (Option.some.inj hitem).symm
    · cases h

/-- Without a conflict nothing of the log is lost. -/
theorem prefix_splice {log : Log} {s : Nat} {es : List LogItem} (hs : s ≤ log.length)
    (h : conflictAt log s es = none) : log <+: splice s es log := by
  induction es generalizing s with
  | nil => rw [splice_nil]
  | cons e es ih =>
    unfold conflictAt at h
    split at h
    · next item hitem =>
      split at h
      · next heq =>
        rw [splice_cons_of_getElem? (hitem.trans (congrArg some heq))]
        exact ih (List.getElem?_eq_some_iff.1 hitem).1 h
      · cases h
    · next hnone =>
      have hle := List.getElem?_eq_none_iff.1 hnone
      obtain rfl : s = log.length := by omega
      rw [splice_length]
      exact List.prefix_append _ _

/-- The loop over the entries splices them into the log, and shrinks it at the first conflict. -/
theorem storeEntries_eq (prev : Nat) (es : List LogItem) :
    ∀ (pos : Nat) (nd : Node), prev + pos + 1 ≤ nd.log.length →
      storeEntries prev pos es nd = { nd with
        log := splice (prev + pos + 1) es nd.log
        history := nd.history ++
          (conflictAt nd.log (prev + pos + 1) es).toList.map Event.resized } := by
  induction es with
  | nil =>
    intro pos nd _
    simp [storeEntries, conflictAt]
  | cons e es ih =>
    intro pos nd hlen
    cases hitem : nd.log[prev + pos + 1]? with
    | some item =>
      have hlt := (List.getElem?_eq_some_iff.1 hitem).1
      by_cases heq : item = e
      · subst heq
        simp only [storeEntries, conflictAt, hitem, if_true]
        rw [ih (pos + 1) nd (by omega), splice_cons_of_getElem? hitem]
        rfl
      · have hsp : splice (prev + pos + 1) (e :: es) nd.log
            = nd.log.take (prev + pos + 1) ++ e :: es := by
          refine splice_of_not_isPrefix ?_
          rw [List.drop_eq_getElem_cons hlt, List.cons_prefix_cons]
          rintro ⟨rfl, -⟩
          rw [List.getElem?_eq_getElem hlt] at hitem
          exact heq (Option.some.inj hitem).symm
        have hl : prev + (pos + 1) + 1 = (nd.log.take (prev + pos + 1) ++ [e]).length := by
          rw [List.length_append, List.length_take, List.length_singleton]
          omega
        simp only [storeEntries, conflictAt, hitem, if_neg heq]
        rw [ih (pos + 1) _ (Nat.le_of_eq hl)]
        simp only [resizeLog, hl, splice_length, conflictAt_length, hsp]
        simp
    | none =>
      have hle := List.getElem?_eq_none_iff.1 hitem
      have hlen' : prev + pos + 1 = nd.log.length := by omega
      have hl : prev + (pos + 1) + 1 = (nd.log ++ [e]).length := by
        rw [List.length_append, ← hlen']
        rfl
      simp only [storeEntries, conflictAt, hitem]
      rw [ih (pos + 1) _ (Nat.le_of_eq hl)]
      simp only [hl, splice_length, conflictAt_length, hlen']
      simp

/-! ## The handlers, by cases -/

/-- A larger term makes the node a follower of it, and any other changes nothing. -/
theorem observeTerm_cases (nd : Node) (term : Nat) :
    term ≤ nd.currentTerm ∧ nd.observeTerm term = nd ∨
      nd.currentTerm < term ∧ nd.observeTerm term =
        { nd with
          currentTerm := term
          role := .kFollower
          votedFor := none
          candidateState := none
          leaderState := none
          history := nd.history ++ [.resetTimer] } := by
  rcases Nat.lt_or_ge nd.currentTerm term with h | h
  · exact .inr ⟨h, by rw [observeTerm, if_pos h]; rfl⟩
  · exact .inl ⟨h, by rw [observeTerm, if_neg (by omega)]⟩

/-- A term that is not higher is not observed. -/
theorem observeTerm_eq_self {nd : Node} {term : Nat} (h : term ≤ nd.currentTerm) :
    nd.observeTerm term = nd := by
  rcases nd.observeTerm_cases term with ⟨-, heq⟩ | ⟨hlt, -⟩
  · exact heq
  · exact absurd h (Nat.not_le_of_lt hlt)

/-- The term of the node is at least the one it has observed. -/
theorem le_observeTerm (nd : Node) (term : Nat) : term ≤ (nd.observeTerm term).currentTerm := by
  rcases nd.observeTerm_cases term with ⟨h, heq⟩ | ⟨-, heq⟩ <;> rw [heq]
  exact h

@[simp] theorem observeTerm_log (nd : Node) (term : Nat) : (nd.observeTerm term).log = nd.log := by
  rcases nd.observeTerm_cases term with ⟨-, heq⟩ | ⟨-, heq⟩ <;> rw [heq]

@[simp] theorem observeTerm_currentTerm (nd : Node) (term : Nat) :
    (nd.observeTerm term).currentTerm = max nd.currentTerm term := by
  rcases nd.observeTerm_cases term with ⟨h, heq⟩ | ⟨h, heq⟩ <;> rw [heq]
  · exact (Nat.max_eq_left h).symm
  · exact (Nat.max_eq_right (Nat.le_of_lt h)).symm

@[simp] theorem observeTerm_commitIndex (nd : Node) (term : Nat) :
    (nd.observeTerm term).commitIndex = nd.commitIndex := by
  rcases nd.observeTerm_cases term with ⟨-, heq⟩ | ⟨-, heq⟩ <;> rw [heq]

/-- The node after it has taken over the entries and the commit index of a request. -/
def accept (nd : Node) (req : AppendEntriesRequest) : Node :=
  { nd with
    log := splice (req.prevLogIndex + 1) req.entries nd.log
    commitIndex :=
      if nd.commitIndex < req.leaderCommit then
        min req.leaderCommit (req.prevLogIndex + req.entries.length)
      else nd.commitIndex
    history := nd.history ++
      (conflictAt nd.log (req.prevLogIndex + 1) req.entries).toList.map Event.resized }

/-- Storing the entries and following the leader's commit index is accepting the request. -/
theorem followLeaderCommit_storeEntries (nd : Node) (req : AppendEntriesRequest)
    (h : req.prevLogIndex < nd.log.length) :
    (storeEntries req.prevLogIndex 0 req.entries nd).followLeaderCommit req = nd.accept req := by
  rw [storeEntries_eq _ _ _ _ (show req.prevLogIndex + 0 + 1 ≤ nd.log.length from h)]
  simp only [followLeaderCommit, accept, Nat.add_zero]
  split <;> rfl

/-- The node when `HandleAppendEntriesRequest` looks at the term of a request. -/
def beforeEntries (nd : Node) (req : AppendEntriesRequest) : Node :=
  (nd.observeTerm req.leaderTerm).resetElectionTimer

/-- `HandleAppendEntriesRequest` refuses a stale request, refuses one that does not fit its log, or
takes the entries over; before the last two it redirects the queued commands. -/
theorem handleAppendEntriesRequest_cases (nd : Node) (req : AppendEntriesRequest) :
    let nd₁ := nd.beforeEntries req
    let nd₂ := nd₁.redirectCommands req.leaderId
    (req.leaderTerm < nd₁.currentTerm ∧
      nd.handleAppendEntriesRequest req = (nd₁.appendEntriesUnsuccessfull, nd₁)) ∨
    (req.leaderTerm = nd₁.currentTerm ∧
      (∀ item, nd₁.log[req.prevLogIndex]? = some item → item.leaderTerm ≠ req.prevLogTerm) ∧
      nd.handleAppendEntriesRequest req = (nd₂.appendEntriesUnsuccessfull, nd₂)) ∨
    (req.leaderTerm = nd₁.currentTerm ∧
      (∃ item, nd₁.log[req.prevLogIndex]? = some item ∧ item.leaderTerm = req.prevLogTerm) ∧
      nd.handleAppendEntriesRequest req =
        (nd₂.appendEntriesSuccessfull (req.prevLogIndex + req.entries.length),
          nd₂.accept req)) := by
  intro nd₁ nd₂
  have hle : req.leaderTerm ≤ nd₁.currentTerm := nd.le_observeTerm req.leaderTerm
  have hlog : nd₂.log = nd₁.log := (nd₁.quiet_redirectCommands req.leaderId).log
  rcases Nat.lt_or_eq_of_le hle with hlt | heq
  · left
    refine ⟨hlt, ?_⟩
    unfold handleAppendEntriesRequest
    exact if_pos hlt
  right
  have hstale : ¬ req.leaderTerm < nd₁.currentTerm := by omega
  cases hitem : nd₁.log[req.prevLogIndex]? with
  | none =>
    left
    have hunfold : nd.handleAppendEntriesRequest req =
        (nd₂.appendEntriesUnsuccessfull, nd₂) := by
      rw [← hlog] at hitem
      unfold handleAppendEntriesRequest
      refine (if_neg hstale).trans ?_
      dsimp only [nd₁, nd₂, beforeEntries] at hitem ⊢
      rw [hitem]
    refine ⟨heq, fun item h => ?_, hunfold⟩
    cases h
  | some item =>
    have hunfold : nd.handleAppendEntriesRequest req =
        if item.leaderTerm ≠ req.prevLogTerm then (nd₂.appendEntriesUnsuccessfull, nd₂)
        else
          let nd := (storeEntries req.prevLogIndex 0 req.entries nd₂).followLeaderCommit req
          (nd.appendEntriesSuccessfull
            (min (nd.log.length - 1) (req.prevLogIndex + req.entries.length)), nd) := by
      rw [← hlog] at hitem
      unfold handleAppendEntriesRequest
      refine (if_neg hstale).trans ?_
      dsimp only [nd₁, nd₂, beforeEntries] at hitem ⊢
      rw [hitem]
    by_cases hterm : item.leaderTerm = req.prevLogTerm
    · right
      have hlt : req.prevLogIndex < nd₂.log.length := by
        rw [hlog]
        exact (List.getElem?_eq_some_iff.1 hitem).1
      refine ⟨heq, ⟨item, rfl, hterm⟩, ?_⟩
      rw [hunfold, if_neg (not_not.2 hterm), followLeaderCommit_storeEntries nd₂ req hlt]
      have hlen := length_splice_le req.entries (show req.prevLogIndex + 1 ≤ _ from hlt)
      have hmin : min ((nd₂.accept req).log.length - 1) (req.prevLogIndex + req.entries.length)
          = req.prevLogIndex + req.entries.length := by
        show min ((splice _ _ nd₂.log).length - 1) _ = _
        omega
      dsimp only
      rw [hmin]
      rfl
    · left
      refine ⟨heq, fun item' h => ?_, ?_⟩
      · cases h
        exact hterm
      · rw [hunfold]
        exact if_pos hterm

/-- The role of a node that has handled a request is that of the observed term. -/
theorem handleAppendEntriesRequest_roles (nd : Node) (req : AppendEntriesRequest) :
    let nd' := (nd.handleAppendEntriesRequest req).2
    nd'.role = (nd.observeTerm req.leaderTerm).role ∧
      nd'.currentTerm = (nd.observeTerm req.leaderTerm).currentTerm ∧
      nd'.candidateState = (nd.observeTerm req.leaderTerm).candidateState ∧
      nd'.leaderState = (nd.observeTerm req.leaderTerm).leaderState := by
  have hq := quiet_redirectCommands (nd.beforeEntries req) req.leaderId
  rcases nd.handleAppendEntriesRequest_cases req with
    ⟨-, heq⟩ | ⟨-, -, heq⟩ | ⟨-, -, heq⟩ <;> rw [heq]
  · exact ⟨rfl, rfl, rfl, rfl⟩
  · exact ⟨hq.role, hq.currentTerm, hq.candidateState, hq.leaderState⟩
  · exact ⟨hq.role, hq.currentTerm, hq.candidateState, hq.leaderState⟩

/-- `HandleRequestVoteRequest` refuses a stale request, grants the vote, or refuses it. -/
theorem handleRequestVoteRequest_cases (nd : Node) (req : RequestVoteRequest) :
    let nd₁ := nd.observeTerm req.candidateTerm
    (req.candidateTerm < nd₁.currentTerm ∧ nd.handleRequestVoteRequest req = ({}, nd₁)) ∨
    (req.candidateTerm = nd₁.currentTerm ∧ nd₁.canVoteFor req = true ∧
      nd.handleRequestVoteRequest req =
        (nd₁.requestVoteSuccessfull req.candidateTerm,
          { nd₁ with
            votedFor := some req.candidateId
            history := nd₁.history ++ [.voteGranted req nd₁.log] })) ∨
    (req.candidateTerm = nd₁.currentTerm ∧ nd₁.canVoteFor req = false ∧
      nd.handleRequestVoteRequest req = (nd₁.requestVoteUnsuccessfull, nd₁)) := by
  intro nd₁
  have hle : req.candidateTerm ≤ nd₁.currentTerm := nd.le_observeTerm req.candidateTerm
  unfold handleRequestVoteRequest
  dsimp only
  rcases Nat.lt_or_eq_of_le hle with hlt | heq
  · exact .inl ⟨hlt, if_pos hlt⟩
  right
  rw [if_neg (show ¬ req.candidateTerm < nd₁.currentTerm by omega)]
  cases hcan : nd₁.canVoteFor req with
  | true => exact .inl ⟨heq, rfl, if_pos rfl⟩
  | false => exact .inr ⟨heq, rfl, if_neg (by simp)⟩

/-- `HandleAppendEntriesResponse` of a node that is not the leader only looks at the term; a leader
moves `next_index` down on a refusal, and `match_index` and `next_index` up on a success. -/
theorem handleAppendEntriesResponse_ok {nd nd' : Node} {resp : AppendEntriesResponse}
    {fromWho : NodeId} (h : nd.handleAppendEntriesResponse resp fromWho = .ok nd') :
    let nd₁ := nd.observeTerm resp.currentTerm
    (nd₁.role ≠ .kLeader ∧ nd' = nd₁) ∨
    (nd₁.role = .kLeader ∧ ∃ ls, nd₁.leaderState = some ls ∧
      (resp.success = false ∧ nd' = { nd₁ with
          leaderState := some { ls with
            nextIndex := ls.nextIndex.set fromWho (decrement (ls.nextIndex.at fromWho)) } } ∨
        resp.success = true ∧ ∃ m, resp.matchedUntil = some m ∧ nd' = { nd₁ with
          leaderState := some
            { nextIndex := ls.nextIndex.set fromWho
                (max (ls.nextIndex.at fromWho) (max (ls.matchIndex.at fromWho) m + 1))
              matchIndex := ls.matchIndex.set fromWho (max (ls.matchIndex.at fromWho) m) } })) := by
  intro nd₁
  unfold handleAppendEntriesResponse at h
  dsimp only at h
  split at h
  · next hrole =>
    cases h
    exact .inl ⟨hrole, rfl⟩
  · next hrole =>
    right
    refine ⟨not_not.1 hrole, ?_⟩
    split at h
    · cases h
    · next ls hls =>
      refine ⟨ls, hls, ?_⟩
      split at h
      · next hs =>
        cases h
        exact .inl ⟨hs, rfl⟩
      · next hs =>
        split at h
        · cases h
        · next m hm =>
          cases h
          exact .inr ⟨by simpa using hs, m, hm, rfl⟩

/-- `HandleRequestVoteResponse` counts a vote only of a candidate, in the term of the vote, and a
majority of votes makes the candidate the leader. -/
theorem handleRequestVoteResponse_ok {nd nd' : Node} {resp : RequestVoteResponse}
    {fromWho : NodeId} (h : nd.handleRequestVoteResponse resp fromWho = .ok nd') :
    let nd₁ := nd.observeTerm resp.currentTerm
    nd' = nd₁ ∨
    (nd₁.role = .kCandidate ∧ resp.voteGranted = true ∧ resp.candidateTerm = nd₁.currentTerm ∧
      ∃ cs, nd₁.candidateState = some cs ∧
        let nd₂ := { nd₁ with candidateState := some { votes := insert fromWho cs.votes } }
        (nd' = nd₂ ∨ nd₁.channels.length + 1 ≤ (insert fromWho cs.votes).card * 2 ∧
          nd₂.becomeLeader = .ok nd')) := by
  intro nd₁
  unfold handleRequestVoteResponse at h
  dsimp only at h
  split at h
  · cases h
    exact .inl rfl
  · next hrole =>
    split at h
    · cases h
      exact .inl rfl
    · next hgranted =>
      split at h
      · cases h
        exact .inl rfl
      · next hterm =>
        right
        refine ⟨not_not.1 hrole, by simpa using hgranted, not_not.1 hterm, ?_⟩
        split at h
        · cases h
        · next cs hcs =>
          refine ⟨cs, hcs, ?_⟩
          split at h
          · next hmaj => exact .inr ⟨hmaj, h⟩
          · cases h
            exact .inl rfl

/-- `BecomeLeader` resets the vote, sets the leader state up and sends to all. -/
theorem becomeLeader_ok {nd nd' : Node} (h : nd.becomeLeader = .ok nd') :
    ∃ l : List (NodeId × Message),
      nd' = { nd with
        votedFor := none
        candidateState := none
        leaderState := some nd.initialLeaderState
        role := .kLeader
        history := nd.history ++ [Event.becameLeader nd.currentTerm nd.log] }.sendEach l ∧
      ∀ x ∈ l, x.1 ∈ nd.channels ∧ ∃ req, nd.Builds req ∧ x.2 = .appendEntriesRequest req := by
  obtain ⟨l, h1, h2⟩ := sendAppendEntriesToAll_ok rfl h
  refine ⟨l, h1, fun x hx => ?_⟩
  obtain ⟨hm, req, hb, heq⟩ := h2 x hx
  exact ⟨hm, req, ⟨hb.1, hb.2, hb.3, hb.4, hb.5⟩, heq⟩

/-- `BecomeCandidate` asks all members for their votes in the next term. -/
theorem becomeCandidate_eq (nd : Node) :
    nd.becomeCandidate = { ({ nd with
        currentTerm := nd.currentTerm + 1
        votedFor := some nd.myId
        history := nd.history ++ [Event.resetTimer] }.sendEach (nd.channels.map fun id =>
          (id, .requestVoteRequest
            { candidateTerm := nd.currentTerm + 1
              candidateId := nd.myId
              candidateLastLogIndex := nd.getLastLogIndex
              candidateLastLogTerm := nd.getLastLogTerm }))) with
      role := .kCandidate
      candidateState := some {}
      leaderState := none } := by
  unfold becomeCandidate
  dsimp only
  rw [sendRequestVoteToAll_eq]
  rfl

/-- `CommitIfPossible` does nothing, or answers promises and moves the commit index to the last
index that a majority has reached. -/
theorem commitIfPossible_ok {nd nd' : Node} (h : nd.commitIfPossible = .ok nd') :
    nd' = nd ∨ ∃ ls id, nd.leaderState = some ls ∧ nd.idToCommit ls = some id ∧
      nd' = { (List.range' (nd.commitIndex + 1) (id - nd.commitIndex)).foldl resolve nd with
        commitIndex := id }.emit (.committed nd.currentTerm id nd.log) := by
  unfold commitIfPossible at h
  split at h
  · split at h <;> cases h
    exact .inl rfl
  · next ls hls =>
    split at h
    · cases h
      exact .inl rfl
    · next id hid =>
      refine .inr ⟨ls, id, hls, hid, ?_⟩
      have hq := quiet_foldl_resolve
        (List.range' (nd.commitIndex + 1) (id - nd.commitIndex)) nd
      cases h
      exact congrArg₂ (fun t l => emit _ (.committed t id l)) hq.currentTerm hq.log

/-! ## What every method keeps -/

/-- A method does not change who the node is, lowers no term, forgets nothing of the history, and
puts into the inboxes only what the node sends to itself. -/
structure Grows (nd nd' : Node) : Prop where
  myId : nd'.myId = nd.myId
  channels : nd'.channels = nd.channels
  currentTerm : nd.currentTerm ≤ nd'.currentTerm
  history : nd.history <+: nd'.history
  incoming : ∀ m ∈ nd'.incoming.messages,
    m ∈ nd.incoming.messages ∨ m.1 = nd.myId ∧ .send nd.myId m.2 ∈ nd'.history

/-- Doing nothing keeps everything. -/
theorem Grows.refl (nd : Node) : Grows nd nd :=
  ⟨rfl, rfl, Nat.le_refl _, List.prefix_refl _, fun _ h => .inl h⟩

/-- What two methods keep one after the other is kept. -/
theorem Grows.trans {nd nd₁ nd₂ : Node} (h : Grows nd nd₁) (h' : Grows nd₁ nd₂) :
    Grows nd nd₂ where
  myId := h'.myId.trans h.myId
  channels := h'.channels.trans h.channels
  currentTerm := Nat.le_trans h.currentTerm h'.currentTerm
  history := h.history.trans h'.history
  incoming m hm := by
    rcases h'.incoming m hm with h1 | ⟨h1, h2⟩
    · rcases h.incoming m h1 with h3 | ⟨h3, h4⟩
      · exact .inl h3
      · exact .inr ⟨h3, h'.history.subset h4⟩
    · rw [h.myId] at h1 h2
      exact .inr ⟨h1, h2⟩

/-- A change that leaves the inboxes alone. -/
theorem Grows.of_incoming_eq {nd nd' : Node} (h1 : nd'.myId = nd.myId)
    (h2 : nd'.channels = nd.channels) (h3 : nd.currentTerm ≤ nd'.currentTerm)
    (h4 : nd.history <+: nd'.history) (h5 : nd'.incoming = nd.incoming) : Grows nd nd' :=
  ⟨h1, h2, h3, h4, fun m hm => .inl (by rwa [h5] at hm)⟩

/-- A message in the inboxes was there before, or is the one added. -/
theorem mem_messages_add (inc : Incoming) (id : NodeId) (msg : Message) (m : NodeId × Message) :
    m ∈ (inc.add id msg).messages ↔ m ∈ inc.messages ∨ m = (id, msg) := by
  cases msg <;>
    simp only [Incoming.add, Incoming.messages, List.map_append, List.map_cons, List.map_nil,
      List.mem_append, List.mem_singleton] <;>
    tauto

/-- Sending puts into the inboxes only what is sent to the node itself. -/
theorem grows_send (nd : Node) (whom : NodeId) (msg : Message) : Grows nd (nd.send whom msg) where
  myId := rfl
  channels := rfl
  currentTerm := Nat.le_refl _
  history := List.prefix_append _ _
  incoming m hm := by
    simp only [send] at hm
    split at hm
    · next h =>
      rcases (mem_messages_add _ _ _ _).1 hm with hm | rfl
      · exact .inl hm
      · exact .inr ⟨rfl, by simp [send, h]⟩
    · exact .inl hm

/-- Sending several messages puts into the inboxes only those to the node itself. -/
theorem grows_sendEach (l : List (NodeId × Message)) (nd : Node) : Grows nd (nd.sendEach l) := by
  induction l generalizing nd with
  | nil => exact Grows.refl nd
  | cons x l ih => exact (grows_send nd x.1 x.2).trans (ih _)

/-- Observing a term does not lower it. -/
theorem grows_observeTerm (nd : Node) (term : Nat) : Grows nd (nd.observeTerm term) := by
  rcases nd.observeTerm_cases term with ⟨-, heq⟩ | ⟨hlt, heq⟩ <;> rw [heq]
  · exact Grows.refl nd
  · exact .of_incoming_eq rfl rfl (Nat.le_of_lt hlt) (List.prefix_append _ _) rfl

/-- Redirecting commands leaves the inboxes alone. -/
theorem grows_redirectCommands (nd : Node) (leaderId : NodeId) :
    Grows nd (nd.redirectCommands leaderId) := by
  unfold redirectCommands
  split
  · exact .of_incoming_eq rfl rfl (Nat.le_refl _) (List.prefix_append _ _) rfl
  · exact Grows.refl nd

/-- An event is added to the history. -/
theorem grows_emit (nd : Node) (e : Event) : Grows nd (nd.emit e) :=
  .of_incoming_eq rfl rfl (Nat.le_refl _) (List.prefix_append _ _) rfl

/-- Accepting entries leaves the inboxes alone. -/
theorem grows_accept (nd : Node) (req : AppendEntriesRequest) : Grows nd (nd.accept req) :=
  .of_incoming_eq rfl rfl (Nat.le_refl _) (List.prefix_append _ _) rfl

/-- What `HandleAppendEntriesRequest` keeps. -/
theorem grows_handleAppendEntriesRequest (nd : Node) (req : AppendEntriesRequest) :
    Grows nd (nd.handleAppendEntriesRequest req).2 := by
  have h1 : Grows nd (nd.beforeEntries req) :=
    (grows_observeTerm nd _).trans (grows_emit _ _)
  have h2 := h1.trans (grows_redirectCommands _ req.leaderId)
  rcases nd.handleAppendEntriesRequest_cases req with
    ⟨-, heq⟩ | ⟨-, -, heq⟩ | ⟨-, -, heq⟩ <;> rw [heq]
  · exact h1
  · exact h2
  · exact h2.trans (grows_accept _ req)

/-- What `HandleRequestVoteRequest` keeps. -/
theorem grows_handleRequestVoteRequest (nd : Node) (req : RequestVoteRequest) :
    Grows nd (nd.handleRequestVoteRequest req).2 := by
  have h1 := grows_observeTerm nd req.candidateTerm
  rcases nd.handleRequestVoteRequest_cases req with
    ⟨-, heq⟩ | ⟨-, -, heq⟩ | ⟨-, -, heq⟩ <;> rw [heq]
  · exact h1
  · exact h1.trans (.of_incoming_eq rfl rfl (Nat.le_refl _) (List.prefix_append _ _) rfl)
  · exact h1

/-- What `HandleAppendEntriesResponse` keeps. -/
theorem grows_handleAppendEntriesResponse {nd nd' : Node} {resp : AppendEntriesResponse}
    {fromWho : NodeId} (h : nd.handleAppendEntriesResponse resp fromWho = .ok nd') :
    Grows nd nd' := by
  have h1 := grows_observeTerm nd resp.currentTerm
  rcases handleAppendEntriesResponse_ok h with
    ⟨-, rfl⟩ | ⟨-, ls, -, ⟨-, rfl⟩ | ⟨-, m, -, rfl⟩⟩
  · exact h1
  all_goals exact h1.trans (.of_incoming_eq rfl rfl (Nat.le_refl _) (List.prefix_refl _) rfl)

/-- What `BecomeLeader` keeps. -/
theorem grows_becomeLeader {nd nd' : Node} (h : nd.becomeLeader = .ok nd') : Grows nd nd' := by
  obtain ⟨l, rfl, -⟩ := becomeLeader_ok h
  refine Grows.trans ?_ (grows_sendEach l _)
  exact .of_incoming_eq rfl rfl (Nat.le_refl _) (List.prefix_append _ _) rfl

/-- What `HandleRequestVoteResponse` keeps. -/
theorem grows_handleRequestVoteResponse {nd nd' : Node} {resp : RequestVoteResponse}
    {fromWho : NodeId} (h : nd.handleRequestVoteResponse resp fromWho = .ok nd') :
    Grows nd nd' := by
  have h1 := grows_observeTerm nd resp.currentTerm
  rcases handleRequestVoteResponse_ok h with rfl | ⟨-, -, -, cs, -, rfl | ⟨-, h2⟩⟩
  · exact h1
  · exact h1.trans (.of_incoming_eq rfl rfl (Nat.le_refl _) (List.prefix_refl _) rfl)
  · exact (h1.trans (.of_incoming_eq rfl rfl (Nat.le_refl _) (List.prefix_refl _) rfl)).trans
      (grows_becomeLeader h2)

/-- The handling of one message, by the kind of the message. -/
theorem handleMessage_ok {nd nd' : Node} {sender : NodeId} {msg : Message}
    (h : nd.handleMessage sender msg = .ok nd') :
    (∃ req resp, msg = .appendEntriesRequest req ∧ sender ∈ nd.channels ∧
      resp = { (nd.handleAppendEntriesRequest req).1 with answers := req.leaderTerm } ∧
      nd' = ((nd.handleAppendEntriesRequest req).2.emit (.answered sender req resp)).send sender
        (.appendEntriesResponse resp)) ∨
    (∃ req, msg = .requestVoteRequest req ∧ sender ∈ nd.channels ∧
      nd' = (nd.handleRequestVoteRequest req).2.send sender
        (.requestVoteResponse (nd.handleRequestVoteRequest req).1)) ∨
    (∃ resp, msg = .appendEntriesResponse resp ∧
      nd.handleAppendEntriesResponse resp sender = .ok nd') ∨
    (∃ resp, msg = .requestVoteResponse resp ∧
      nd.handleRequestVoteResponse resp sender = .ok nd') := by
  cases msg with
  | appendEntriesRequest req =>
    simp only [handleMessage] at h
    split at h
    · cases h
    · next hmem =>
      cases h
      exact .inl ⟨req, _, rfl, not_not.1 hmem, rfl, rfl⟩
  | requestVoteRequest req =>
    simp only [handleMessage] at h
    split at h
    · cases h
    · next hmem =>
      cases h
      exact .inr (.inl ⟨req, rfl, not_not.1 hmem, rfl⟩)
  | appendEntriesResponse resp => exact .inr (.inr (.inl ⟨resp, rfl, h⟩))
  | requestVoteResponse resp => exact .inr (.inr (.inr ⟨resp, rfl, h⟩))

/-- What the handling of a message keeps. -/
theorem grows_handleMessage {nd nd' : Node} {sender : NodeId} {msg : Message}
    (h : nd.handleMessage sender msg = .ok nd') : Grows nd nd' := by
  rcases handleMessage_ok h with
    ⟨req, resp, -, -, -, rfl⟩ | ⟨req, -, -, rfl⟩ | ⟨resp, -, h⟩ | ⟨resp, -, h⟩
  · exact ((grows_handleAppendEntriesRequest nd req).trans (grows_emit _ _)).trans
      (grows_send _ _ _)
  · exact (grows_handleRequestVoteRequest nd req).trans (grows_send _ _ _)
  · exact grows_handleAppendEntriesResponse h
  · exact grows_handleRequestVoteResponse h

/-! ## How a method fails -/

section
variable {nd : Node} {e : Fault}

/-- Reading the log fails only past its end. -/
theorem logAt_error {i : Nat} (h : nd.logAt i = .error e) : e = .logOutOfRange := by
  unfold logAt at h
  split at h <;> cases h
  rfl

/-- Reading the committed commands fails only past the end of the log. -/
theorem persistentCommands_error {start count : UInt64}
    (h : nd.persistentCommands start count = .error e) : e = .logOutOfRange := by
  unfold persistentCommands at h
  generalize List.range' _ _ = l at h
  induction l with
  | nil => cases h
  | cons i l ih =>
    rw [List.mapM_cons] at h
    rcases bind_eq_error.1 h with h | ⟨command, -, h⟩
    · rcases bind_eq_error.1 h with h | ⟨item, -, h⟩
      · exact logAt_error h
      · cases h
    · rcases bind_eq_error.1 h with h | ⟨commands, -, h⟩
      · exact ih h
      · cases h

/-- Answering the queries fails only past the end of the log. -/
theorem handleGetPersistentCommandRequests_error
    (h : nd.handleGetPersistentCommandRequests = .error e) : e = .logOutOfRange := by
  by_contra hne
  refine foldlM_ne_error (I := fun _ => True) (fun nd req _ _ h => ?_) (fun _ _ _ _ _ => trivial)
    trivial h
  rcases bind_eq_error.1 h with h | ⟨result, -, h⟩
  · exact hne (persistentCommands_error h)
  · cases h

/-- The commit scan fails only without a leader state. -/
theorem commitIfPossible_error (h : nd.commitIfPossible = .error e) :
    e = .emptyOptional ∧ nd.leaderState = none := by
  unfold commitIfPossible at h
  split at h
  · next hls =>
    split at h <;> cases h
    exact ⟨rfl, hls⟩
  · split at h <;> cases h

/-- A leader fails to send to a node that it has no channel to, without a leader state, or past its
log. -/
theorem sendAppendEntriesToSomeone_error {who : NodeId} {heartbeat : Bool}
    (h : nd.sendAppendEntriesToSomeone who heartbeat = .error e) :
    e = .unknownChannel ∧ who ∉ nd.channels ∨ e = .emptyOptional ∧ nd.leaderState = none ∨
      e = .logOutOfRange := by
  unfold sendAppendEntriesToSomeone at h
  split at h
  · cases h
  split at h
  · next hwho =>
    cases h
    exact .inl ⟨rfl, hwho⟩
  split at h
  · next hls =>
    cases h
    exact .inr (.inl ⟨rfl, hls⟩)
  dsimp only at h
  split at h
  · cases h
  split at h
  · cases h
    exact .inr (.inr rfl)
  rcases bind_eq_error.1 h with h | ⟨prev, -, h⟩
  · exact .inr (.inr (logAt_error h))
  · cases h

/-- Sending to someone keeps the channels and the leader state. -/
theorem sendAppendEntriesToSomeone_frame {nd' : Node} {who : NodeId} {heartbeat : Bool}
    (h : nd.sendAppendEntriesToSomeone who heartbeat = .ok nd') :
    nd'.channels = nd.channels ∧ nd'.leaderState = nd.leaderState := by
  unfold sendAppendEntriesToSomeone at h
  split at h
  · cases h
    exact ⟨rfl, rfl⟩
  split at h
  · cases h
  split at h
  · cases h
  dsimp only at h
  split at h
  · cases h
    exact ⟨rfl, rfl⟩
  split at h
  · cases h
  obtain ⟨prev, -, h⟩ := bind_eq_ok.1 h
  cases h
  exact ⟨rfl, rfl⟩

/-- Among its own channels a leader does not miss one. -/
theorem sendAppendEntriesToAll_error (h : nd.sendAppendEntriesToAll = .error e) :
    e = .emptyOptional ∧ nd.leaderState = none ∨ e = .logOutOfRange := by
  by_contra hne
  refine foldlM_ne_error
    (I := fun nd' : Node => nd'.channels = nd.channels ∧ nd'.leaderState = nd.leaderState)
    (fun nd' who hwho hI h => ?_) (fun nd' who nd'' hI h => ?_) ⟨rfl, rfl⟩ h
  · rcases sendAppendEntriesToSomeone_error h with ⟨-, hno⟩ | ⟨he, hls⟩ | he
    · exact hno (hI.1 ▸ hwho)
    · exact hne (.inl ⟨he, hI.2.symm.trans hls⟩)
    · exact hne (.inr he)
  · obtain ⟨h1, h2⟩ := sendAppendEntriesToSomeone_frame h
    exact ⟨h1.trans hI.1, h2.trans hI.2⟩

/-- Becoming the leader fails only past the end of the log. -/
theorem becomeLeader_error (h : nd.becomeLeader = .error e) : e = .logOutOfRange := by
  rcases sendAppendEntriesToAll_error h with ⟨-, hls⟩ | he
  · cases hls
  · exact he

/-- A reply to an AppendEntriesRequest fails a leader without a leader state, or without an index.
-/
theorem handleAppendEntriesResponse_error {resp : AppendEntriesResponse} {fromWho : NodeId}
    (h : nd.handleAppendEntriesResponse resp fromWho = .error e) :
    let nd₁ := nd.observeTerm resp.currentTerm
    e = .emptyOptional ∧ nd₁.role = .kLeader ∧
      (nd₁.leaderState = none ∨ resp.success = true ∧ resp.matchedUntil = none) := by
  intro nd₁
  unfold handleAppendEntriesResponse at h
  dsimp only at h
  split at h
  · cases h
  next hrole =>
  split at h
  · next hls =>
    cases h
    exact ⟨rfl, not_not.1 hrole, .inl hls⟩
  split at h
  · cases h
  next hs =>
  split at h
  · next hm =>
    cases h
    exact ⟨rfl, not_not.1 hrole, .inr ⟨by simpa using hs, hm⟩⟩
  · cases h

/-- A reply to a RequestVoteRequest fails a candidate without a candidate state, or as it becomes
the leader. -/
theorem handleRequestVoteResponse_error {resp : RequestVoteResponse} {fromWho : NodeId}
    (h : nd.handleRequestVoteResponse resp fromWho = .error e) :
    let nd₁ := nd.observeTerm resp.currentTerm
    e = .emptyOptional ∧ nd₁.role = .kCandidate ∧ nd₁.candidateState = none ∨
      e = .logOutOfRange := by
  intro nd₁
  unfold handleRequestVoteResponse at h
  dsimp only at h
  split at h
  · cases h
  next hrole =>
  split at h
  · cases h
  split at h
  · cases h
  split at h
  · next hcs =>
    cases h
    exact .inl ⟨rfl, not_not.1 hrole, hcs⟩
  split at h
  · exact .inr (becomeLeader_error h)
  · cases h

end

end Node

end ToFTDS.Consensus
