import ToFTDS.Integral.Leader

/-!
# The slots and the known workers

`worker_fds_` and `known_workers_` are two tables that are kept together by `position_in_buffer`.
`Slots` says that they agree: a known worker's slot is open, and an open slot is one known worker's.
It holds in every state of every run (`tidy_run`), and so the search for the worker of a slot finds
it (`find?_owner`). `look_cases`, `receive_cases` and `sendTask_cases` list what the steps at a slot
can do.
-/

namespace ToFTDS.Integral

/-- The table of descriptors and the map of workers agree. -/
structure Slots (fds : List (Option Fd)) (known : SortedMap WorkerId WorkerInfo) : Prop where
  /-- A known worker's slot is open. -/
  opened : ∀ {wid info}, known.find? wid = some info →
    ∃ fd, fds[info.positionInBuffer]? = some (some fd)
  /-- No two known workers have one slot. -/
  eq_of_position_eq : ∀ {wid wid' info info'}, known.find? wid = some info →
    known.find? wid' = some info' → info.positionInBuffer = info'.positionInBuffer → wid = wid'
  /-- An open slot is a known worker's. -/
  exists_known : ∀ {i fd}, fds[i]? = some (some fd) →
    ∃ wid info, known.find? wid = some info ∧ info.positionInBuffer = i

namespace Slots

variable {fds : List (Option Fd)} {known : SortedMap WorkerId WorkerInfo} {wid : WorkerId}
  {info : WorkerInfo}

/-- Empty slots and no workers agree. -/
theorem replicate (n : Nat) : Slots (List.replicate n none) ∅ where
  opened h := by cases h
  eq_of_position_eq h := by cases h
  exists_known h := by
    rw [List.getElem?_replicate] at h
    split at h <;> cases h

/-- A new worker takes a free slot. -/
theorem join (hs : Slots fds known) (hnew : known.find? wid = none) {i : Nat}
    (hi : fds[i]? = some none) (hpos : info.positionInBuffer = i) (fd : Fd) :
    Slots (fds.set i (some fd)) (known.insert wid info) := by
  have hlt : i < fds.length := (List.getElem?_eq_some_iff.1 hi).1
  have hne : ∀ {wid' info'}, known.find? wid' = some info' → info'.positionInBuffer ≠ i := by
    intro wid' info' h heq
    obtain ⟨fd', hfd'⟩ := hs.opened h
    rw [heq, hi] at hfd'
    cases hfd'
  refine ⟨fun {wid' info'} h => ?_, fun {wid₁ wid₂ info₁ info₂} h₁ h₂ heq => ?_,
    fun {j fd'} h => ?_⟩
  · rw [SortedMap.find?_insert] at h
    split at h
    · cases h
      exact ⟨fd, by rw [hpos, List.getElem?_set_self hlt]⟩
    · rw [List.getElem?_set_ne (hne h).symm]
      exact hs.opened h
  · rw [SortedMap.find?_insert] at h₁ h₂
    split at h₁ <;> split at h₂
    · next e₁ e₂ => exact e₁.trans e₂.symm
    · cases h₁
      exact absurd (heq.symm.trans hpos) (hne h₂)
    · cases h₂
      exact absurd (heq.trans hpos) (hne h₁)
    · exact hs.eq_of_position_eq h₁ h₂ heq
  · by_cases hij : i = j
    · exact ⟨wid, info, by rw [SortedMap.find?_insert, if_pos rfl], hpos.trans hij⟩
    · rw [List.getElem?_set_ne hij] at h
      obtain ⟨wid', info', hwid', hinfo'⟩ := hs.exists_known h
      refine ⟨wid', info', ?_, hinfo'⟩
      rw [SortedMap.find?_insert_of_ne _ (by rintro rfl; rw [hnew] at hwid'; cases hwid')]
      exact hwid'

/-- A worker's entry changes and its slot does not. -/
theorem modify (hs : Slots fds known) (hwid : known.find? wid = some info) {info' : WorkerInfo}
    (hpos : info'.positionInBuffer = info.positionInBuffer) :
    Slots fds (known.insert wid info') := by
  have hold : ∀ {w i}, (known.insert wid info').find? w = some i →
      ∃ i', known.find? w = some i' ∧ i.positionInBuffer = i'.positionInBuffer := by
    intro w i h
    rw [SortedMap.find?_insert] at h
    split at h
    · next hw =>
      cases h
      exact ⟨info, hw ▸ hwid, hpos⟩
    · exact ⟨i, h, rfl⟩
  refine ⟨fun h => ?_, fun h₁ h₂ heq => ?_, fun h => ?_⟩
  · obtain ⟨i', hi', heq⟩ := hold h
    rw [heq]
    exact hs.opened hi'
  · obtain ⟨i₁, hi₁, heq₁⟩ := hold h₁
    obtain ⟨i₂, hi₂, heq₂⟩ := hold h₂
    exact hs.eq_of_position_eq hi₁ hi₂ (by rw [← heq₁, ← heq₂, heq])
  · obtain ⟨w, i, hw, hi⟩ := hs.exists_known h
    rcases eq_or_ne w wid with rfl | heq
    · rw [hwid] at hw
      cases hw
      exact ⟨w, info', SortedMap.find?_insert_self _ _ _, hpos.trans hi⟩
    · exact ⟨w, i, by rw [SortedMap.find?_insert_of_ne _ heq]; exact hw, hi⟩

/-- A worker leaves its slot. -/
theorem remove (hs : Slots fds known) (hwid : known.find? wid = some info) :
    Slots (fds.set info.positionInBuffer none) (known.erase wid) := by
  have hold : ∀ {w i}, (known.erase wid).find? w = some i → w ≠ wid ∧ known.find? w = some i := by
    intro w i h
    rw [SortedMap.find?_erase] at h
    split at h
    · cases h
    · next hne => exact ⟨hne, h⟩
  refine ⟨fun h => ?_, fun h₁ h₂ heq => ?_, fun {j fd'} h => ?_⟩
  · obtain ⟨hne, h⟩ := hold h
    rw [List.getElem?_set_ne fun heq => hne (hs.eq_of_position_eq h hwid heq.symm)]
    exact hs.opened h
  · exact hs.eq_of_position_eq (hold h₁).2 (hold h₂).2 heq
  · rcases eq_or_ne info.positionInBuffer j with rfl | hj
    · rw [List.getElem?_set] at h
      split at h
      · split at h <;> cases h
      · next hne => exact absurd rfl hne
    · rw [List.getElem?_set_ne hj] at h
      obtain ⟨w, i, hw, hi⟩ := hs.exists_known h
      refine ⟨w, i, ?_, hi⟩
      rw [SortedMap.find?_erase, if_neg]
      · exact hw
      · rintro rfl
        rw [hwid] at hw
        cases hw
        exact hj hi

end Slots

namespace Leader

variable {D : Type} {s s' : Leader D} {wid : WorkerId} {info : WorkerInfo} {fd : Fd}

/-- Modifying a known worker replaces its entry. -/
theorem modifyWorker_eq (h : s.knownWorkers.find? wid = some info) (f : WorkerInfo → WorkerInfo) :
    s.modifyWorker wid f = { s with knownWorkers := s.knownWorkers.insert wid (f info) } := by
  rw [modifyWorker, h, Option.getD_some]

/-- `known_workers_[wid]` for a known worker changes nothing. -/
theorem modifyWorker_id (h : s.knownWorkers.find? wid = some info) : s.modifyWorker wid id = s := by
  rw [modifyWorker_eq h, id, SortedMap.insert_of_find? _ h]

/-! ## The search for a free slot and for the worker of a slot -/

/-- The search for a free slot ends at one, or at the end of the table. -/
theorem getElem?_freeSlot {u : Nat} (hu : u ≤ s.workerFds.length)
    (hne : s.freeSlot u ≠ s.workerFds.length) : s.workerFds[s.freeSlot u]? = some none := by
  have hle : (s.workerFds.drop u).findIdx Option.isNone ≤ (s.workerFds.drop u).length :=
    List.findIdx_le_length
  have hlen := List.length_drop (i := u) (l := s.workerFds)
  have hlt : (s.workerFds.drop u).findIdx Option.isNone < (s.workerFds.drop u).length := by
    unfold freeSlot at hne
    omega
  have hget := List.findIdx_getElem (w := hlt)
  rw [freeSlot, ← List.getElem?_drop, List.getElem?_eq_getElem hlt, Option.some.injEq]
  exact Option.isNone_iff_eq_none.1 hget

/-- The search for the worker of an open slot finds it. -/
theorem find?_owner (hs : Slots s.workerFds s.knownWorkers) {i : Nat}
    (hi : s.workerFds[i]? = some (some fd)) :
    ∃ info, s.knownWorkers.find? (s.owner i) = some info ∧ info.positionInBuffer = i := by
  obtain ⟨wid, info, hwid, hpos⟩ := hs.exists_known hi
  cases hf : s.knownWorkers.entries.find? fun e => e.2.positionInBuffer = i with
  | none =>
    have := List.find?_eq_none.1 hf _ (s.knownWorkers.mem_entries.2 hwid)
    simp [hpos] at this
  | some e =>
    rw [owner, hf]
    exact ⟨e.2, s.knownWorkers.mem_entries.1 (List.mem_of_find?_eq_some hf),
      by simpa using List.find?_some hf⟩

/-! ## What a step can do -/

/-- What a fold does that only touches the queries. -/
theorem foldl_queries {α : Type} {f : Leader D → α → Leader D}
    (hf : ∀ s a, f s a = { s with queries := (f s a).queries }) (l : List α) (s : Leader D) :
    l.foldl f s = { s with queries := (l.foldl f s).queries } := by
  induction l generalizing s with
  | nil => rfl
  | cons a l ih =>
    rw [List.foldl_cons, ih, hf]

/-- A heartbeat is that of a known worker or of one without a slot, or the worker gets a slot. -/
theorem join_cases (h : s.join fd = some s') : ∃ wid upd u, s.position = .joining (wid :: upd) u ∧
    ((s' = { s with position := .joining upd u } ∧ s.knownWorkers.contains wid = true) ∨
      s.knownWorkers.contains wid = false ∧
        (s' = { s with position := .joining upd (s.freeSlot u) } ∧
            s.freeSlot u = s.workerFds.length ∨
          s.freeSlot u ≠ s.workerFds.length ∧ s.sockets fd = none ∧
          s' = { s with
            workerFds := s.workerFds.set (s.freeSlot u) (some fd)
            sockets := Function.update s.sockets fd (some { worker := wid })
            knownWorkers := s.knownWorkers.insert wid { positionInBuffer := s.freeSlot u }
            position := .joining upd (s.freeSlot u + 1)
            history := s.history ++ [.socket fd wid] })) := by
  unfold join at h
  split at h
  · next wid upd u hpos =>
    refine ⟨wid, upd, u, hpos, ?_⟩
    split at h
    · next hknown => exact .inl ⟨(Option.some.inj h).symm, hknown⟩
    · next hnew =>
      refine .inr ⟨Bool.eq_false_iff.2 hnew, ?_⟩
      dsimp only at h
      split at h
      · next hfull => exact .inl ⟨(Option.some.inj h).symm, hfull⟩
      · next hfree =>
        split at h
        · cases h
        · next hfd =>
          exact .inr ⟨hfree, Option.not_isSome_iff_eq_none.1 hfd, (Option.some.inj h).symm⟩
  · cases h

/-- What crediting a value does, for a known worker. -/
theorem credit_eq [Add D] (hwid : s.knownWorkers.find? wid = some info) {qid : QueryId}
    {query : QueryInfo D} (hquery : s.queries[qid]? = some query) (tid : TaskId) (value : D) :
    s.credit wid qid tid value = { s with
      knownWorkers := s.knownWorkers.insert wid
        { info with assignedTasks := info.assignedTasks.drop 1 }
      queries := s.queries.modify qid fun query => query.credit tid value
      history := s.history ++ .credited qid tid value ::
        if (query.credit tid value).isSolved then [.solved qid] else [] } := by
  have hget : (s.queries.modify qid fun query => query.credit tid value)[qid]? =
      some (query.credit tid value) := by
    rw [List.getElem?_modify_eq, hquery]
    rfl
  unfold credit
  simp only [modifyWorker_eq hwid, modifyQuery, emit, hget, Option.any_some]
  split
  · simp only [List.append_assoc, List.cons_append, List.nil_append]
  · rfl

/-- The slot is not open, or the leader reacts to what `poll` reports of it: to an error, then to
what there is to receive, then to the room for sending. -/
theorem look_cases [Add D] {p : Polled D} (h : s.look p = some s') :
    ∃ i n, s.position = .polling i n ∧
      ((s.workerFds[i]? = some none ∧ s' = { s with position := .polling (i + 1) n }) ∨
        ∃ fd t u, s.workerFds[i]? = some (some fd) ∧
          (p.hangUp = false ∧ t = { s with position := .polling (i + 1) n } ∨
            p.hangUp = true ∧ t = { s with position := .polling (i + 1) n }.drop fd (s.owner i)) ∧
          (u = t ∨ ∃ r, p.received = some r ∧ t.receive fd (s.owner i) r = some u) ∧
          (s' = u ∨ ∃ ok, p.canSend = some ok ∧ u.sendTask fd (s.owner i) ok = some s')) := by
  unfold look at h
  split at h
  · next i n hpos =>
    refine ⟨i, n, hpos, ?_⟩
    dsimp only at h
    split at h
    · cases h
    · next hi => exact .inl ⟨hi, (Option.some.inj h).symm⟩
    · next fd hi =>
      split at h
      · cases h
      · obtain ⟨t, ht, h⟩ : ∃ t : Leader D,
            (p.hangUp = false ∧ t = { s with position := .polling (i + 1) n } ∨
              p.hangUp = true ∧ t = { s with position := .polling (i + 1) n }.drop fd (s.owner i)) ∧
            (p.received.elim (some t) (t.receive fd (s.owner i))).bind
              (fun u => p.canSend.elim (some u) (u.sendTask fd (s.owner i))) = some s' := by
          refine ⟨_, ?_, h⟩
          split
          · next hup => exact .inr ⟨hup, rfl⟩
          · next hup => exact .inl ⟨Bool.eq_false_iff.2 hup, rfl⟩
        obtain ⟨u, hu, hs'⟩ := Option.bind_eq_some_iff.1 h
        refine .inr ⟨fd, t, u, hi, ht, ?_, ?_⟩
        · cases hr : p.received with
          | none =>
            rw [hr] at hu
            exact .inl (Option.some.inj hu).symm
          | some r =>
            rw [hr] at hu
            exact .inr ⟨r, rfl, hu⟩
        · cases hc : p.canSend with
          | none =>
            rw [hc] at hs'
            exact .inl (Option.some.inj hs').symm
          | some ok =>
            rw [hc] at hs'
            exact .inr ⟨ok, rfl, hs'⟩
  · cases h

/-- `recv` fails, or the answer to a task sent on the connection is read: a credited one if the task
is in progress. -/
theorem receive_cases [Add D] {r : Received D} (h : s.receive fd wid r = some s') :
    r = .failed ∧ s' = s.drop fd wid ∨
      ∃ k conn task query, s.sockets fd = some conn ∧ conn.sent[k]? = some task ∧
      s.queries[task.1]? = some query ∧
      (s' = s.answered fd conn k ∨ ∃ value, query.tasksInProgress.contains task.2 = true ∧
        s' = (s.answered fd conn k).credit wid task.1 task.2 value) := by
  cases r with
  | failed => exact .inl ⟨rfl, (Option.some.inj h).symm⟩
  | reply k value =>
    simp only [receive] at h
    split at h
    · cases h
    · next conn hconn =>
      split at h
      · cases h
      · next qid tid hk =>
        split at h
        · cases h
        · next query hquery =>
          refine .inr ⟨k, conn, (qid, tid), query, hconn, hk, hquery, ?_⟩
          split at h
          · next hin =>
            split at h
            · cases h
            · exact .inr ⟨value, hin, (Option.some.inj h).symm⟩
          · exact .inl (Option.some.inj h).symm

/-- There is nothing to send, sending fails, or the known worker's first task is sent. -/
theorem sendTask_cases {ok : Bool} (hwid : s.knownWorkers.find? wid = some info)
    (h : s.sendTask fd wid ok = some s') :
    s' = s ∨ (ok = false ∧ info.assignedTasks ≠ [] ∧ s' = s.drop fd wid) ∨
      ∃ conn task a b, ok = true ∧ s.sockets fd = some conn ∧
      info.assignedTasks.head? = some task ∧
      s' = { s with
        sockets := Function.update s.sockets fd (some { conn with sent := conn.sent ++ [task] })
        history := s.history ++ [.sent fd wid task.1 task.2 a b] } := by
  unfold sendTask at h
  dsimp only at h
  rw [modifyWorker_id hwid, hwid, Option.getD_some] at h
  split at h
  · exact .inl (Option.some.inj h).symm
  · next qid tid rest htasks =>
    split at h
    · cases h
    · next task htask =>
      cases ok with
      | false => exact .inr (.inl ⟨rfl, by rw [htasks]; exact nofun, (Option.some.inj h).symm⟩)
      | true =>
        cases hconn : s.sockets fd with
        | none =>
          rw [hconn] at h
          cases h
        | some conn =>
          rw [hconn] at h
          exact .inr (.inr ⟨conn, (qid, tid), task.a, task.b, rfl, rfl, by rw [htasks]; rfl,
            (Option.some.inj h).symm⟩)

/-- Sleeping leads back to the top of the loop. -/
theorem sleep_cases (h : s.sleep = some s') : s' = { s with position := .top } := by
  unfold sleep at h
  split at h
  · split at h
    · exact (Option.some.inj h).symm
    · cases h
  · cases h

/-- The workers to remove are the failed ones that are known. -/
theorem mem_workersToRemove :
    wid ∈ s.workersToRemove ↔ wid ∈ s.widToDelete ∧ s.knownWorkers.contains wid = true := by
  rw [workersToRemove, SortedSet.mem_toList, SortedSet.contains_foldl_add]
  simp

/-- A worker that is removed is a known one. -/
theorem removeWorker_cases (st : Leader D × List (QueryId × TaskId)) (wid : WorkerId) :
    removeWorker st wid = st ∨ ∃ info fd, st.1.knownWorkers.find? wid = some info ∧
      removeWorker st wid = ({ st.1.close fd wid with
        workerFds := st.1.workerFds.set info.positionInBuffer none
        knownWorkers := st.1.knownWorkers.erase wid }, st.2 ++ info.assignedTasks) := by
  unfold removeWorker
  split
  · exact .inl rfl
  · next info hinfo => exact .inr ⟨info, _, hinfo, rfl⟩

/-- Without workers the tasks go back, and with workers they are handed out. -/
theorem assign_cases (h : s.assign = some s') : ∃ u, s.position = .joining [] u ∧
    (s.removeWorkers.1.knownWorkers.entries.isEmpty = true ∧
        s' = { s.removeWorkers.2.foldl returnTask s.removeWorkers.1 with
          position := .polling 0 0 } ∨
      s.removeWorkers.1.knownWorkers.entries.isEmpty = false ∧ ∃ n,
        s' = { (s.removeWorkers.1.reassign s.removeWorkers.2).1 with
          position := .polling 0 n }) := by
  unfold assign at h
  split at h
  · next u hpos =>
    refine ⟨u, hpos, ?_⟩
    dsimp only at h
    split at h
    · next hempty => exact .inl ⟨hempty, (Option.some.inj h).symm⟩
    · next hempty =>
      exact .inr ⟨Bool.eq_false_iff.2 hempty, _, (Option.some.inj h).symm⟩
  · cases h

/-! ## Handing out tasks -/

/-- What the loop over the tasks needs of `workers`: there is one, and it has known workers only. -/
structure Loads (known : SortedMap WorkerId WorkerInfo) (loads : SortedSet (Nat ×ₗ WorkerId)) :
    Prop where
  ne_nil : loads.toList ≠ []
  known : ∀ load, loads.contains load = true → known.contains (ofLex load).2 = true

/-- Each known worker is in `workers` once. -/
def LoadsOnce (known : SortedMap WorkerId WorkerInfo) (loads : SortedSet (Nat ×ₗ WorkerId)) :
    Prop :=
  (loads.toList.map fun load => (ofLex load).2).Perm known.keys

/-- Each known worker is in `workers` once when the loop over the tasks starts. -/
theorem loadsOnce_workerLoads (s : Leader D) : LoadsOnce s.knownWorkers s.workerLoads := by
  have heq : s.workerLoads = (s.knownWorkers.entries.map fun e =>
      toLex (e.2.assignedTasks.length, e.1)).foldl SortedSet.add ∅ := by
    rw [workerLoads, List.foldl_map]
  have hkeys : (s.knownWorkers.entries.map fun e => toLex (e.2.assignedTasks.length, e.1)).map
      (fun load => (ofLex load).2) = s.knownWorkers.keys := by
    rw [List.map_map]
    rfl
  have hnodup := s.knownWorkers.nodup_keys
  rw [← hkeys] at hnodup
  rw [LoadsOnce, heq, ← hkeys]
  have hperm := SortedSet.toList_foldl_add_perm ∅ (List.Nodup.of_map _ hnodup)
    fun load _ => SortedSet.contains_empty load
  have hnil : SortedSet.toList ∅ = ([] : List (Nat ×ₗ WorkerId)) := rfl
  rw [hnil, List.append_nil] at hperm
  exact hperm.map _

/-- If a worker is known, the loop over the tasks has what it needs. -/
theorem loads_workerLoads (h : s.knownWorkers.entries.isEmpty = false) :
    Loads s.knownWorkers s.workerLoads := by
  have honce := loadsOnce_workerLoads s
  refine ⟨fun hnil => ?_, fun load hload => ?_⟩
  · rw [LoadsOnce, hnil, List.map_nil, List.nil_perm, SortedMap.keys, List.map_eq_nil_iff] at honce
    rw [honce] at h
    cases h
  · refine (SortedMap.mem_keys _).1 (honce.subset (List.mem_map.2 ⟨load, ?_, rfl⟩))
    exact (s.workerLoads.mem_toList load).2 hload

/-- A task goes to the end of a known worker's list. -/
theorem assignTask_cases {st : Leader D × SortedSet (Nat ×ₗ WorkerId)}
    (hl : Loads st.1.knownWorkers st.2) (task : QueryId × TaskId) :
    ∃ wid info, st.1.knownWorkers.find? wid = some info ∧
      (assignTask st task).1 = { st.1 with
        knownWorkers := st.1.knownWorkers.insert wid
          { info with assignedTasks := info.assignedTasks ++ [task] } } ∧
      Loads (assignTask st task).1.knownWorkers (assignTask st task).2 := by
  unfold assignTask
  split
  · next hnil => exact absurd hnil hl.ne_nil
  · next load rest hlist =>
    have hload : st.2.contains load = true :=
      (st.2.mem_toList load).1 (by rw [hlist]; exact List.mem_cons_self)
    obtain ⟨info, hinfo⟩ := Option.isSome_iff_exists.1 (hl.known load hload)
    dsimp only
    refine ⟨(ofLex load).2, info, hinfo, modifyWorker_eq hinfo _, fun hnil => ?_, fun l h => ?_⟩
    · have hmem : toLex ((ofLex load).1 + 1, (ofLex load).2) ∈ SortedSet.toList
          (SortedSet.add (st.2.erase load) (toLex ((ofLex load).1 + 1, (ofLex load).2))) := by
        rw [SortedSet.mem_toList, SortedSet.contains_add]
        simp
      rw [hnil] at hmem
      cases hmem
    · rw [modifyWorker_eq hinfo, SortedMap.contains_insert]
      rw [SortedSet.contains_add, SortedSet.contains_erase] at h
      rcases Bool.or_eq_true_iff.1 h with h | h
      · rw [of_decide_eq_true h]
        simp
      · rw [hl.known l (Bool.and_eq_true_iff.1 h).2, Bool.or_true]

/-! ## Runs -/

/-- The tables agree, and the search for a free slot has not gone past the end. -/
structure Tidy (s : Leader D) : Prop where
  slots : Slots s.workerFds s.knownWorkers
  cursor : ∀ {upd u}, s.position = .joining upd u → u ≤ s.workerFds.length

/-- The tables agree at the start. -/
theorem tidy_init (maxWorkers : Nat) : Tidy (init maxWorkers : Leader D) where
  slots := Slots.replicate maxWorkers
  cursor h := by cases h

/-- A worker that joins takes a free slot. -/
theorem tidy_join (ht : Tidy s) (h : s.join fd = some s') : Tidy s' := by
  obtain ⟨wid, upd, u, hpos, ⟨rfl, -⟩ | ⟨hnew, ⟨rfl, hfull⟩ | ⟨hfree, -, rfl⟩⟩⟩ := join_cases h
  · refine ⟨ht.slots, fun heq => ?_⟩
    cases heq
    exact ht.cursor hpos
  · refine ⟨ht.slots, fun heq => ?_⟩
    cases heq
    exact hfull.le
  · have hslot := getElem?_freeSlot (ht.cursor hpos) hfree
    refine ⟨ht.slots.join (Option.not_isSome_iff_eq_none.1 (Bool.eq_false_iff.1 hnew)) hslot rfl fd,
      fun heq => ?_⟩
    cases heq
    rw [List.length_set]
    exact (List.getElem?_eq_some_iff.1 hslot).1

/-- Removing workers frees their slots. -/
theorem slots_removeWorkers (hs : Slots s.workerFds s.knownWorkers) :
    Slots s.removeWorkers.1.workerFds s.removeWorkers.1.knownWorkers := by
  refine List.foldlRecOn (motive := fun st : Leader D × List (QueryId × TaskId) =>
    Slots st.1.workerFds st.1.knownWorkers) _ _ hs fun st hst wid _ => ?_
  rcases removeWorker_cases st wid with heq | ⟨info, fd, hinfo, heq⟩
  · rw [heq]
    exact hst
  · rw [heq]
    exact hst.remove hinfo

/-- Handing out tasks changes no slot. -/
theorem slots_reassign (hs : Slots s.workerFds s.knownWorkers)
    (hne : s.knownWorkers.entries.isEmpty = false) (tasks : List (QueryId × TaskId)) :
    Slots (s.reassign tasks).1.workerFds (s.reassign tasks).1.knownWorkers := by
  refine (List.foldlRecOn (motive := fun st : Leader D × SortedSet (Nat ×ₗ WorkerId) =>
    Slots st.1.workerFds st.1.knownWorkers ∧ Loads st.1.knownWorkers st.2) _ _
    ⟨hs, loads_workerLoads hne⟩ fun st hst task _ => ?_).1
  obtain ⟨wid, info, hinfo, heq, hloads⟩ := assignTask_cases hst.2 task
  refine ⟨?_, hloads⟩
  rw [heq]
  exact hst.1.modify hinfo rfl

/-- An assignment keeps the tables in agreement. -/
theorem tidy_assign (ht : Tidy s) (h : s.assign = some s') : Tidy s' := by
  obtain ⟨u, -, ⟨-, rfl⟩ | ⟨hne, n, rfl⟩⟩ := assign_cases h
  · refine ⟨?_, fun heq => by cases heq⟩
    rw [foldl_queries (f := returnTask) (fun _ _ => rfl)]
    exact slots_removeWorkers ht.slots
  · exact ⟨slots_reassign (slots_removeWorkers ht.slots) hne _, fun heq => by cases heq⟩

/-- The leader looks at the slot `i`, with the descriptor `fd`, of the worker `wid`; `fds` are the
descriptors in all slots. -/
structure LooksAt (fds : List (Option Fd)) (i : Nat) (fd : Fd) (wid : WorkerId) (s : Leader D) :
    Prop where
  position : ∃ n, s.position = .polling (i + 1) n
  workerFds_eq : s.workerFds = fds
  slots : Slots fds s.knownWorkers
  slot : fds[i]? = some (some fd)
  known : ∃ info, s.knownWorkers.find? wid = some info ∧ info.positionInBuffer = i

/-- Receiving a reply leaves the leader at its slot. -/
theorem looksAt_receive [Add D] {fds : List (Option Fd)} {i : Nat} {r : Received D}
    (hl : LooksAt fds i fd wid s) (h : s.receive fd wid r = some s') : LooksAt fds i fd wid s' := by
  rcases receive_cases h with
    ⟨-, rfl⟩ | ⟨k, conn, task, query, -, -, hquery, rfl | ⟨value, -, rfl⟩⟩
  · exact ⟨hl.position, hl.workerFds_eq, hl.slots, hl.slot, hl.known⟩
  · exact ⟨hl.position, hl.workerFds_eq, hl.slots, hl.slot, hl.known⟩
  · obtain ⟨info, hinfo, hpos⟩ := hl.known
    rw [credit_eq (s := s.answered fd conn k) hinfo hquery]
    exact ⟨hl.position, hl.workerFds_eq, hl.slots.modify hinfo rfl, hl.slot, _,
      SortedMap.find?_insert_self _ _ _, hpos⟩

/-- Sending a task leaves the leader at its slot. -/
theorem looksAt_sendTask {fds : List (Option Fd)} {i : Nat} {ok : Bool}
    (hl : LooksAt fds i fd wid s) (h : s.sendTask fd wid ok = some s') :
    LooksAt fds i fd wid s' := by
  obtain ⟨info, hinfo, -⟩ := hl.known
  rcases sendTask_cases hinfo h with rfl | ⟨-, -, rfl⟩ | ⟨conn, task, a, b, -, -, -, rfl⟩
  · exact hl
  · exact ⟨hl.position, hl.workerFds_eq, hl.slots, hl.slot, hl.known⟩
  · exact ⟨hl.position, hl.workerFds_eq, hl.slots, hl.slot, hl.known⟩

/-- Looking at an open slot the leader keeps to its worker. -/
theorem look_stages [Add D] {p : Polled D} (ht : Tidy s) (h : s.look p = some s') :
    ∃ i n, s.position = .polling i n ∧ (s' = { s with position := .polling (i + 1) n } ∨
      ∃ fd t u, LooksAt s.workerFds i fd (s.owner i) t ∧ LooksAt s.workerFds i fd (s.owner i) u ∧
        LooksAt s.workerFds i fd (s.owner i) s' ∧
        (p.hangUp = false ∧ t = { s with position := .polling (i + 1) n } ∨
          p.hangUp = true ∧ t = { s with position := .polling (i + 1) n }.drop fd (s.owner i)) ∧
        (u = t ∨ ∃ r, p.received = some r ∧ t.receive fd (s.owner i) r = some u) ∧
        (s' = u ∨ ∃ ok, p.canSend = some ok ∧ u.sendTask fd (s.owner i) ok = some s')) := by
  obtain ⟨i, n, hpos, ⟨-, rfl⟩ | ⟨fd, t, u, hi, ht', hu, hs'⟩⟩ := look_cases h
  · exact ⟨i, n, hpos, .inl rfl⟩
  · have hlt : LooksAt s.workerFds i fd (s.owner i) t := by
      rcases ht' with ⟨-, rfl⟩ | ⟨-, rfl⟩
      · exact ⟨⟨n, rfl⟩, rfl, ht.slots, hi, find?_owner ht.slots hi⟩
      · exact ⟨⟨n, rfl⟩, rfl, ht.slots, hi, find?_owner ht.slots hi⟩
    have hlu : LooksAt s.workerFds i fd (s.owner i) u := by
      rcases hu with rfl | ⟨r, -, hr⟩
      · exact hlt
      · exact looksAt_receive hlt hr
    have hls : LooksAt s.workerFds i fd (s.owner i) s' := by
      rcases hs' with rfl | ⟨ok, -, hok⟩
      · exact hlu
      · exact looksAt_sendTask hlu hok
    exact ⟨i, n, hpos, .inr ⟨fd, t, u, hlt, hlu, hls, ht', hu, hs'⟩⟩

/-- A look at a slot keeps the tables in agreement. -/
theorem tidy_look [Add D] {p : Polled D} (ht : Tidy s) (h : s.look p = some s') : Tidy s' := by
  obtain ⟨i, n, -, rfl | ⟨fd, t, u, -, -, hl, -⟩⟩ := look_stages ht h
  · exact ⟨ht.slots, fun heq => by cases heq⟩
  · refine ⟨hl.workerFds_eq ▸ hl.slots, fun heq => ?_⟩
    obtain ⟨m, hm⟩ := hl.position
    rw [hm] at heq
    cases heq

section
variable [Zero D] [Add D] [Sub D] [Mul D] [Div D] [NatCast D]

/-- A round starts at the top of the loop, with the heartbeats taken over. -/
theorem start_cases (h : s.start = some s') : s.position = .top ∧
    s' = s.newTasks.foldl addQuery { s with
      hbUpdates := ∅
      newTasks := []
      position := .joining s.hbUpdates.toList 0 } := by
  unfold start at h
  split at h
  · next hpos => exact ⟨hpos, (Option.some.inj h).symm⟩
  · cases h

/-- The start of a round keeps the tables in agreement. -/
theorem tidy_start (ht : Tidy s) (h : s.start = some s') : Tidy s' := by
  obtain ⟨-, rfl⟩ := start_cases h
  rw [foldl_queries (f := addQuery) (fun _ _ => rfl)]
  refine ⟨ht.slots, fun heq => ?_⟩
  cases heq
  exact Nat.zero_le _

/-- Every step keeps the tables in agreement. -/
theorem tidy_step (op : Op D) (ht : Tidy s) (h : step s op = some s') : Tidy s' := by
  cases op with
  | getResult a b =>
    cases h
    exact ⟨ht.slots, ht.cursor⟩
  | discovered wid =>
    cases h
    exact ⟨ht.slots, ht.cursor⟩
  | start => exact tidy_start ht h
  | join fd => exact tidy_join ht h
  | assign => exact tidy_assign ht h
  | look p => exact tidy_look ht h
  | sleep =>
    rw [sleep_cases h]
    exact ⟨ht.slots, fun heq => by cases heq⟩

/-- In every state of every run the tables agree. -/
theorem tidy_run {ops : List (Op D)} {maxWorkers : Nat}
    (hrun : Run.exec step ops (init maxWorkers) = some s) : Tidy s :=
  Run.exec_invariant' (fun _ op _ ht h => tidy_step op ht h) (tidy_init maxWorkers) hrun

end

end Leader

end ToFTDS.Integral
