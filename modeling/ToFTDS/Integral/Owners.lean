import Mathlib.Algebra.Ring.Rat
import Mathlib.Data.Set.Function
import ToFTDS.Integral.Slots

/-!
# The worker of an open slot

For each open slot the loop over the slots searches the known workers for its worker, and an
`ENSURE` checks what the search ended with (`leader.cpp:226`, `234`). The two tables agree in every
state of every run, so the search finds the one worker of the slot (`OneOwner`).

A search that finds nobody ends with the size of `worker_fds_`. The `ENSURE` compares with the size
of `workers`, which is the number of the known workers (`assign_keys`), and an id can be this
number. A loop over the slots can throw exactly if the number of its workers is the id of one of
them (`open_slots_owned`).
-/

namespace ToFTDS.Integral

/-- The steps of the leader, with answers to tasks that were not sent. -/
inductive AnyOp (D : Type) where
  | op (o : Op D)
  /-- What comes next on the connection `fd` is read as an answer to `task`. -/
  | misread (fd : Fd) (task : QueryId × TaskId)

namespace Leader

variable {D : Type} {s s' : Leader D} {wid : WorkerId} {info : WorkerInfo} {fd : Fd} {i n : Nat}

/-- One step. -/
def anyStep [Zero D] [Add D] [Sub D] [Mul D] [Div D] [NatCast D] (s : Leader D) :
    AnyOp D → Option (Leader D)
  | .op o => step s o
  | .misread fd task =>
    (s.sockets fd).map fun conn =>
      { s with
        sockets := Function.update s.sockets fd (some { conn with sent := task :: conn.sent }) }

/-- The open slots and the known workers correspond, and the search for the worker of an open slot
finds the only one there is. -/
structure OneOwner (s : Leader D) : Prop where
  bijOn : Set.BijOn (fun e : WorkerId × WorkerInfo => e.2.positionInBuffer)
    {e | e ∈ s.knownWorkers.entries} {i | ∃ fd, s.workerFds[i]? = some (some fd)}
  found : ∀ {i fd}, s.workerFds[i]? = some (some fd) → ∃ info,
    s.knownWorkers.entries.filter (fun e => e.2.positionInBuffer = i) = [(s.owner i, info)]

/-- The `ENSURE` of the next look throws (`leader.cpp:234`). -/
def ensureThrows (s : Leader D) : Bool :=
  match s.position with
  | .polling i workers => (s.workerFds[i]?.join).isSome && s.owner i == workers
  | _ => false

/-- The ids of the known workers that are not removed before the next loop over the slots. -/
def remaining (s : Leader D) : List WorkerId := s.knownWorkers.keys.filter (· ∉ s.widToDelete)

/-- The number of the workers that remain is the id of one of them. -/
def numberIsId (s : Leader D) : Bool := s.remaining.length ∈ s.remaining

/-- The step begins a loop over the slots with workers whose number is the id of one of them. -/
def startsWithId (s : Leader D) : AnyOp D → Bool
  | .op .assign => s.numberIsId
  | _ => false

/-! ## The search and the check -/

/-- Where the tables agree, every open slot has one owner. -/
theorem oneOwner_of_slots (hs : Slots s.workerFds s.knownWorkers) : OneOwner s where
  bijOn := by
    refine ⟨fun e he => hs.opened (s.knownWorkers.mem_entries.1 he), fun e he e' he' heq => ?_,
      fun i hi => ?_⟩
    · exact s.knownWorkers.eq_of_mem_entries he he' (hs.eq_of_position_eq
        (s.knownWorkers.mem_entries.1 he) (s.knownWorkers.mem_entries.1 he') heq)
    · obtain ⟨fd, hfd⟩ := hi
      obtain ⟨wid, info, hwid, hpos⟩ := hs.exists_known hfd
      exact ⟨(wid, info), s.knownWorkers.mem_entries.2 hwid, hpos⟩
  found {i fd} hi := by
    obtain ⟨info, hinfo, hpos⟩ := find?_owner hs hi
    refine ⟨info, s.knownWorkers.filter_eq_singleton hinfo (decide_eq_true hpos) ?_⟩
    exact fun wid info' hwid h =>
      hs.eq_of_position_eq hwid hinfo ((of_decide_eq_true h).trans hpos.symm)

/-- In a state in which the tables agree the check fails for the worker with the id `n` only, `n`
being the size of `workers`. -/
theorem ensureThrows_iff (hs : Slots s.workerFds s.knownWorkers)
    (hpos : s.position = .polling i n) :
    s.ensureThrows = true ↔
      ∃ info, s.knownWorkers.find? n = some info ∧ info.positionInBuffer = i := by
  have hthrows : s.ensureThrows = ((s.workerFds[i]?.join).isSome && s.owner i == n) := by
    rw [ensureThrows, hpos]
  rw [hthrows, Bool.and_eq_true, beq_iff_eq, Option.isSome_iff_exists]
  constructor
  · rintro ⟨⟨fd, hfd⟩, rfl⟩
    exact find?_owner hs (Option.join_eq_some_iff.1 hfd)
  · rintro ⟨info, hinfo, rfl⟩
    obtain ⟨fd, hfd⟩ := hs.opened hinfo
    obtain ⟨info', hinfo', heq⟩ := find?_owner hs hfd
    exact ⟨⟨fd, Option.join_eq_some_iff.2 hfd⟩, hs.eq_of_position_eq hinfo' hinfo heq⟩

/-- After a failed check there is no step. -/
theorem look_of_ensureThrows [Add D] (h : s.ensureThrows = true) (p : Polled D) :
    s.look p = none := by
  unfold ensureThrows at h
  split at h
  · next i n hpos =>
    obtain ⟨hopen, howner⟩ := Bool.and_eq_true_iff.1 h
    obtain ⟨fd, hfd⟩ := Option.isSome_iff_exists.1 hopen
    rw [look, hpos]
    dsimp only
    rw [Option.join_eq_some_iff.1 hfd]
    exact if_pos (beq_iff_eq.1 howner)
  · cases h

/-- A look at which nothing happens passes the check, or the check fails. -/
theorem look_quiet [Add D] (hpos : s.position = .polling i n) (hi : i < s.workerFds.length)
    (h : s.ensureThrows = false) : s.look {} = some { s with position := .polling (i + 1) n } := by
  have hthrows : ((s.workerFds[i]?.join).isSome && s.owner i == n) = false := by
    rw [ensureThrows, hpos] at h
    exact h
  rw [look, hpos]
  dsimp only
  cases hslot : s.workerFds[i]? with
  | none => exact absurd hi (Nat.not_lt.2 (List.getElem?_eq_none_iff.1 hslot))
  | some slot =>
    cases slot with
    | none => rfl
    | some fd =>
      have hne : ¬ s.owner i = n := by
        rintro heq
        rw [hslot, heq] at hthrows
        simp at hthrows
      exact if_neg hne

/-! ## The size of `workers` -/

/-- The first load is replaced by another load of its worker. -/
theorem LoadsOnce.raise {known : SortedMap WorkerId WorkerInfo}
    {loads : SortedSet (Nat ×ₗ WorkerId)} {load : Nat ×ₗ WorkerId} {rest : List (Nat ×ₗ WorkerId)}
    (hl : LoadsOnce known loads) (hlist : loads.toList = load :: rest) (size : Nat) :
    LoadsOnce known (SortedSet.add (loads.erase load) (toLex (size, (ofLex load).2))) := by
  rw [LoadsOnce, hlist, List.map_cons] at hl
  have hnodup := hl.nodup_iff.2 known.nodup_keys
  have hother : ∀ load' ∈ rest, (ofLex load').2 ≠ (ofLex load).2 := fun load' hmem heq =>
    (List.nodup_cons.1 hnodup).1 (List.mem_map.2 ⟨load', hmem, heq⟩)
  have herase : (loads.erase load).keys = rest := by
    rw [SortedMap.keys_erase]
    change loads.toList.filter _ = rest
    rw [hlist, List.filter_cons_of_neg (by simp)]
    exact List.filter_eq_self.2 fun load' hmem =>
      decide_eq_true fun heq => hother load' hmem (by rw [heq])
  have hnew : (loads.erase load).find? (toLex (size, (ofLex load).2)) = none := by
    rw [← Option.not_isSome_iff_eq_none]
    intro hsome
    have hmem := (SortedMap.mem_keys _).2 hsome
    rw [herase] at hmem
    exact hother _ hmem rfl
  have hadd := (loads.erase load).keys_insert_perm hnew ()
  rw [herase] at hadd
  exact (hadd.map _).trans hl

/-- Assigning a task changes the load of one known worker. -/
theorem assignTask_once {st : Leader D × SortedSet (Nat ×ₗ WorkerId)}
    (hl : LoadsOnce st.1.knownWorkers st.2) (task : QueryId × TaskId) :
    (assignTask st task).1.knownWorkers.keys = st.1.knownWorkers.keys ∧
      LoadsOnce (assignTask st task).1.knownWorkers (assignTask st task).2 := by
  unfold assignTask
  split
  · exact ⟨rfl, hl⟩
  · next load rest hlist =>
    have hknown : (ofLex load).2 ∈ st.1.knownWorkers.keys :=
      hl.subset (List.mem_map.2 ⟨load, by rw [hlist]; exact List.mem_cons_self, rfl⟩)
    obtain ⟨info, hinfo⟩ := Option.isSome_iff_exists.1 ((SortedMap.mem_keys _).1 hknown)
    have hkeys := st.1.knownWorkers.keys_insert_of_find? hinfo
    dsimp only
    rw [modifyWorker_eq hinfo]
    refine ⟨hkeys _, ?_⟩
    rw [LoadsOnce, hkeys]
    exact hl.raise hlist _

/-- Handing out tasks knows the same workers, each of them once. -/
theorem reassign_once (s : Leader D) (tasks : List (QueryId × TaskId)) :
    (s.reassign tasks).1.knownWorkers.keys = s.knownWorkers.keys ∧
      LoadsOnce (s.reassign tasks).1.knownWorkers (s.reassign tasks).2 := by
  refine List.foldlRecOn (motive := fun st : Leader D × SortedSet (Nat ×ₗ WorkerId) =>
    st.1.knownWorkers.keys = s.knownWorkers.keys ∧ LoadsOnce st.1.knownWorkers st.2) _ _
    ⟨rfl, loadsOnce_workerLoads s⟩ fun st hst task _ => ?_
  obtain ⟨hkeys, honce⟩ := assignTask_once hst.2 task
  exact ⟨hkeys.trans hst.1, honce⟩

/-- Removing a worker removes its id. -/
theorem removeWorker_keys (st : Leader D × List (QueryId × TaskId)) (wid : WorkerId) :
    (removeWorker st wid).1.knownWorkers.keys = st.1.knownWorkers.keys.filter (· ≠ wid) := by
  unfold removeWorker
  split
  · next hnone =>
    refine (List.filter_eq_self.2 fun wid' hmem => decide_eq_true ?_).symm
    rintro rfl
    rw [SortedMap.mem_keys, SortedMap.contains, hnone] at hmem
    cases hmem
  · exact SortedMap.keys_erase _ _

/-- Those that remain are known after the removal. -/
theorem removeWorkers_keys (s : Leader D) :
    s.removeWorkers.1.knownWorkers.keys = s.remaining := by
  have hfold : ∀ (wids : List WorkerId) (st : Leader D × List (QueryId × TaskId)),
      (wids.foldl removeWorker st).1.knownWorkers.keys =
        st.1.knownWorkers.keys.filter (· ∉ wids) := by
    intro wids
    induction wids with
    | nil => simp
    | cons wid wids ih =>
      intro st
      rw [List.foldl_cons, ih, removeWorker_keys, List.filter_filter]
      exact List.filter_congr fun wid' _ => by simp [Bool.and_comm]
  rw [removeWorkers, hfold, remaining]
  refine List.filter_congr fun wid hmem => ?_
  rw [decide_eq_decide, mem_workersToRemove, ← SortedMap.mem_keys, and_iff_left hmem]

/-- The loop over the slots begins with the workers that remain, and `workers` has one entry for
each of them. -/
theorem assign_keys (h : s.assign = some s') :
    s'.position = .polling 0 s.remaining.length ∧ s'.knownWorkers.keys = s.remaining := by
  have hremoved := removeWorkers_keys s
  unfold assign at h
  split at h
  · dsimp only at h
    split at h
    · next hempty =>
      cases h
      rw [foldl_queries (f := returnTask) (fun _ _ => rfl)]
      refine ⟨?_, hremoved⟩
      rw [← hremoved, SortedMap.length_keys, List.isEmpty_iff.1 hempty]
      rfl
    · cases h
      obtain ⟨hkeys, honce⟩ := s.removeWorkers.1.reassign_once s.removeWorkers.2
      refine ⟨?_, hkeys.trans hremoved⟩
      have hlen := honce.length_eq
      rw [hkeys, hremoved, List.length_map] at hlen
      rw [← hlen]
      exact congrArg _ (List.length_map _).symm
  · cases h

/-! ## The loop over the slots -/

/-- Receiving a reply keeps the position and the known ids. -/
theorem receive_keys [Add D] {fds : List (Option Fd)} {r : Received D}
    (hl : LooksAt fds i fd wid s) (h : s.receive fd wid r = some s') :
    s'.position = s.position ∧ s'.knownWorkers.keys = s.knownWorkers.keys := by
  rcases receive_cases h with
    ⟨-, rfl⟩ | ⟨k, conn, task, query, -, -, hquery, rfl | ⟨value, -, rfl⟩⟩
  · exact ⟨rfl, rfl⟩
  · exact ⟨rfl, rfl⟩
  · obtain ⟨info, hinfo, -⟩ := hl.known
    rw [credit_eq (s := s.answered fd conn k) hinfo hquery]
    exact ⟨rfl, s.knownWorkers.keys_insert_of_find? hinfo _⟩

/-- Sending a task keeps the position and the known ids. -/
theorem sendTask_keys {fds : List (Option Fd)} {ok : Bool} (hl : LooksAt fds i fd wid s)
    (h : s.sendTask fd wid ok = some s') :
    s'.position = s.position ∧ s'.knownWorkers.keys = s.knownWorkers.keys := by
  obtain ⟨info, hinfo, -⟩ := hl.known
  rcases sendTask_cases hinfo h with rfl | ⟨-, -, rfl⟩ | ⟨conn, task, a, b, -, -, -, rfl⟩
  · exact ⟨rfl, rfl⟩
  · exact ⟨rfl, rfl⟩
  · exact ⟨rfl, rfl⟩

/-- A look moves on to the next slot, with the same workers. -/
theorem look_keys [Add D] {p : Polled D} (ht : Tidy s) (h : s.look p = some s') :
    ∃ i n, s.position = .polling i n ∧ s'.position = .polling (i + 1) n ∧
      s'.knownWorkers.keys = s.knownWorkers.keys := by
  obtain ⟨i, n, hpos, rfl | ⟨fd, t, u, hlt, hlu, -, ht', hu, hs'⟩⟩ := look_stages ht h
  · exact ⟨i, n, hpos, rfl, rfl⟩
  · have hkeys : t.position = .polling (i + 1) n ∧ t.knownWorkers.keys = s.knownWorkers.keys := by
      rcases ht' with ⟨-, rfl⟩ | ⟨-, rfl⟩
      · exact ⟨rfl, rfl⟩
      · exact ⟨rfl, rfl⟩
    have hreceive : u.position = t.position ∧ u.knownWorkers.keys = t.knownWorkers.keys := by
      rcases hu with rfl | ⟨r, -, hr⟩
      · exact ⟨rfl, rfl⟩
      · exact receive_keys hlt hr
    have hsend : s'.position = u.position ∧ s'.knownWorkers.keys = u.knownWorkers.keys := by
      rcases hs' with rfl | ⟨ok, -, hok⟩
      · exact ⟨rfl, rfl⟩
      · exact sendTask_keys hlu hok
    exact ⟨i, n, hpos, hsend.1.trans (hreceive.1.trans hkeys.1),
      hsend.2.trans (hreceive.2.trans hkeys.2)⟩

/-- The tables agree, and in the loop over the slots no known worker has the size of `workers` as
its id. -/
structure Passing (s : Leader D) : Prop where
  tidy : Tidy s
  not_id : ∀ {i n}, s.position = .polling i n → n ∉ s.knownWorkers.keys

/-- Where no id is the size of `workers`, the `ENSURE` passes. -/
theorem Passing.ensureThrows_eq_false (hp : Passing s) : s.ensureThrows = false := by
  cases hthrows : s.ensureThrows with
  | false => rfl
  | true =>
    cases hpos : s.position with
    | top =>
      rw [ensureThrows, hpos] at hthrows
      cases hthrows
    | joining upd u =>
      rw [ensureThrows, hpos] at hthrows
      cases hthrows
    | polling i n =>
      obtain ⟨info, hinfo, -⟩ := (ensureThrows_iff hp.tidy.slots hpos).1 hthrows
      refine absurd ((SortedMap.mem_keys _).2 ?_) (hp.not_id hpos)
      rw [SortedMap.contains, hinfo]
      rfl

section
variable [Zero D] [Add D] [Sub D] [Mul D] [Div D] [NatCast D]

/-- Every step keeps the tables in agreement. -/
theorem tidy_anyStep (op : AnyOp D) (ht : Tidy s) (h : anyStep s op = some s') : Tidy s' := by
  cases op with
  | op o => exact tidy_step o ht h
  | misread fd task =>
    obtain ⟨conn, -, rfl⟩ := Option.map_eq_some_iff.1 h
    exact ⟨ht.slots, ht.cursor⟩

/-- A step leaves the position and the workers alone, or it is a look, or it begins a loop over the
slots, or it ends outside of one. -/
theorem anyStep_cases {op : AnyOp D} (ht : Tidy s) (h : anyStep s op = some s') :
    (s.startsWithId op = false ∧ s'.position = s.position ∧
        s'.knownWorkers.keys = s.knownWorkers.keys) ∨
      (s.startsWithId op = false ∧ ∃ i n, s.position = .polling i n ∧
        s'.position = .polling (i + 1) n ∧ s'.knownWorkers.keys = s.knownWorkers.keys) ∨
      (op = .op .assign ∧ (∀ i n, s.position ≠ .polling i n) ∧
        s'.position = .polling 0 s.remaining.length ∧ s'.knownWorkers.keys = s.remaining) ∨
      ((op = .op .sleep ∨ ∀ i n, s.position ≠ .polling i n) ∧
        ∀ i n, s'.position ≠ .polling i n) := by
  have houtside : ∀ {t : Leader D} {upd u}, t.position = .joining upd u →
      ∀ i n, t.position ≠ .polling i n := by
    intro t upd u ht i n heq
    cases ht.symm.trans heq
  cases op with
  | misread fd task =>
    obtain ⟨conn, -, rfl⟩ := Option.map_eq_some_iff.1 h
    exact .inl ⟨rfl, rfl, rfl⟩
  | op o =>
    cases o with
    | getResult a b =>
      cases h
      exact .inl ⟨rfl, rfl, rfl⟩
    | discovered wid =>
      cases h
      exact .inl ⟨rfl, rfl, rfl⟩
    | start =>
      obtain ⟨htop, rfl⟩ := start_cases h
      have hnot : ∀ i n, s.position ≠ .polling i n := by
        intro i n heq
        cases htop.symm.trans heq
      rw [foldl_queries (f := addQuery) (fun _ _ => rfl)]
      exact .inr (.inr (.inr ⟨.inr hnot, houtside rfl⟩))
    | join fd =>
      obtain ⟨wid, upd, u, hpos, hs'⟩ := join_cases h
      refine .inr (.inr (.inr ⟨.inr (houtside hpos), ?_⟩))
      rcases hs' with ⟨rfl, -⟩ | ⟨-, ⟨rfl, -⟩ | ⟨-, -, rfl⟩⟩
      · exact houtside rfl
      · exact houtside rfl
      · exact houtside rfl
    | assign =>
      obtain ⟨u, hpos, -⟩ := assign_cases h
      exact .inr (.inr (.inl ⟨rfl, houtside hpos, assign_keys h⟩))
    | look p => exact .inr (.inl ⟨rfl, look_keys ht h⟩)
    | sleep =>
      rw [sleep_cases h]
      exact .inr (.inr (.inr ⟨.inl rfl, nofun⟩))

/-- Every step that starts no loop with such an id keeps the `ENSURE` from throwing. -/
theorem passing_step (op : AnyOp D) (hp : Passing s) (hop : s.startsWithId op = false)
    (h : anyStep s op = some s') : Passing s' := by
  refine ⟨tidy_anyStep op hp.tidy h, fun {i n} hpos => ?_⟩
  rcases anyStep_cases hp.tidy h with ⟨-, hsame, hkeys⟩ | ⟨-, i', n', hpos', hnext, hkeys⟩ |
    ⟨rfl, -, hstart, hkeys⟩ | ⟨-, houtside⟩
  · rw [hkeys]
    exact hp.not_id (hsame.symm.trans hpos)
  · cases hnext.symm.trans hpos
    rw [hkeys]
    exact hp.not_id hpos'
  · cases hstart.symm.trans hpos
    rw [hkeys]
    exact of_decide_eq_false hop
  · exact absurd hpos (houtside i n)

/-- Until the leader sleeps it is in the loop over the slots, and begins no other. -/
theorem polling_step {op : AnyOp D} (ht : Tidy s) (hop : op ≠ .op .sleep)
    (hpos : ∃ i n, s.position = .polling i n) (h : anyStep s op = some s') :
    s.startsWithId op = false ∧ ∃ i n, s'.position = .polling i n := by
  obtain ⟨i, n, hpos⟩ := hpos
  rcases anyStep_cases ht h with ⟨hstarts, hsame, -⟩ | ⟨hstarts, i', n', -, hnext, -⟩ |
    ⟨-, houtside, -⟩ | ⟨hsleep | houtside, -⟩
  · exact ⟨hstarts, i, n, hsame.trans hpos⟩
  · exact ⟨hstarts, i' + 1, n', hnext⟩
  · exact absurd hpos (houtside i n)
  · exact absurd hsleep hop
  · exact absurd hpos (houtside i n)

/-- The check keeps passing until the leader sleeps. -/
theorem passing_loop {loop : List (AnyOp D)} (hp : Passing s)
    (hpos : ∃ i n, s.position = .polling i n) (hsleep : .op .sleep ∉ loop)
    (hrun : Run.exec anyStep loop s = some s') : Passing s' := by
  refine (Run.exec_invariant_ops (P := fun op => op ≠ .op .sleep)
    (I := fun s => Passing s ∧ ∃ i n, s.position = .polling i n) (fun s op s' hop hI h => ?_)
    (fun op hmem heq => hsleep (by rw [← heq]; exact hmem)) ⟨hp, hpos⟩ hrun).1
  obtain ⟨hstarts, hpos'⟩ := polling_step hI.1.tidy hop hI.2 h
  exact ⟨passing_step op hI.1 hstarts h, hpos'⟩

/-- Looks at which nothing happens lead to the slot of the worker whose id is the size of
`workers`. -/
theorem exec_quiet (hs : Slots s.workerFds s.knownWorkers) (hpos : s.position = .polling 0 n)
    (hinfo : s.knownWorkers.find? n = some info) (m : Nat) (hm : m ≤ info.positionInBuffer) :
    Run.exec anyStep (List.replicate m (.op (.look {}))) s =
      some { s with position := .polling m n } := by
  induction m with
  | zero =>
    rw [← hpos]
    rfl
  | succ m ih =>
    rw [List.replicate_succ', Run.exec_append_eq, ih (Nat.le_of_succ_le hm), Option.bind_some]
    obtain ⟨fd, hfd⟩ := hs.opened hinfo
    have hlt : m < s.workerFds.length :=
      Nat.lt_trans hm (List.getElem?_eq_some_iff.1 hfd).1
    have hpasses : ensureThrows { s with position := .polling m n } = false := by
      refine Bool.eq_false_iff.2 fun hthrows => ?_
      obtain ⟨info', hinfo', hslot⟩ :=
        (ensureThrows_iff (s := { s with position := .polling m n }) hs rfl).1 hthrows
      rw [hinfo] at hinfo'
      cases hinfo'
      omega
    have hlook := look_quiet (s := { s with position := .polling m n }) rfl hlt hpasses
    rw [Run.exec, anyStep, step, hlook]
    rfl

/-- If the size of `workers` is a known worker's id, the check of its slot fails. -/
theorem exists_ensureThrows (hs : Slots s.workerFds s.knownWorkers)
    (hpos : s.position = .polling 0 n) (hid : n ∈ s.knownWorkers.keys) :
    ∃ m t, Run.exec anyStep (List.replicate m (.op (.look {}))) s = some t ∧
      t.ensureThrows = true := by
  obtain ⟨info, hinfo⟩ := Option.isSome_iff_exists.1 ((SortedMap.mem_keys _).1 hid)
  exact ⟨info.positionInBuffer, _, exec_quiet hs hpos hinfo _ (Nat.le_refl _),
    (ensureThrows_iff (s := { s with position := .polling _ _ }) hs rfl).2 ⟨info, hinfo, rfl⟩⟩

/-- **Every open slot has one owner**, and the search for it finds it, in every state of every run.
The `ENSURE` after the search passes as long as no loop over the slots begins with workers whose
number is the id of one of them; and in a loop that begins so it can throw. -/
theorem open_slots_owned {ops : List (AnyOp D)} {maxWorkers : Nat}
    (hrun : Run.exec anyStep ops (init maxWorkers) = some s) :
    OneOwner s ∧
      (Run.Avoids anyStep startsWithId ops (init maxWorkers) = true → s.ensureThrows = false) ∧
      ∀ s', s.assign = some s' →
        ((∀ loop t, .op .sleep ∉ loop → Run.exec anyStep loop s' = some t →
          t.ensureThrows = false) ↔ s.numberIsId = false) := by
  have htidy : Tidy s := Run.exec_invariant' (fun _ op _ ht h => tidy_anyStep op ht h)
    (tidy_init maxWorkers) hrun
  refine ⟨oneOwner_of_slots htidy.slots, fun havoids => ?_, fun s' hassign => ?_⟩
  · have hinit : Passing (init maxWorkers : Leader D) := ⟨tidy_init maxWorkers, nofun⟩
    exact (Run.exec_invariant (fun _ op _ hp hop h => passing_step op hp hop h) hinit hrun
      havoids).ensureThrows_eq_false
  · have htidy' : Tidy s' := tidy_assign htidy hassign
    obtain ⟨hpos, hkeys⟩ := assign_keys hassign
    constructor
    · intro hpasses
      refine Bool.eq_false_iff.2 fun hid => ?_
      have hid : s.remaining.length ∈ s.remaining := of_decide_eq_true hid
      rw [← hkeys] at hid
      obtain ⟨m, t, ht, hthrows⟩ := exists_ensureThrows htidy'.slots (hkeys ▸ hpos) hid
      have hsleep : AnyOp.op Op.sleep ∉ List.replicate m (AnyOp.op (Op.look {} : Op D)) :=
        fun hmem => by cases List.eq_of_mem_replicate hmem
      rw [hpasses _ t hsleep ht] at hthrows
      cases hthrows
    · intro hid loop t hsleep hloop
      have hpassing : Passing s' := ⟨htidy', fun {i n} hpos' => by
        cases hpos.symm.trans hpos'
        rw [hkeys]
        exact of_decide_eq_false hid⟩
      exact (passing_loop hpassing ⟨_, _, hpos⟩ hsleep hloop).ensureThrows_eq_false

end

/-- The worker `wid` is discovered and connected through the descriptor 4. -/
def joins (wid : WorkerId) : List (AnyOp ℚ) :=
  [.op (.discovered wid), .op .start, .op (.join 4)]

/-- The worker 7 owns the only open slot, and the next loop passes. -/
theorem open_slots_owned_joins : ∃ s s', Run.exec anyStep (joins 7) (init 10) = some s ∧
    s.assign = some s' ∧ s.knownWorkers.keys = [7] ∧ OneOwner s ∧ s.ensureThrows = false ∧
    ∀ loop t, .op .sleep ∉ loop → Run.exec anyStep loop s' = some t → t.ensureThrows = false := by
  have hrun : (Run.exec anyStep (joins 7) (init 10)).any (fun s =>
      s.assign.isSome && s.knownWorkers.keys == [7] && !s.numberIsId) = true := by decide +kernel
  obtain ⟨s, hs, htest⟩ := Run.exists_of_any hrun
  simp only [Bool.and_eq_true, beq_iff_eq, Bool.not_eq_true'] at htest
  obtain ⟨⟨hassign, hkeys⟩, hid⟩ := htest
  obtain ⟨s', hassign⟩ := Option.isSome_iff_exists.1 hassign
  obtain ⟨hone, hpasses, hloop⟩ := open_slots_owned hs
  exact ⟨s, s', hs, hassign, hkeys, hone, hpasses (by decide +kernel), (hloop s' hassign).2 hid⟩

/-- The `ENSURE` throws when the leader looks at the slot of the worker 1, the only one it knows. -/
theorem not_open_slots_owned : ∃ s, Run.exec anyStep (joins 1 ++ [.op .assign]) (init 10) = some s ∧
    s.workerFds.head? = some (some 4) ∧ s.knownWorkers.keys = [1] ∧ s.ensureThrows = true ∧
    ∀ p, s.look p = none := by
  have hrun : (Run.exec anyStep (joins 1 ++ [.op .assign]) (init 10)).any (fun s =>
      s.workerFds.head? == some (some 4) && s.knownWorkers.keys == [1] && s.ensureThrows) =
        true := by decide +kernel
  obtain ⟨s, hs, htest⟩ := Run.exists_of_any hrun
  simp only [Bool.and_eq_true, beq_iff_eq] at htest
  obtain ⟨⟨hfds, hkeys⟩, hthrows⟩ := htest
  exact ⟨s, hs, hfds, hkeys, hthrows, look_of_ensureThrows hthrows⟩

end Leader

end ToFTDS.Integral
