import Mathlib.Algebra.Ring.Rat
import ToFTDS.Integral.Books

/-!
# Every slice is credited once

`Accounted` is what the leader owes a query. Every step keeps the books (`Balanced`) unless a task
is sent on a descriptor that is in two slots or a query gets an id that another has (`ambiguous`),
and so a run without such steps accounts for every slice (`accounted`). An error path closes a
descriptor and leaves it in its slot, `socket` may then return it for another worker, and a reply is
taken for the wrong worker's (`not_accounted_of_shared`).
-/

namespace ToFTDS.Integral

namespace Leader

variable {D : Type} {s s' : Leader D} {wid : WorkerId} {info : WorkerInfo} {fd : Fd}
  {loose : List (QueryId × TaskId)}

/-- The descriptor in the slot `i` is in another slot too. -/
def sharesDescriptor (s : Leader D) (i : Nat) : Bool :=
  match s.workerFds[i]? with
  | some (some fd) =>
    (List.range s.workerFds.length).any fun j => j ≠ i && s.workerFds[j]? == some (some fd)
  | _ => false

/-- The step uses a number for what it is not the only number of: it may send on a descriptor that
is in two slots, or it gives a query an id that does not fit into a `uint32_t`. -/
def ambiguous (s : Leader D) : Op D → Bool
  | .start => 2 ^ 32 < s.queries.length + s.newTasks.length
  | .look p =>
    match s.position with
    | .polling i _ => p.canSend == some true && s.sharesDescriptor i
    | _ => false
  | _ => false

/-- A descriptor that is not shared is in one slot. -/
theorem eq_of_not_sharesDescriptor {i : Nat} (hi : s.workerFds[i]? = some (some fd))
    (h : s.sharesDescriptor i = false) {j : Nat} (hj : s.workerFds[j]? = some (some fd)) :
    j = i := by
  rw [sharesDescriptor, hi] at h
  by_contra hne
  have := List.any_eq_false.1 h j (List.mem_range.2 (List.getElem?_eq_some_iff.1 hj).1)
  simp [hne, hj] at this

/-- The books with some tasks that no worker has. -/
structure Inv [Zero D] [Add D] (s : Leader D) (loose : List (QueryId × TaskId)) : Prop where
  books : Books s.queries s.history
  held : Held s.knownWorkers s.queries loose
  linked : Linked s.knownWorkers s.workerFds s.sockets s.history
  split : Split s.queries

/-- Closing a descriptor credits and reports nothing. -/
theorem quiet_close (fd : Option Fd) (wid : WorkerId) (owner : Option WorkerId) :
    (Event.close fd wid owner : Event D).Quiet := fun _ => ⟨rfl, rfl⟩

section
variable [Zero D] [Add D]

/-- The books are empty at the start. -/
theorem inv_init (maxWorkers : Nat) : Inv (init maxWorkers : Leader D) [] :=
  ⟨Books.nil, Held.nil, Linked.empty _ _ _, fun _ h => by cases h⟩

/-- Closing a connection keeps the books. -/
theorem inv_close (hi : Inv s loose) (fd : Option Fd) (wid : WorkerId) :
    Inv (s.close fd wid) loose := by
  refine ⟨hi.books.quiet (quiet_close _ _ _), hi.held, ?_, hi.split⟩
  refine Linked.quiet ?_ (quiet_close _ _ _)
  cases fd with
  | none => exact hi.linked
  | some fd => exact hi.linked.update fun h => by cases h

/-- Dropping a worker keeps the books. -/
theorem inv_drop (hi : Inv s loose) (fd : Fd) (wid : WorkerId) : Inv (s.drop fd wid) loose :=
  have hc := inv_close hi (some fd) wid
  ⟨hc.books, hc.held, hc.linked, hc.split⟩

/-! ## New queries and workers -/

/-- A worker joins without tasks. -/
theorem inv_join (ht : Tidy s) (hi : Inv s []) (h : s.join fd = some s') : Inv s' [] := by
  obtain ⟨wid, upd, u, hpos, ⟨rfl, -⟩ | ⟨hnew, ⟨rfl, -⟩ | ⟨hfree, -, rfl⟩⟩⟩ := join_cases h
  · exact ⟨hi.books, hi.held, hi.linked, hi.split⟩
  · exact ⟨hi.books, hi.held, hi.linked, hi.split⟩
  · have hnone := Option.not_isSome_iff_eq_none.1 (Bool.eq_false_iff.1 hnew)
    have hslot := getElem?_freeSlot (ht.cursor hpos) hfree
    refine ⟨hi.books.quiet fun _ => ⟨rfl, rfl⟩, hi.held.join hnone rfl, ?_, hi.split⟩
    exact (hi.linked.join ht.slots hslot rfl rfl).quiet fun _ => ⟨rfl, rfl⟩

/-! ## Removing workers and handing out tasks -/

/-- The tasks of removed workers are loose. -/
theorem inv_removeWorkers (hi : Inv s []) : Inv s.removeWorkers.1 s.removeWorkers.2 := by
  refine List.foldlRecOn (motive := fun st : Leader D × List (QueryId × TaskId) => Inv st.1 st.2)
    _ _ ⟨hi.books, hi.held, hi.linked, hi.split⟩ fun st hst wid _ => ?_
  rcases removeWorker_cases st wid with heq | ⟨info, fd, hinfo, heq⟩
  · rw [heq]
    exact hst
  · rw [heq]
    have hc := inv_close hst fd wid
    exact ⟨hc.books, hc.held.remove hinfo, hc.linked.remove _, hc.split⟩

/-- The loose tasks go back one by one. -/
theorem books_returnTasks {tasks : List (QueryId × TaskId)} (hb : Books s.queries s.history)
    (hh : Held s.knownWorkers s.queries tasks) :
    Books (tasks.foldl returnTask s).queries s.history ∧
      Held s.knownWorkers (tasks.foldl returnTask s).queries [] := by
  induction tasks generalizing s with
  | nil => exact ⟨hb, hh⟩
  | cons task tasks ih =>
    refine ih (s := s.returnTask task) (hb.modify fun query hquery => ?_) hh.returnTask
    obtain ⟨query', hquery', hin⟩ := inProgress_iff.1 hh.of_loose.1
    rw [hquery] at hquery'
    cases hquery'
    exact (hb.query hquery).returnTask hin

/-- The loose tasks are handed out one by one. -/
theorem inv_assignTasks {tasks : List (QueryId × TaskId)}
    {st : Leader D × SortedSet (Nat ×ₗ WorkerId)} (hi : Inv st.1 tasks)
    (hloads : Loads st.1.knownWorkers st.2) : Inv (tasks.foldl assignTask st).1 [] := by
  induction tasks generalizing st with
  | nil => exact hi
  | cons task tasks ih =>
    obtain ⟨wid, info, hinfo, heq, hloads'⟩ := assignTask_cases hloads task
    refine ih ?_ hloads'
    rw [heq]
    refine ⟨hi.books, hi.held.assign hinfo rfl, ?_, hi.split⟩
    refine hi.linked.modify hinfo (by rfl) (fun _ => Nat.le_refl _) fun task' hhead => .inl ?_
    rw [List.head?_append, hhead, Option.some_or]

/-- An assignment leaves no task loose. -/
theorem inv_assign (hi : Inv s []) (h : s.assign = some s') : Inv s' [] := by
  have hr := inv_removeWorkers hi
  obtain ⟨u, -, ⟨hempty, rfl⟩ | ⟨hne, n, rfl⟩⟩ := assign_cases h
  · obtain ⟨hb, hh⟩ := books_returnTasks hr.books hr.held
    rw [foldl_queries (f := returnTask) (fun _ _ => rfl)]
    exact ⟨hb, hh, hr.linked, Split.of_held hh hempty⟩
  · have hids : ∀ {qid : Nat} {query : QueryInfo D},
        s.removeWorkers.1.queries[qid]? = some query → query.id = qid :=
      fun hquery => (hr.books.query hquery).id_eq
    have ha : Inv (s.removeWorkers.1.reassign s.removeWorkers.2).1 [] := by
      refine inv_assignTasks ⟨hr.books.swapTasks, ?_, hr.linked, hr.split.swapTasks⟩ ?_
      · exact hr.held.swapTasks hr.split hids
      · exact loads_workerLoads hne
    exact ⟨ha.books, ha.held, ha.linked, ha.split⟩

/-! ## Looking at a slot -/

/-- An answer on the worker's connection is that for its first task, or for a credited one. -/
theorem inv_receive {fds : List (Option Fd)} {i : Nat} {r : Received D} (hi : Inv s [])
    (hl : LooksAt fds i fd wid s) (h : s.receive fd wid r = some s') : Inv s' [] := by
  rcases receive_cases h with ⟨-, rfl⟩ | ⟨k, conn, task, query, hconn, hk, hquery, hs'⟩
  · exact inv_drop hi fd wid
  · have ha : Inv (s.answered fd conn k) [] := by
      refine ⟨hi.books, hi.held, hi.linked.update fun {conn' task'} heq hmem => ?_, hi.split⟩
      cases heq
      exact ⟨conn, hconn, List.mem_of_mem_drop hmem⟩
    rcases hs' with rfl | ⟨value, hin, rfl⟩
    · exact ha
    · obtain ⟨info, hinfo, hpos⟩ := hl.known
      have hzero := ((hi.books.query hquery).of_inProgress hin).2
      have hhead : info.assignedTasks.head? = some task :=
        (hi.linked hinfo (by rw [hpos, hl.workerFds_eq]; exact hl.slot) hconn
          (List.mem_of_getElem? hk)).resolve_right
          (by rw [hzero]; exact Nat.lt_irrefl 0)
      obtain ⟨rest, hrest⟩ := List.head?_eq_some_iff.1 hhead
      rw [credit_eq (s := s.answered fd conn k) hinfo hquery]
      refine ⟨ha.books.credit hquery hin value, ?_, ?_, ha.split.credit _ _ _⟩
      · exact ha.held.credit hinfo (by rw [hrest]; rfl) fun _ => rfl
      · refine ha.linked.modify hinfo (by rfl) (fun task' => ?_) fun task' hhead' => .inr ?_
        · rw [credits_credit]
          exact Nat.le_add_right _ _
        · rw [hhead] at hhead'
          cases hhead'
          rw [credits_credit, if_pos rfl]
          exact Nat.succ_pos _

/-- A task goes out on the descriptor of a slot that is in no other. -/
theorem inv_sendTask {fds : List (Option Fd)} {i : Nat} {ok : Bool} (hi : Inv s [])
    (hl : LooksAt fds i fd wid s) (hown : ok = true → ∀ j, fds[j]? = some (some fd) → j = i)
    (h : s.sendTask fd wid ok = some s') : Inv s' [] := by
  obtain ⟨info, hinfo, hpos⟩ := hl.known
  rcases sendTask_cases hinfo h with rfl | ⟨-, -, rfl⟩ | ⟨conn, task, a, b, hok, hconn, hhead, rfl⟩
  · exact hi
  · exact inv_drop hi fd wid
  · refine ⟨hi.books.quiet fun _ => ⟨rfl, rfl⟩, hi.held, ?_, hi.split⟩
    refine Linked.quiet ?_ fun _ => ⟨rfl, rfl⟩
    refine hi.linked.send (hl.workerFds_eq ▸ hl.slots) hinfo hhead hconn ?_
    rw [hl.workerFds_eq, hpos]
    exact hown hok

/-- A look at a slot keeps the books, unless it may send on a shared descriptor. -/
theorem inv_look {p : Polled D} (ht : Tidy s) (hi : Inv s []) (hp : s.ambiguous (.look p) = false)
    (h : s.look p = some s') : Inv s' [] := by
  obtain ⟨i, n, hpos, rfl | ⟨fd, t, u, hlt, hlu, -, ht', hu, hs'⟩⟩ := look_stages ht h
  · exact ⟨hi.books, hi.held, hi.linked, hi.split⟩
  · have hnext : Inv { s with position := .polling (i + 1) n } [] :=
      ⟨hi.books, hi.held, hi.linked, hi.split⟩
    have hit : Inv t [] := by
      rcases ht' with ⟨-, rfl⟩ | ⟨-, rfl⟩
      · exact hnext
      · exact inv_drop hnext fd _
    have hiu : Inv u [] := by
      rcases hu with rfl | ⟨r, -, hr⟩
      · exact hit
      · exact inv_receive hit hlt hr
    rcases hs' with rfl | ⟨ok, hcan, hok⟩
    · exact hiu
    · refine inv_sendTask hiu hlu (fun htrue j hj => ?_) hok
      subst htrue
      simp only [ambiguous, hpos, hcan, BEq.rfl, Bool.true_and] at hp
      exact eq_of_not_sharesDescriptor hlu.slot hp hj

/-! ## What the leader owes a query -/

/-- Every task of every query is to do, in progress or credited, and only one of them, once; a task
in progress is in one known worker's list, once; the result is the sum of the credited values; and
the query has been reported once if all of its tasks are credited, and not at all otherwise. -/
structure Accounted (s : Leader D) : Prop where
  one_place : ∀ {qid query}, s.queries[qid]? = some query → ∀ tid,
    (query.tasksToDo.contains tid).toNat + (query.tasksInProgress.contains tid).toNat +
      credits s.history (qid, tid) = if tid < query.allTasks.length then 1 else 0
  one_holder : ∀ {qid query}, s.queries[qid]? = some query → ∀ tid,
    query.tasksInProgress.contains tid = true → ∃ wid info,
      s.knownWorkers.find? wid = some info ∧ info.assignedTasks.count (qid, tid) = 1 ∧
      ∀ wid' info', s.knownWorkers.find? wid' = some info' →
        (qid, tid) ∈ info'.assignedTasks → wid' = wid
  result_eq : ∀ {qid query}, s.queries[qid]? = some query →
    query.result = ((credited s.history qid).map Prod.snd).foldl (· + ·) 0
  reports_eq : ∀ {qid query}, s.queries[qid]? = some query →
    reports s.history qid =
      if ∀ tid < query.allTasks.length, credits s.history (qid, tid) = 1 then 1 else 0

/-- Where the books are kept, every task is accounted for. -/
theorem accounted_of_inv (hi : Inv s []) : Accounted s where
  one_place h := (hi.books.query h).one_place
  one_holder {qid query} h tid hin := by
    have htotal := hi.held (qid, tid)
    rw [inProgress_iff.2 ⟨query, h, hin⟩, List.count_nil, Nat.add_zero, Bool.toNat_true] at htotal
    obtain ⟨wid, info, hwid, hone, hrest⟩ := SortedMap.exists_of_total_eq_one _ htotal
    exact ⟨wid, info, hwid, hone, fun wid' info' hwid' hmem =>
      hrest wid' info' hwid' (List.count_pos_iff.2 hmem).ne'⟩
  result_eq h := (hi.books.query h).result_eq
  reports_eq {qid query} h := by
    have hq := hi.books.query h
    rw [hq.reports_eq]
    split
    · next hall =>
      rw [hq.isSolved_iff.2 hall]
      rfl
    · next hnot =>
      rw [Bool.eq_false_iff.2 fun hsolved => hnot (hq.isSolved_iff.1 hsolved)]
      rfl

end

section
variable [Zero D] [Add D] [Sub D] [Mul D] [Div D] [NatCast D]

/-- New queries get their own books, as long as their ids fit. -/
theorem inv_addQueries {queries : List (D × D)} (hi : Inv s [])
    (hlen : s.queries.length + queries.length ≤ 2 ^ 32) : Inv (queries.foldl addQuery s) [] := by
  induction queries generalizing s with
  | nil => exact hi
  | cons ab queries ih =>
    rw [List.length_cons] at hlen
    refine ih (s := s.addQuery ab) ?_ ?_
    · have hid : s.queries.length % 2 ^ 32 = s.queries.length := Nat.mod_eq_of_lt (by omega)
      unfold addQuery
      rw [hid]
      exact ⟨hi.books.add _ _, hi.held.add _ _ _, hi.linked, hi.split.add _ _ _⟩
    · rw [addQuery, List.length_append, List.length_singleton]
      omega

/-- Every step that is not ambiguous keeps the books. -/
theorem inv_step {op : Op D} (ht : Tidy s) (hi : Inv s []) (hop : s.ambiguous op = false)
    (h : step s op = some s') : Inv s' [] := by
  cases op with
  | getResult a b =>
    cases h
    exact ⟨hi.books, hi.held, hi.linked, hi.split⟩
  | discovered wid =>
    cases h
    exact ⟨hi.books, hi.held, hi.linked, hi.split⟩
  | start =>
    obtain ⟨-, rfl⟩ := start_cases h
    refine inv_addQueries ⟨hi.books, hi.held, hi.linked, hi.split⟩ ?_
    exact Nat.not_lt.1 (of_decide_eq_false hop)
  | join fd => exact inv_join ht hi h
  | assign => exact inv_assign hi h
  | look p => exact inv_look ht hi hop h
  | sleep =>
    rw [sleep_cases h]
    exact ⟨hi.books, hi.held, hi.linked, hi.split⟩

/-- A run without ambiguous steps keeps the books. -/
theorem inv_run {ops : List (Op D)} {maxWorkers : Nat}
    (hrun : Run.exec step ops (init maxWorkers) = some s)
    (havoids : Run.Avoids step ambiguous ops (init maxWorkers) = true) : Inv s [] := by
  refine (Run.exec_invariant (I := fun s => Tidy s ∧ Inv s []) (fun s op s' hs hop h => ?_)
    ⟨tidy_init maxWorkers, inv_init maxWorkers⟩ hrun havoids).2
  exact ⟨tidy_step op hs.1 h, inv_step hs.1 hs.2 hop h⟩

/-- Every slice is accounted for in every state of a run without ambiguous steps. -/
theorem accounted {ops : List (Op D)} {maxWorkers : Nat}
    (hrun : Run.exec step ops (init maxWorkers) = some s)
    (havoids : Run.Avoids step ambiguous ops (init maxWorkers) = true) : Accounted s :=
  accounted_of_inv (inv_run hrun havoids)

end

/-- A task is sent to a worker and its answer credited. -/
def oneReply : List (Op ℚ) :=
  [.discovered 7, .getResult 0 1, .start, .join 4, .assign, .look { canSend := some true }, .sleep,
    .start, .assign, .look { received := some (.reply 0 (1 / 200)) }]

/-- The first task of a query is credited, and all are accounted for. -/
theorem accounted_oneReply : ∃ s, Run.exec step oneReply (init 1) = some s ∧
    credits s.history (0, 0) = 1 ∧ Accounted s := by
  have hrun : (Run.exec step oneReply (init 1)).any
      (fun s => credits s.history (0, 0) == 1) = true := by decide +kernel
  obtain ⟨s, hs, hcredits⟩ := Run.exists_of_any hrun
  exact ⟨s, hs, beq_iff_eq.1 hcredits, accounted hs (by decide +kernel)⟩

/-- The worker 7 hangs up: its descriptor 4 is closed and stays in its slot. The worker 8 is
discovered, `socket` returns 4, and the removal of the worker 7 closes it. `socket` returns 4 once
more, for the worker 9: the task sent for the slot of the worker 8 goes to the worker 9, and its
answer erases the first task of the worker 9. -/
def sharedDescriptor : List (Op ℚ) :=
  [.discovered 7, .getResult 0 1, .start, .join 4, .assign, .look {}, .look {}, .sleep,
    .start, .assign, .look { hangUp := true }, .look {}, .sleep,
    .discovered 8, .start, .join 4, .assign, .look {}, .look {}, .sleep,
    .discovered 9, .getResult 0 1, .start, .join 4, .assign, .look {},
    .look { canSend := some true },
    .sleep,
    .start, .assign, .look { received := some (.reply 0 (1 / 200)) }]

/-- With a descriptor in two slots a task in progress ends up in no worker's list. -/
theorem not_accounted_of_shared :
    ∃ s, Run.exec step sharedDescriptor (init 2) = some s ∧ ¬ Accounted s := by
  have hrun : (Run.exec step sharedDescriptor (init 2)).any (fun s =>
      inProgress s.queries (1, 0) &&
        (s.knownWorkers.total fun info => info.assignedTasks.count (1, 0)) == 0) = true := by
    decide +kernel
  obtain ⟨s, hs, hlost⟩ := Run.exists_of_any hrun
  obtain ⟨hin, htotal⟩ := Bool.and_eq_true_iff.1 hlost
  refine ⟨s, hs, fun ha => ?_⟩
  obtain ⟨query, hquery, hin⟩ := inProgress_iff.1 hin
  obtain ⟨wid, info, hwid, hone, -⟩ := ha.one_holder hquery 0 hin
  have hzero := (SortedMap.total_eq_zero _).1 (beq_iff_eq.1 htotal) wid info hwid
  rw [hzero] at hone
  cases hone

end Leader

end ToFTDS.Integral
