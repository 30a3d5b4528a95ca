import Mathlib.Data.List.Count
import Mathlib.Data.List.Induction
import ToFTDS.Integral.Slots

/-!
# The books of the leader

Three things are known of the tasks of all queries: where each is, and what the history says of it
(`Books`); which worker has it (`Held`, with the tasks that no worker has for the moment); and that
a task whose answer may still come is at the head of its worker's list or credited already
(`Linked`). Each is a relation between the parts of the leader that it is about, with a lemma for
each change to them.
-/

namespace ToFTDS.Integral

variable {D : Type}

/-! ## What the history says -/

/-- The task and the value that the event credits to the query. -/
def Event.credit? (qid : QueryId) : Event D → Option (TaskId × D)
  | .credited id tid value => if id = qid then some (tid, value) else none
  | _ => none

/-- The event reports the query as solved. -/
def Event.reports (qid : QueryId) : Event D → Bool
  | .solved id => id = qid
  | _ => false

/-- The replies credited to the query, in order. -/
def credited (history : List (Event D)) (qid : QueryId) : List (TaskId × D) :=
  history.filterMap (Event.credit? qid)

/-- How often a reply for the task has been credited. -/
def credits (history : List (Event D)) (task : QueryId × TaskId) : Nat :=
  ((credited history task.1).map Prod.fst).count task.2

/-- How often the query has been reported as solved. -/
def reports (history : List (Event D)) (qid : QueryId) : Nat :=
  history.countP (Event.reports qid)

/-- Nothing is credited and nothing reported by an event. -/
def Event.Quiet (e : Event D) : Prop := ∀ qid, e.credit? qid = none ∧ e.reports qid = false

/-- The credits of a history are those of its parts. -/
theorem credited_append (h₁ h₂ : List (Event D)) (qid : QueryId) :
    credited (h₁ ++ h₂) qid = credited h₁ qid ++ credited h₂ qid := List.filterMap_append

/-- The reports of a history are those of its parts. -/
theorem reports_append (h₁ h₂ : List (Event D)) (qid : QueryId) :
    reports (h₁ ++ h₂) qid = reports h₁ qid + reports h₂ qid := List.countP_append

/-- A quiet event credits nothing. -/
theorem credited_quiet {e : Event D} (he : e.Quiet) (h : List (Event D)) (qid : QueryId) :
    credited (h ++ [e]) qid = credited h qid := by
  rw [credited_append, credited, credited, List.filterMap_cons_none (he qid).1, List.filterMap_nil,
    List.append_nil]

/-- A quiet event reports nothing. -/
theorem reports_quiet {e : Event D} (he : e.Quiet) (h : List (Event D)) (qid : QueryId) :
    reports (h ++ [e]) qid = reports h qid := by
  rw [reports_append, reports, reports, List.countP_cons_of_neg, List.countP_nil, Nat.add_zero]
  rw [(he qid).2]
  exact Bool.false_ne_true

/-- What the history gains when a value is credited. -/
theorem credited_credit (h : List (Event D)) (qid : QueryId) (tid : TaskId) (value : D)
    (solved : Bool) (qid' : QueryId) :
    credited (h ++ .credited qid tid value :: if solved then [.solved qid] else []) qid' =
      credited h qid' ++ if qid = qid' then [(tid, value)] else [] := by
  rw [credited_append]
  congr 1
  by_cases heq : qid = qid' <;> cases solved <;> simp [credited, Event.credit?, heq]

/-- A credited reply reports its query if that is what solves it. -/
theorem reports_credit (h : List (Event D)) (qid : QueryId) (tid : TaskId) (value : D)
    (solved : Bool) (qid' : QueryId) :
    reports (h ++ .credited qid tid value :: if solved then [.solved qid] else []) qid' =
      reports h qid' + if qid = qid' then solved.toNat else 0 := by
  rw [reports_append]
  congr 1
  by_cases heq : qid = qid' <;> cases solved <;> simp [reports, Event.reports, heq]

/-- A credited reply is one credit of its task. -/
theorem credits_credit (h : List (Event D)) (qid : QueryId) (tid : TaskId) (value : D)
    (solved : Bool) (task : QueryId × TaskId) :
    credits (h ++ .credited qid tid value :: if solved then [.solved qid] else []) task =
      credits h task + if (qid, tid) = task then 1 else 0 := by
  obtain ⟨qid', tid'⟩ := task
  rw [credits, credited_credit, List.map_append, List.count_append, credits]
  congr 1
  by_cases hq : qid = qid' <;> by_cases ht : tid = tid' <;> simp [hq, ht]

/-! ## The books of a query -/

namespace QueryInfo

/-- A query is solved when no task is in progress or to do. -/
theorem isSolved_iff {query : QueryInfo D} : query.isSolved = true ↔
    ∀ tid, query.tasksInProgress.contains tid = false ∧ query.tasksToDo.contains tid = false := by
  rw [isSolved, Bool.and_eq_true, SortedSet.isEmpty_entries, SortedSet.isEmpty_entries,
    forall_and]

/-- A query with a task left is not solved. -/
theorem isSolved_eq_false {query : QueryInfo D} {tid : TaskId}
    (h : query.tasksInProgress.contains tid = true ∨ query.tasksToDo.contains tid = true) :
    query.isSolved = false := by
  refine Bool.eq_false_iff.2 fun hsolved => ?_
  obtain ⟨h₁, h₂⟩ := isSolved_iff.1 hsolved tid
  rw [h₁, h₂] at h
  exact h.elim Bool.false_ne_true Bool.false_ne_true

end QueryInfo

/-- What the history says of a query is what its fields say. -/
structure QueryBooks [Zero D] [Add D] (history : List (Event D)) (qid : QueryId)
    (query : QueryInfo D) : Prop where
  id_eq : query.id = qid
  /-- A task is to do, in progress or credited, and only one of them, once. -/
  one_place : ∀ tid, (query.tasksToDo.contains tid).toNat +
    (query.tasksInProgress.contains tid).toNat + credits history (qid, tid) =
      if tid < query.allTasks.length then 1 else 0
  result_eq : query.result = ((credited history qid).map Prod.snd).foldl (· + ·) 0
  reports_eq : reports history qid = query.isSolved.toNat

namespace QueryBooks

variable [Zero D] [Add D] {history : List (Event D)} {qid : QueryId} {query : QueryInfo D}
  {tid : TaskId}

/-- A task in progress is not to do and not credited. -/
theorem of_inProgress (hq : QueryBooks history qid query)
    (hin : query.tasksInProgress.contains tid = true) :
    query.tasksToDo.contains tid = false ∧ credits history (qid, tid) = 0 := by
  have hone := hq.one_place tid
  rw [hin, Bool.toNat_true] at hone
  have hle : (if tid < query.allTasks.length then 1 else 0) ≤ 1 := by split <;> omega
  refine ⟨Bool.eq_false_iff.2 fun htodo => ?_, by omega⟩
  rw [htodo, Bool.toNat_true] at hone
  omega

/-- A query is solved when each of its tasks is credited. -/
theorem isSolved_iff (hq : QueryBooks history qid query) : query.isSolved = true ↔
    ∀ tid < query.allTasks.length, credits history (qid, tid) = 1 := by
  rw [QueryInfo.isSolved_iff]
  constructor
  · intro hempty tid hlt
    have hone := hq.one_place tid
    rw [(hempty tid).1, (hempty tid).2, if_pos hlt, Bool.toNat_false] at hone
    omega
  · intro hall tid
    have hone := hq.one_place tid
    have hnone : (query.tasksToDo.contains tid).toNat = 0 ∧
        (query.tasksInProgress.contains tid).toNat = 0 := by
      by_cases hlt : tid < query.allTasks.length
      · rw [hall tid hlt, if_pos hlt] at hone
        omega
      · rw [if_neg hlt] at hone
        omega
    exact ⟨Bool.toNat_eq_zero.1 hnone.2, Bool.toNat_eq_zero.1 hnone.1⟩

/-- Returning a task keeps the books of the query. -/
theorem returnTask (hq : QueryBooks history qid query)
    (hin : query.tasksInProgress.contains tid = true) :
    QueryBooks history qid (query.returnTask tid) := by
  refine ⟨hq.id_eq, fun tid' => ?_, hq.result_eq, ?_⟩
  · refine Eq.trans ?_ (hq.one_place tid')
    simp only [QueryInfo.returnTask, SortedSet.contains_add, SortedSet.contains_erase]
    rcases eq_or_ne tid' tid with rfl | heq
    · rw [hin, (hq.of_inProgress hin).1]
      simp
    · simp [heq]
  · have hto : (query.returnTask tid).tasksToDo.contains tid = true := by
      simp [QueryInfo.returnTask]
    rw [hq.reports_eq, QueryInfo.isSolved_eq_false (.inl hin),
      QueryInfo.isSolved_eq_false (.inr hto)]

/-- The swap keeps the books of the query. -/
theorem swapTasks (hq : QueryBooks history qid query) : QueryBooks history qid query.swapTasks := by
  unfold QueryInfo.swapTasks
  split
  · exact hq
  · refine ⟨hq.id_eq, fun tid => ?_, hq.result_eq, ?_⟩
    · refine Eq.trans ?_ (hq.one_place tid)
      dsimp only
      omega
    · rw [hq.reports_eq, QueryInfo.isSolved, QueryInfo.isSolved, Bool.and_comm]

/-- The history after a value has been credited. -/
theorem credit (hq : QueryBooks history qid query)
    (hin : query.tasksInProgress.contains tid = true) (value : D) :
    QueryBooks (history ++ .credited qid tid value ::
      if (query.credit tid value).isSolved then [.solved qid] else []) qid
      (query.credit tid value) := by
  obtain ⟨htodo, hcredits⟩ := hq.of_inProgress hin
  refine ⟨hq.id_eq, fun tid' => ?_, ?_, ?_⟩
  · refine Eq.trans ?_ (hq.one_place tid')
    rw [credits_credit]
    simp only [QueryInfo.credit, SortedSet.contains_erase, Prod.mk.injEq, true_and]
    rcases eq_or_ne tid' tid with rfl | heq
    · rw [hin, htodo, hcredits]
      simp
    · simp [heq, Ne.symm heq]
  · rw [credited_credit, if_pos rfl, List.map_append, List.foldl_append, ← hq.result_eq]
    rfl
  · rw [reports_credit, if_pos rfl, hq.reports_eq, QueryInfo.isSolved_eq_false (.inl hin)]
    exact Nat.zero_add _

/-- A new query has everything to do. -/
theorem new [Sub D] [Mul D] [Div D] [NatCast D] (hcredited : credited history qid = [])
    (hreports : reports history qid = 0) (a b : D) :
    QueryBooks history qid (Leader.newQuery qid a b) := by
  have htodo : ∀ tid, (Leader.newQuery qid a b).tasksToDo.contains tid =
      decide (tid < Leader.slices) := by
    intro tid
    rw [Leader.newQuery, SortedSet.contains_foldl_add, SortedSet.contains_empty, Bool.or_false]
    exact decide_eq_decide.2 List.mem_range
  refine ⟨rfl, fun tid => ?_, ?_, ?_⟩
  · rw [htodo, credits, hcredited, Leader.newQuery, List.length_map, List.length_range]
    by_cases hlt : tid < Leader.slices <;> simp [hlt]
  · rw [hcredited]
    rfl
  · have hzero : (Leader.newQuery qid a b).tasksToDo.contains 0 = true := (htodo 0).trans rfl
    rw [hreports, QueryInfo.isSolved_eq_false (.inr hzero)]
    rfl

end QueryBooks

/-! ## The books of all queries -/

/-- A query is the changed one or as it was. -/
theorem getElem?_modify_cases {queries : List (QueryInfo D)} {qid qid' : QueryId}
    {f : QueryInfo D → QueryInfo D}
    {query : QueryInfo D} (h : (queries.modify qid f)[qid']? = some query) :
    (qid = qid' ∧ ∃ query', queries[qid]? = some query' ∧ query = f query') ∨
      (qid ≠ qid' ∧ queries[qid']? = some query) := by
  rw [List.getElem?_modify] at h
  rcases eq_or_ne qid qid' with rfl | heq
  · simp only [if_true] at h
    obtain ⟨query', hquery', rfl⟩ := Option.map_eq_some_iff.1 h
    exact .inl ⟨rfl, query', hquery', rfl⟩
  · simp only [if_neg heq, id_map'] at h
    exact .inr ⟨heq, h⟩

/-- The books of every query, and none of what is not a query yet. -/
structure Books [Zero D] [Add D] (queries : List (QueryInfo D)) (history : List (Event D)) :
    Prop where
  query : ∀ {qid query}, queries[qid]? = some query → QueryBooks history qid query
  fresh : ∀ {qid}, queries.length ≤ qid → credited history qid = [] ∧ reports history qid = 0

namespace Books

variable [Zero D] [Add D] {queries : List (QueryInfo D)} {history : List (Event D)}

/-- Without queries there is nothing in the books. -/
theorem nil : Books ([] : List (QueryInfo D)) [] where
  query h := by cases h
  fresh _ := ⟨rfl, rfl⟩

/-- A quiet event keeps the books. -/
theorem quiet (hb : Books queries history) {e : Event D} (he : e.Quiet) :
    Books queries (history ++ [e]) := by
  refine ⟨fun {qid query} h => ?_, fun {qid} h => ?_⟩
  · obtain ⟨hid, hone, hresult, hreports⟩ := hb.query h
    refine ⟨hid, fun tid => ?_, by rw [credited_quiet he, hresult],
      by rw [reports_quiet he, hreports]⟩
    rw [credits, credited_quiet he]
    exact hone tid
  · rw [credited_quiet he, reports_quiet he]
    exact hb.fresh h

/-- A change to one query. -/
theorem modify (hb : Books queries history) {qid : QueryId} {f : QueryInfo D → QueryInfo D}
    (hf : ∀ query, queries[qid]? = some query → QueryBooks history qid (f query)) :
    Books (queries.modify qid f) history := by
  refine ⟨fun {qid' query} h => ?_, fun {qid'} h => hb.fresh (by rwa [List.length_modify] at h)⟩
  rcases getElem?_modify_cases h with ⟨rfl, query', hquery', rfl⟩ | ⟨-, hquery'⟩
  · exact hf query' hquery'
  · exact hb.query hquery'

/-- The swap keeps the books of all queries. -/
theorem swapTasks (hb : Books queries history) :
    Books (queries.map QueryInfo.swapTasks) history := by
  refine ⟨fun h => ?_, fun h => hb.fresh (by rwa [List.length_map] at h)⟩
  rw [List.getElem?_map] at h
  obtain ⟨query, hquery, rfl⟩ := Option.map_eq_some_iff.1 h
  exact (hb.query hquery).swapTasks

/-- A reply for a task in progress keeps the books, with its credit and a report if it is the last.
-/
theorem credit (hb : Books queries history) {qid : QueryId} {query : QueryInfo D}
    (hquery : queries[qid]? = some query) {tid : TaskId}
    (hin : query.tasksInProgress.contains tid = true) (value : D) :
    Books (queries.modify qid fun query => query.credit tid value)
      (history ++ .credited qid tid value ::
        if (query.credit tid value).isSolved then [.solved qid] else []) := by
  refine ⟨fun {qid' query'} h => ?_, fun {qid'} h => ?_⟩
  · rcases getElem?_modify_cases h with ⟨rfl, query'', hquery'', rfl⟩ | ⟨hne, hquery''⟩
    · rw [hquery] at hquery''
      cases hquery''
      exact (hb.query hquery).credit hin value
    · obtain ⟨hid, hone, hresult, hreports⟩ := hb.query hquery''
      refine ⟨hid, fun tid' => ?_, ?_, ?_⟩
      · rw [credits_credit, if_neg fun heq => hne (Prod.mk.inj heq).1]
        exact hone tid'
      · rw [credited_credit, if_neg hne, List.append_nil, hresult]
      · rw [reports_credit, if_neg hne, hreports]
        rfl
  · rw [List.length_modify] at h
    have hne : ¬ qid = qid' := by
      rintro rfl
      have := (List.getElem?_eq_some_iff.1 hquery).1
      omega
    rw [credited_credit, reports_credit, if_neg hne, if_neg hne, List.append_nil, Nat.add_zero]
    exact hb.fresh h

/-- A new query whose id is its position. -/
theorem add [Sub D] [Mul D] [Div D] [NatCast D] (hb : Books queries history) (a b : D) :
    Books (queries ++ [Leader.newQuery queries.length a b]) history := by
  refine ⟨fun {qid query} h => ?_, fun {qid} h => hb.fresh ?_⟩
  · rw [List.getElem?_append] at h
    split at h
    · exact hb.query h
    · next hle =>
      obtain ⟨hlt, rfl⟩ := List.getElem?_eq_some_iff.1 h
      have hqid : qid = queries.length :=
        Nat.le_antisymm (Nat.sub_eq_zero_iff_le.1 (Nat.lt_one_iff.1 hlt)) (Nat.not_lt.1 hle)
      subst hqid
      obtain ⟨hcredited, hreports⟩ := hb.fresh (Nat.le_refl queries.length)
      rw [List.getElem_singleton]
      exact .new hcredited hreports a b
  · rw [List.length_append] at h
    exact Nat.le_of_add_right_le h

end Books

/-! ## Who has a task -/

/-- The task is in progress. -/
def inProgress (queries : List (QueryInfo D)) (task : QueryId × TaskId) : Bool :=
  queries[task.1]?.any fun query => query.tasksInProgress.contains task.2

/-- The task is to do. -/
def isToDo (queries : List (QueryInfo D)) (task : QueryId × TaskId) : Bool :=
  queries[task.1]?.any fun query => query.tasksToDo.contains task.2

/-- A task in progress is in one known worker's list or loose, once, and no other task is. -/
def Held (known : SortedMap WorkerId WorkerInfo) (queries : List (QueryInfo D))
    (loose : List (QueryId × TaskId)) : Prop :=
  ∀ task, (known.total fun info => info.assignedTasks.count task) + loose.count task =
    (inProgress queries task).toNat

/-- No query has both tasks to do and tasks in progress. -/
def Split (queries : List (QueryInfo D)) : Prop :=
  ∀ query ∈ queries, (∀ tid, query.tasksToDo.contains tid = false) ∨
    ∀ tid, query.tasksInProgress.contains tid = false

/-- A task is in progress where its query says so. -/
theorem inProgress_iff {queries : List (QueryInfo D)} {task : QueryId × TaskId} :
    inProgress queries task = true ↔
      ∃ query, queries[task.1]? = some query ∧ query.tasksInProgress.contains task.2 = true := by
  rw [inProgress, Option.any_eq_true]

/-- A task leaves `tasks_in_progress`. -/
theorem inProgress_modify {f : QueryInfo D → QueryInfo D} {task : QueryId × TaskId}
    (hf : ∀ query, (f query).tasksInProgress = query.tasksInProgress.erase task.2)
    (queries : List (QueryInfo D)) (task' : QueryId × TaskId) :
    inProgress (queries.modify task.1 f) task' =
      (!decide (task' = task) && inProgress queries task') := by
  obtain ⟨qid, tid⟩ := task
  obtain ⟨qid', tid'⟩ := task'
  rw [inProgress, inProgress, List.getElem?_modify]
  cases queries[qid']? with
  | none => simp
  | some query =>
    rcases eq_or_ne qid qid' with rfl | heq
    · simp [hf]
    · simp [heq, Ne.symm heq]

/-- The list of what is to do has every task once. -/
theorem count_toDo {queries : List (QueryInfo D)}
    (hids : ∀ {qid : Nat} {query : QueryInfo D}, queries[qid]? = some query → query.id = qid)
    (task : QueryId × TaskId) :
    (queries.flatMap QueryInfo.toDo).count task = (isToDo queries task).toNat := by
  have hcount : ∀ query : QueryInfo D, query.toDo.count task =
      if query.id = task.1 then (query.tasksToDo.contains task.2).toNat else 0 := by
    intro query
    split
    · next heq =>
      have hinj : Function.Injective fun tid : TaskId => (query.id, tid) :=
        fun _ _ h => (Prod.mk.inj h).2
      rw [show task = (query.id, task.2) from Prod.ext heq.symm rfl, QueryInfo.toDo,
        List.count_map_of_injective _ _ hinj, SortedSet.count_toList]
      cases query.tasksToDo.contains task.2 <;> rfl
    · next hne =>
      refine List.count_eq_zero.2 fun hmem => hne ?_
      obtain ⟨tid, -, rfl⟩ := List.mem_map.1 hmem
      rfl
  induction queries using List.reverseRecOn with
  | nil => rfl
  | append_singleton queries query ih =>
    have hid : query.id = queries.length := hids (by rw [List.getElem?_concat_length])
    have hids' : ∀ {qid : Nat} {query' : QueryInfo D},
        queries[qid]? = some query' → query'.id = qid := fun h =>
      hids (by rw [List.getElem?_append_left (List.getElem?_eq_some_iff.1 h).1]; exact h)
    rw [List.flatMap_append, List.count_append, ih hids', List.flatMap_singleton, hcount, hid]
    simp only [isToDo]
    rcases lt_trichotomy task.1 queries.length with hlt | heq | hgt
    · rw [if_neg hlt.ne', List.getElem?_append_left hlt, Nat.add_zero]
    · rw [if_pos heq.symm, heq, List.getElem?_concat_length, List.getElem?_eq_none (Nat.le_refl _)]
      exact Nat.zero_add _
    · rw [if_neg hgt.ne, List.getElem?_eq_none hgt.le, List.getElem?_eq_none]
      · rfl
      · rw [List.length_append]
        exact hgt

namespace Held

variable {known : SortedMap WorkerId WorkerInfo} {queries : List (QueryInfo D)}
  {loose : List (QueryId × TaskId)} {wid : WorkerId} {info : WorkerInfo} {task : QueryId × TaskId}

/-- Nobody holds anything at the start. -/
theorem nil : Held ∅ ([] : List (QueryInfo D)) [] := fun _ => rfl

/-- Nobody holds a task of a new query. -/
theorem add [Zero D] [Add D] [Sub D] [Mul D] [Div D] [NatCast D] (hh : Held known queries loose)
    (id : QueryId) (a b : D) : Held known (queries ++ [Leader.newQuery id a b]) loose := by
  intro task
  rw [hh task, inProgress, inProgress]
  by_cases hlt : task.1 < queries.length
  · rw [List.getElem?_append_left hlt]
  · rw [List.getElem?_append_right (Nat.not_lt.1 hlt), List.getElem?_eq_none (Nat.not_lt.1 hlt)]
    cases task.1 - queries.length <;> rfl

/-- A worker that joins holds nothing. -/
theorem join (hh : Held known queries loose) (hnew : known.find? wid = none)
    (hinfo : info.assignedTasks = []) : Held (known.insert wid info) queries loose := by
  intro task
  rw [SortedMap.total_insert_of_none _ hnew, hinfo, List.count_nil, Nat.add_zero]
  exact hh task

/-- The tasks of a removed worker become loose. -/
theorem remove (hh : Held known queries loose) (hwid : known.find? wid = some info) :
    Held (known.erase wid) queries (loose ++ info.assignedTasks) := by
  intro task
  have := SortedMap.total_erase _ hwid fun info => info.assignedTasks.count task
  have := hh task
  rw [List.count_append]
  omega

/-- A loose task is in progress, and it is nowhere else. -/
theorem of_loose (hh : Held known queries (task :: loose)) : inProgress queries task = true ∧
    (known.total fun info => info.assignedTasks.count task) = 0 ∧ loose.count task = 0 := by
  have hcount := hh task
  rw [List.count_cons_self] at hcount
  cases hin : inProgress queries task with
  | false =>
    rw [hin, Bool.toNat_false] at hcount
    omega
  | true =>
    rw [hin, Bool.toNat_true] at hcount
    exact ⟨rfl, by omega, by omega⟩

/-- A loose task that is returned is no longer in progress. -/
theorem returnTask (hh : Held known queries (task :: loose)) :
    Held known (queries.modify task.1 fun query => query.returnTask task.2) loose := by
  intro task'
  rw [inProgress_modify fun _ => rfl]
  rcases eq_or_ne task' task with rfl | heq
  · rw [hh.of_loose.2.1, hh.of_loose.2.2]
    simp
  · have := hh task'
    rw [List.count_cons_of_ne (Ne.symm heq)] at this
    simp [heq, this]

/-- A loose task goes to a known worker. -/
theorem assign (hh : Held known queries (task :: loose)) (hwid : known.find? wid = some info)
    {info' : WorkerInfo} (hinfo : info'.assignedTasks = info.assignedTasks ++ [task]) :
    Held (known.insert wid info') queries loose := by
  intro task'
  have htotal := SortedMap.total_insert_of_some _ hwid info' fun info =>
    info.assignedTasks.count task'
  have hcount := hh task'
  rw [hinfo, List.count_append, List.count_singleton] at htotal
  rw [List.count_cons] at hcount
  omega

/-- The head of a worker's list is credited. -/
theorem credit (hh : Held known queries loose) (hwid : known.find? wid = some info)
    {info' : WorkerInfo} (hinfo : info.assignedTasks = task :: info'.assignedTasks)
    {f : QueryInfo D → QueryInfo D}
    (hf : ∀ query, (f query).tasksInProgress = query.tasksInProgress.erase task.2) :
    Held (known.insert wid info') (queries.modify task.1 f) loose := by
  intro task'
  have htotal := SortedMap.total_insert_of_some _ hwid info' fun info =>
    info.assignedTasks.count task'
  have hcount := hh task'
  rw [hinfo, List.count_cons] at htotal
  rw [inProgress_modify hf]
  rcases eq_or_ne task' task with rfl | heq
  · rw [beq_self_eq_true, if_pos rfl] at htotal
    have := Bool.toNat_le (inProgress queries task')
    rw [decide_eq_true rfl, Bool.not_true, Bool.false_and, Bool.toNat_false]
    omega
  · have hbeq : (task == task') = false := beq_false_of_ne (Ne.symm heq)
    rw [hbeq, if_neg Bool.false_ne_true] at htotal
    rw [decide_eq_false heq, Bool.not_false, Bool.true_and]
    omega

/-- What is to do becomes loose and is in progress from now on. -/
theorem swapTasks (hh : Held known queries loose) (hsplit : Split queries)
    (hids : ∀ {qid : Nat} {query : QueryInfo D}, queries[qid]? = some query → query.id = qid) :
    Held known (queries.map QueryInfo.swapTasks) (loose ++ queries.flatMap QueryInfo.toDo) := by
  intro task
  rw [List.count_append, count_toDo hids, ← Nat.add_assoc, hh task]
  simp only [inProgress, isToDo, List.getElem?_map]
  cases hquery : queries[task.1]? with
  | none => rfl
  | some query =>
    simp only [Option.map_some, Option.any_some, QueryInfo.swapTasks]
    split
    · next hempty =>
      rw [(SortedSet.isEmpty_entries _).1 hempty]
      rfl
    · next hne =>
      rcases hsplit query (List.mem_of_getElem? hquery) with hto | hin
      · exact absurd ((SortedSet.isEmpty_entries _).2 hto) hne
      · rw [hin, Bool.toNat_false, Nat.zero_add]

end Held

namespace Split

variable {queries : List (QueryInfo D)}

/-- A new query has nothing in progress. -/
theorem add [Zero D] [Add D] [Sub D] [Mul D] [Div D] [NatCast D] (hs : Split queries)
    (id : QueryId) (a b : D) : Split (queries ++ [Leader.newQuery id a b]) := by
  intro query hmem
  rcases List.mem_append.1 hmem with hmem | hmem
  · exact hs query hmem
  · rw [List.mem_singleton.1 hmem]
    exact .inr fun _ => rfl

/-- A credited reply does not mix the sets. -/
theorem credit [Add D] (hs : Split queries) (qid : QueryId) (tid : TaskId) (value : D) :
    Split (queries.modify qid fun query => query.credit tid value) := by
  intro query hmem
  obtain ⟨qid', h⟩ := List.mem_iff_getElem?.1 hmem
  rcases getElem?_modify_cases h with ⟨rfl, query', hquery', rfl⟩ | ⟨-, hquery'⟩
  · refine (hs query' (List.mem_of_getElem? hquery')).imp id fun hin tid' => ?_
    rw [QueryInfo.credit, SortedSet.contains_erase, hin, Bool.and_false]
  · exact hs query (List.mem_of_getElem? hquery')

/-- The swap does not mix the sets. -/
theorem swapTasks (hs : Split queries) : Split (queries.map QueryInfo.swapTasks) := by
  intro query' hmem
  obtain ⟨query, hquery, rfl⟩ := List.mem_map.1 hmem
  unfold QueryInfo.swapTasks
  split
  · exact hs query hquery
  · exact (hs query hquery).symm

/-- Without workers and without loose tasks nothing is in progress. -/
theorem of_held {known : SortedMap WorkerId WorkerInfo} (hh : Held known queries [])
    (hempty : known.entries.isEmpty = true) : Split queries := by
  intro query hmem
  obtain ⟨qid, hquery⟩ := List.mem_iff_getElem?.1 hmem
  refine .inr fun tid => Bool.eq_false_iff.2 fun hin => ?_
  have hcount := hh (qid, tid)
  rw [inProgress_iff.2 ⟨query, hquery, hin⟩, SortedMap.total, List.isEmpty_iff.1 hempty] at hcount
  cases hcount

end Split

/-! ## The tasks on the connections -/

/-- A task that was sent to a known worker and may still be answered is at the head of the worker's
list, or it is credited. -/
def Linked (known : SortedMap WorkerId WorkerInfo) (fds : List (Option Fd))
    (sockets : Fd → Option Connection) (history : List (Event D)) : Prop :=
  ∀ ⦃wid info fd conn task⦄, known.find? wid = some info →
    fds[info.positionInBuffer]? = some (some fd) → sockets fd = some conn → task ∈ conn.sent →
    info.assignedTasks.head? = some task ∨ 0 < credits history task

namespace Linked

variable {known : SortedMap WorkerId WorkerInfo} {fds : List (Option Fd)}
  {sockets : Fd → Option Connection} {history : List (Event D)} {wid : WorkerId}
  {info : WorkerInfo} {fd : Fd}

/-- Without known workers nothing has to be linked. -/
theorem empty (fds : List (Option Fd)) (sockets : Fd → Option Connection)
    (history : List (Event D)) : Linked ∅ fds sockets history := by
  intro _ _ _ _ _ h
  cases h

/-- A quiet event keeps the links. -/
theorem quiet (hl : Linked known fds sockets history) {e : Event D} (he : e.Quiet) :
    Linked known fds sockets (history ++ [e]) := by
  intro wid info fd conn task hwid hfd hconn hmem
  rw [credits, credited_quiet he]
  exact hl hwid hfd hconn hmem

/-- The connections carry no more than before. -/
theorem sockets_mono (hl : Linked known fds sockets history) {sockets' : Fd → Option Connection}
    (hs : ∀ {fd conn task}, sockets' fd = some conn → task ∈ conn.sent →
      ∃ conn', sockets fd = some conn' ∧ task ∈ conn'.sent) :
    Linked known fds sockets' history := by
  intro wid info fd conn task hwid hfd hconn hmem
  obtain ⟨conn', hconn', hmem'⟩ := hs hconn hmem
  exact hl hwid hfd hconn' hmem'

/-- One connection carries no more than before. -/
theorem update (hl : Linked known fds sockets history) {conn? : Option Connection}
    (hs : ∀ {conn task}, conn? = some conn → task ∈ conn.sent →
      ∃ conn', sockets fd = some conn' ∧ task ∈ conn'.sent) :
    Linked known fds (Function.update sockets fd conn?) history := by
  refine hl.sockets_mono fun {fd' conn task} hconn hmem => ?_
  rcases eq_or_ne fd' fd with rfl | heq
  · rw [Function.update_self] at hconn
    exact hs hconn hmem
  · rw [Function.update_of_ne heq] at hconn
    exact ⟨conn, hconn, hmem⟩

/-- A worker joins with a connection on which nothing was sent. -/
theorem join (hl : Linked known fds sockets history) (hslots : Slots fds known) {i : Nat}
    (hi : fds[i]? = some none) (hpos : info.positionInBuffer = i) {conn : Connection}
    (hsent : conn.sent = []) :
    Linked (known.insert wid info) (fds.set i (some fd))
      (Function.update sockets fd (some conn)) history := by
  have hl' : Linked known fds (Function.update sockets fd (some conn)) history := by
    refine hl.update fun {conn' task} hconn hmem => ?_
    cases hconn
    rw [hsent] at hmem
    cases hmem
  intro wid' info' fd' conn' task hwid hfd hconn hmem
  rw [SortedMap.find?_insert] at hwid
  split at hwid
  · cases hwid
    rw [hpos, List.getElem?_set_self (List.getElem?_eq_some_iff.1 hi).1] at hfd
    cases hfd
    rw [Function.update_self] at hconn
    cases hconn
    rw [hsent] at hmem
    cases hmem
  · obtain ⟨fd₀, hfd₀⟩ := hslots.opened hwid
    have hne : i ≠ info'.positionInBuffer := by
      rintro rfl
      rw [hi] at hfd₀
      cases hfd₀
    rw [List.getElem?_set_ne hne] at hfd
    exact hl' hwid hfd hconn hmem

/-- A worker leaves. -/
theorem remove (hl : Linked known fds sockets history) (i : Nat) :
    Linked (known.erase wid) (fds.set i none) sockets history := by
  intro wid' info' fd' conn' task hwid hfd hconn hmem
  rw [SortedMap.find?_erase] at hwid
  split at hwid
  · cases hwid
  · rw [List.getElem?_set] at hfd
    split at hfd
    · split at hfd <;> cases hfd
    · exact hl hwid hfd hconn hmem

/-- A worker's list changes, and what was at its head still is or is credited. -/
theorem modify (hl : Linked known fds sockets history) (hwid : known.find? wid = some info)
    {info' : WorkerInfo} (hpos : info'.positionInBuffer = info.positionInBuffer)
    {history' : List (Event D)} (hmono : ∀ task, credits history task ≤ credits history' task)
    (hhead : ∀ task, info.assignedTasks.head? = some task →
      info'.assignedTasks.head? = some task ∨ 0 < credits history' task) :
    Linked (known.insert wid info') fds sockets history' := by
  intro wid₁ info₁ fd₁ conn task hwid₁ hfd₁ hconn hmem
  rw [SortedMap.find?_insert] at hwid₁
  split at hwid₁
  · cases hwid₁
    rw [hpos] at hfd₁
    exact (hl hwid hfd₁ hconn hmem).elim (hhead task) fun h =>
      .inr (Nat.lt_of_lt_of_le h (hmono task))
  · exact (hl hwid₁ hfd₁ hconn hmem).imp id fun h => Nat.lt_of_lt_of_le h (hmono task)

/-- A worker's first task is sent on its connection, which is no other worker's. -/
theorem send (hl : Linked known fds sockets history) (hslots : Slots fds known)
    (hwid : known.find? wid = some info) {task : QueryId × TaskId}
    (hhead : info.assignedTasks.head? = some task) {conn : Connection}
    (hconn : sockets fd = some conn)
    (hown : ∀ j, fds[j]? = some (some fd) → j = info.positionInBuffer) :
    Linked known fds
      (Function.update sockets fd (some { conn with sent := conn.sent ++ [task] })) history := by
  intro wid₁ info₁ fd₁ conn₁ task₁ hwid₁ hfd₁ hconn₁ hmem
  rcases eq_or_ne fd₁ fd with rfl | heq
  · have hsame := hslots.eq_of_position_eq hwid₁ hwid (hown _ hfd₁)
    subst hsame
    rw [hwid] at hwid₁
    cases hwid₁
    rw [Function.update_self] at hconn₁
    cases hconn₁
    rcases List.mem_append.1 hmem with hmem | hmem
    · exact hl hwid hfd₁ hconn hmem
    · exact .inl (by rw [List.mem_singleton.1 hmem]; exact hhead)
  · rw [Function.update_of_ne heq] at hconn₁
    exact hl hwid₁ hfd₁ hconn₁ hmem

end Linked

end ToFTDS.Integral
