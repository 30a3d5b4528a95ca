import Mathlib.Analysis.SpecialFunctions.Integrals.Basic
import ToFTDS.Integral.Accounting
import ToFTDS.Integral.Stream

/-!
# What a solved query has come to

The books say that the values credited to a query add up to its result. Here they are followed to
where they come from: a query is one of the calls of `GetResult`, in their order, cut into slices
(`asked_exec`), and each value was read from a reply to one of these slices. So if the replies carry
what the workers make of their slices (`misreports`), the result of a query that is reported as
solved is the sum of the workers' answers to the ten slices of its interval (`solved_eq_sum`).
-/

namespace ToFTDS.Integral

namespace Leader

variable {D : Type} {s s' t : Leader D} {wid : WorkerId} {fd : Fd}

/-! ## Replies and what they are for -/

/-- The task of a query. -/
def task? (s : Leader D) (task : QueryId × TaskId) : Option (Task D) :=
  s.queries[task.1]?.bind fun query => query.allTasks[task.2]?

/-- The task that a reply read in this step is for, and the value in it. -/
def reply? (s : Leader D) : Op D → Option ((QueryId × TaskId) × D)
  | .look p =>
    match s.position, p.received with
    | .polling i _, some (.reply k value) =>
      (s.workerFds[i]?.bind id).bind fun fd => (s.sockets fd).bind fun conn =>
        conn.sent[k]?.map fun task => (task, value)
    | _, _ => none
  | _ => none

/-- The step reads a reply with a value that is not the answer to its task. -/
def misreports [DecidableEq D] (answer : QueryId × TaskId → Task D → Option D) (s : Leader D)
    (op : Op D) : Bool :=
  match s.reply? op with
  | some (task, value) => decide ((s.task? task).bind (answer task) ≠ some value)
  | none => false

/-- The tasks stay what they are, and nothing is credited but what `reply` is for. -/
structure Keeps (reply : Option ((QueryId × TaskId) × D)) (s s' : Leader D) : Prop where
  slices : s'.queries.map QueryInfo.allTasks = s.queries.map QueryInfo.allTasks
  newTasks : s'.newTasks = s.newTasks
  credited : ∀ {qid tid value}, .credited qid tid value ∈ s'.history →
    .credited qid tid value ∈ s.history ∨ reply = some ((qid, tid), value)

namespace Keeps

variable {reply : Option ((QueryId × TaskId) × D)}

/-- Nothing is credited by doing nothing. -/
theorem refl (s : Leader D) : Keeps reply s s := ⟨rfl, rfl, .inl⟩

/-- What two changes keep is kept by both in a row. -/
theorem trans (h : Keeps reply s t) (h' : Keeps reply t s') : Keeps reply s s' where
  slices := h'.slices.trans h.slices
  newTasks := h'.newTasks.trans h.newTasks
  credited hmem := (h'.credited hmem).elim h.credited .inr

/-- What credits nothing credits at most the reply. -/
theorem weaken (h : Keeps none s s') : Keeps reply s s' :=
  ⟨h.slices, h.newTasks, fun hmem => (h.credited hmem).imp id nofun⟩

/-- Other fields change, and an event happens that credits nothing. -/
theorem event {e : Event D} (he : ∀ qid tid value, e ≠ .credited qid tid value)
    (hq : s'.queries = s.queries) (hn : s'.newTasks = s.newTasks)
    (hh : s'.history = s.history ++ [e]) : Keeps none s s' := by
  refine ⟨by rw [hq], hn, fun {qid tid value} hmem => .inl ?_⟩
  rw [hh, List.mem_append, List.mem_singleton] at hmem
  exact hmem.resolve_right fun heq => he qid tid value heq.symm

/-- A change to neither queries nor history credits nothing. -/
theorem same (hq : s'.queries = s.queries) (hn : s'.newTasks = s.newTasks)
    (hh : s'.history = s.history) : Keeps none s s' :=
  ⟨by rw [hq], hn, fun hmem => .inl (hh ▸ hmem)⟩

end Keeps

/-- A change that keeps the tasks of a query keeps those of all queries. -/
theorem map_allTasks_modify {f : QueryInfo D → QueryInfo D}
    (hf : ∀ query, (f query).allTasks = query.allTasks) (queries : List (QueryInfo D))
    (qid : QueryId) :
    (queries.modify qid f).map QueryInfo.allTasks = queries.map QueryInfo.allTasks := by
  refine List.ext_getElem? fun i => ?_
  simp only [List.getElem?_map, List.getElem?_modify]
  split
  · rw [Option.map_eq_map, Option.map_map]
    exact congrArg (Option.map · _) (funext hf)
  · rw [id_map']

/-- Dropping a worker credits nothing. -/
theorem keeps_drop (fd : Fd) (wid : WorkerId) : Keeps none s (s.drop fd wid) :=
  .event (by simp) rfl rfl rfl

/-- A worker that joins is credited nothing. -/
theorem keeps_join (h : s.join fd = some s') : Keeps none s s' := by
  obtain ⟨wid, upd, u, -, ⟨rfl, -⟩ | ⟨-, ⟨rfl, -⟩ | ⟨-, -, rfl⟩⟩⟩ := join_cases h
  · exact .same rfl rfl rfl
  · exact .same rfl rfl rfl
  · exact .event (by simp) rfl rfl rfl

/-- Removing workers credits nothing. -/
theorem keeps_removeWorkers : Keeps none s s.removeWorkers.1 := by
  refine List.foldlRecOn (motive := fun st : Leader D × List (QueryId × TaskId) =>
    Keeps none s st.1) _ _ (.same rfl rfl rfl) fun st hst wid _ => ?_
  rcases removeWorker_cases st wid with heq | ⟨info, fd, -, heq⟩
  · rw [heq]
    exact hst
  · rw [heq]
    exact hst.trans (.event (by simp) rfl rfl rfl)

/-- Returning tasks credits nothing. -/
theorem keeps_returnTasks (tasks : List (QueryId × TaskId)) :
    Keeps none s (tasks.foldl returnTask s) := by
  refine List.foldlRecOn (motive := fun t => Keeps none s t) _ _ (.refl s) fun t ht task _ => ?_
  exact ht.trans ⟨map_allTasks_modify (f := fun query => query.returnTask task.2) (fun _ => rfl)
    t.queries task.1, rfl, .inl⟩

/-- Handing out tasks credits nothing. -/
theorem keeps_reassign (tasks : List (QueryId × TaskId)) :
    Keeps none s (s.reassign tasks).1 := by
  refine List.foldlRecOn (motive := fun st : Leader D × SortedSet (Nat ×ₗ WorkerId) =>
    Keeps none s st.1) _ _ ⟨?_, rfl, .inl⟩ fun st hst task _ => ?_
  · rw [List.map_map]
    refine congrArg (List.map · _) (funext fun query => ?_)
    rw [Function.comp_apply, QueryInfo.swapTasks]
    split <;> rfl
  · unfold assignTask
    split
    · exact hst
    · exact hst.trans (.same rfl rfl rfl)

/-- An assignment credits nothing. -/
theorem keeps_assign (h : s.assign = some s') : Keeps none s s' := by
  obtain ⟨u, -, ⟨-, rfl⟩ | ⟨-, n, rfl⟩⟩ := assign_cases h
  · exact (keeps_removeWorkers.trans (keeps_returnTasks _)).trans (.same rfl rfl rfl)
  · exact (keeps_removeWorkers.trans (keeps_reassign _)).trans (.same rfl rfl rfl)

/-- A reply credits its own value. -/
theorem keeps_credit [Add D] (qid : QueryId) (tid : TaskId) (value : D) :
    Keeps (some ((qid, tid), value)) s (s.credit wid qid tid value) := by
  have hslices := map_allTasks_modify (f := fun query => query.credit tid value) (fun _ => rfl)
    s.queries qid
  unfold credit
  dsimp only
  split
  · refine ⟨hslices, rfl, fun {qid' tid' value'} hmem => ?_⟩
    simpa [emit, modifyQuery, modifyWorker, eq_comm, and_assoc] using hmem
  · refine ⟨hslices, rfl, fun {qid' tid' value'} hmem => ?_⟩
    simpa [emit, modifyQuery, modifyWorker, eq_comm, and_assoc] using hmem

/-- A reply that is read answers a task that was sent on the connection. -/
theorem keeps_reply [Add D] {k : Nat} {value : D}
    (h : s.receive fd wid (.reply k value) = some s') :
    ∃ conn task, s.sockets fd = some conn ∧ conn.sent[k]? = some task ∧
      Keeps (some (task, value)) s s' := by
  simp only [receive] at h
  split at h
  · cases h
  · next conn hconn =>
    split at h
    · cases h
    · next qid tid hk =>
      refine ⟨conn, (qid, tid), hconn, hk, ?_⟩
      have hanswered : Keeps none s (s.answered fd conn k) := .same rfl rfl rfl
      split at h
      · cases h
      · split at h
        · split at h
          · cases h
          · cases h
            exact hanswered.weaken.trans (keeps_credit qid tid value)
        · cases h
          exact hanswered.weaken

/-- Sending a task credits nothing. -/
theorem keeps_sendTask {ok : Bool} (h : s.sendTask fd wid ok = some s') : Keeps none s s' := by
  have hsame : Keeps none s (s.modifyWorker wid id) := .same rfl rfl rfl
  unfold sendTask at h
  dsimp only at h
  split at h
  · cases h
    exact hsame
  · split at h
    · cases h
    · split at h
      · cases h
        exact hsame.trans (keeps_drop fd wid)
      · cases h
      · cases h
        exact hsame.trans (.event (by simp) rfl rfl rfl)

/-- Looking at a slot credits nothing but the reply that is read there. -/
theorem keeps_look [Add D] {p : Polled D} (h : s.look p = some s') :
    Keeps (s.reply? (.look p)) s s' := by
  obtain ⟨i, n, hpos, ⟨-, rfl⟩ | ⟨fd, t, u, hfd, ht, hu, hs'⟩⟩ := look_cases h
  · exact Keeps.weaken (.same rfl rfl rfl)
  · have hst : Keeps none s t := by
      rcases ht with ⟨-, rfl⟩ | ⟨-, rfl⟩
      · exact .same rfl rfl rfl
      · exact .event (by simp) rfl rfl rfl
    have htu : Keeps (s.reply? (.look p)) t u := by
      rcases hu with rfl | ⟨r, hr, hu⟩
      · exact .refl _
      · cases r with
        | failed =>
          cases hu
          exact (keeps_drop fd _).weaken
        | reply k value =>
          obtain ⟨conn, task, hconn, hk, hkeeps⟩ := keeps_reply hu
          -- a connection that was just closed has no reply
          have hsockets : s.sockets fd = some conn := by
            rcases ht with ⟨-, rfl⟩ | ⟨-, rfl⟩
            · exact hconn
            · simp [drop, close] at hconn
          have hreply : s.reply? (.look p) = some (task, value) := by
            simp [reply?, hpos, hr, hfd, hsockets, hk]
          rwa [hreply]
    have hus : Keeps none u s' := by
      rcases hs' with rfl | ⟨ok, -, hok⟩
      · exact .refl _
      · exact keeps_sendTask hok
    exact (hst.weaken.trans htu).trans hus.weaken

/-! ## The calls of `GetResult` -/

/-- The calls of `GetResult`, in order. -/
def requests (ops : List (Op D)) : List (D × D) :=
  ops.filterMap fun
    | .getResult a b => some (a, b)
    | _ => none

section
variable [Zero D] [Add D] [Sub D] [Mul D] [Div D] [NatCast D]

/-- The slices of the interval from `a` to `b`. -/
def cut (ab : D × D) : List (Task D) := (newQuery 0 ab.1 ab.2).allTasks

/-- The slices of the queries, and of those that are still in `new_tasks_`. -/
def asked (s : Leader D) : List (List (Task D)) :=
  s.queries.map QueryInfo.allTasks ++ s.newTasks.map cut

/-- What keeps the tasks asks for nothing new. -/
theorem asked_keeps {reply : Option ((QueryId × TaskId) × D)} (h : Keeps reply s s') :
    s'.asked = s.asked := by
  rw [asked, asked, h.slices, h.newTasks]

/-- The queued calls become queries in their order. -/
theorem foldl_addQuery_queries (l : List (D × D)) (s : Leader D) :
    (l.foldl addQuery s).queries.map QueryInfo.allTasks =
      s.queries.map QueryInfo.allTasks ++ l.map cut := by
  induction l generalizing s with
  | nil => simp
  | cons ab l ih =>
    rw [List.foldl_cons, ih, addQuery, List.map_append, List.append_assoc]
    rfl

/-- A round starts with the queued calls as queries. -/
theorem start_frame (h : s.start = some s') :
    s'.queries.map QueryInfo.allTasks = s.queries.map QueryInfo.allTasks ++ s.newTasks.map cut ∧
      s'.newTasks = [] ∧ s'.history = s.history := by
  obtain ⟨-, rfl⟩ := start_cases h
  refine ⟨foldl_addQuery_queries _ _, ?_, ?_⟩ <;> rw [foldl_queries (f := addQuery) fun _ _ => rfl]

/-- Every query is a call of `GetResult`, and the calls come in their order. -/
theorem asked_step {op : Op D} (h : step s op = some s') :
    s'.asked = s.asked ++ (requests [op]).map cut := by
  have hnil : ∀ {s' : Leader D}, s'.asked = s.asked → s'.asked = s.asked ++ [].map cut := by simp
  cases op with
  | getResult a b =>
    cases h
    simp [asked, requests]
  | discovered wid =>
    cases h
    exact hnil rfl
  | start =>
    obtain ⟨hslices, hnew, -⟩ := start_frame h
    refine hnil ?_
    rw [asked, asked, hslices, hnew, List.map_nil, List.append_nil]
  | join fd => exact hnil (asked_keeps (keeps_join h))
  | assign => exact hnil (asked_keeps (keeps_assign h))
  | look p => exact hnil (asked_keeps (keeps_look h))
  | sleep =>
    rw [sleep_cases h]
    exact hnil rfl

/-- After a run the slices asked for are those of its calls. -/
theorem asked_exec {ops : List (Op D)} (h : Run.exec step ops s = some s') :
    s'.asked = s.asked ++ (requests ops).map cut := by
  induction ops generalizing s with
  | nil =>
    cases h
    simp [requests]
  | cons op ops ih =>
    obtain ⟨t, ht, h⟩ := Run.exec_cons_eq.1 h
    rw [ih h, asked_step ht, List.append_assoc, ← List.map_append, requests, requests,
      ← List.filterMap_append]
    rfl

/-- A query has the slices of the call of `GetResult` that it stands for. -/
theorem allTasks_eq_cut {ops : List (Op D)} {maxWorkers : Nat}
    (hrun : Run.exec step ops (init maxWorkers) = some s) {qid : QueryId} {query : QueryInfo D}
    (hquery : s.queries[qid]? = some query) {ab : D × D} (hab : (requests ops)[qid]? = some ab) :
    query.allTasks = cut ab := by
  have hasked := congrArg (·[qid]?) (asked_exec hrun)
  have hlt : qid < (s.queries.map QueryInfo.allTasks).length := by
    rw [List.length_map]
    exact (List.getElem?_eq_some_iff.1 hquery).1
  simpa [asked, init, List.getElem?_append_left hlt, hquery, hab] using hasked

end

/-! ## Where the values come from -/

/-- What is credited for a task is the answer to it. -/
def Answered (answer : QueryId × TaskId → Task D → Option D) (s : Leader D) : Prop :=
  ∀ {qid tid value}, .credited qid tid value ∈ s.history →
    (s.task? (qid, tid)).bind (answer (qid, tid)) = some value

/-- The task of a query is read off the slices. -/
theorem task?_eq (s : Leader D) (task : QueryId × TaskId) :
    s.task? task = (s.queries.map QueryInfo.allTasks)[task.1]?.bind (·[task.2]?) := by
  rw [task?, List.getElem?_map, Option.bind_map]
  rfl

variable {answer : QueryId × TaskId → Task D → Option D}

section
variable [DecidableEq D]

/-- The credits stay answers in a step that reads none but answers. -/
theorem answered_keeps (ha : Answered answer s) {op : Op D} (hop : s.misreports answer op = false)
    (h : Keeps (s.reply? op) s s') : Answered answer s' := by
  intro qid tid value hmem
  rw [task?_eq, h.slices, ← task?_eq]
  rcases h.credited hmem with hold | hreply
  · exact ha hold
  · rw [misreports, hreply] at hop
    simpa using hop

/-- Every step that does not misreport keeps the credits answers. -/
theorem answered_step [Zero D] [Add D] [Sub D] [Mul D] [Div D] [NatCast D] {op : Op D}
    (ha : Answered answer s) (hop : s.misreports answer op = false) (h : step s op = some s') :
    Answered answer s' := by
  cases op with
  | getResult a b =>
    cases h
    exact ha
  | discovered wid =>
    cases h
    exact ha
  | start =>
    obtain ⟨hslices, -, hhistory⟩ := start_frame h
    intro qid tid value hmem
    have hold := ha (hhistory ▸ hmem)
    rw [task?_eq] at hold ⊢
    obtain ⟨task, htask, hanswer⟩ := Option.bind_eq_some_iff.1 hold
    obtain ⟨tasks, htasks, htid⟩ := Option.bind_eq_some_iff.1 htask
    rw [hslices, List.getElem?_append_left (List.getElem?_eq_some_iff.1 htasks).1, htasks,
      Option.bind_some, htid, Option.bind_some, hanswer]
  | join fd => exact answered_keeps ha hop (keeps_join h).weaken
  | assign => exact answered_keeps ha hop (keeps_assign h).weaken
  | look p => exact answered_keeps ha hop (keeps_look h)
  | sleep =>
    rw [sleep_cases h]
    exact ha

end

/-! ## Solved queries -/

/-- A credit of the query is an event of the history. -/
theorem credited_of_mem {history : List (Event D)} {qid : QueryId} {e : TaskId × D}
    (he : e ∈ credited history qid) : .credited qid e.1 e.2 ∈ history := by
  obtain ⟨event, hmem, hcredit⟩ := List.mem_filterMap.1 he
  cases event with
  | credited id tid value =>
    simp only [Event.credit?] at hcredit
    split at hcredit
    · next heq =>
      cases hcredit
      exact heq ▸ hmem
    · cases hcredit
  | _ => cases hcredit

/-- Of a solved query each task has been credited once. -/
theorem credited_perm [Zero D] [Add D] (hi : Inv s []) {qid : QueryId}
    (hsolved : .solved qid ∈ s.history) : ∃ query, s.queries[qid]? = some query ∧
      ((credited s.history qid).map Prod.fst).Perm (List.range query.allTasks.length) := by
  have hreports : 0 < reports s.history qid :=
    List.countP_pos_iff.2 ⟨_, hsolved, by simp [Event.reports]⟩
  have hlt : qid < s.queries.length := by
    by_contra hle
    rw [(hi.books.fresh (Nat.not_lt.1 hle)).2] at hreports
    cases hreports
  have hquery := List.getElem?_eq_getElem hlt
  have hbooks := hi.books.query hquery
  refine ⟨_, hquery, List.perm_iff_count.2 fun tid => ?_⟩
  have hdone := (hbooks.isSolved_iff).1 (by
    rw [hbooks.reports_eq] at hreports
    cases hs : s.queries[qid].isSolved
    · rw [hs] at hreports
      cases hreports
    · rfl)
  change credits s.history (qid, tid) = _
  rw [List.nodup_range.count]
  split
  · next hmem => exact hdone tid (List.mem_range.1 hmem)
  · next hmem =>
    have hone := hbooks.one_place tid
    rw [if_neg fun h => hmem (List.mem_range.2 h)] at hone
    omega

/-- The result of a solved query is the sum of the answers to its tasks. -/
theorem solved_eq_sum [AddCommMonoid D] (hi : Inv s []) (ha : Answered answer s) {qid : QueryId}
    (hsolved : .solved qid ∈ s.history) : ∃ query, s.queries[qid]? = some query ∧
      ∃ value : TaskId → D,
        (∀ tid task, query.allTasks[tid]? = some task →
          answer (qid, tid) task = some (value tid)) ∧
        query.result = ((List.range query.allTasks.length).map value).sum := by
  obtain ⟨query, hquery, hperm⟩ := credited_perm hi hsolved
  have hnodup := hperm.nodup_iff.2 List.nodup_range
  obtain ⟨value, hvalue⟩ : ∃ value : TaskId → D, ∀ e ∈ credited s.history qid, value e.1 = e.2 := by
    refine ⟨fun tid => (((credited s.history qid).find? (·.1 = tid)).map Prod.snd).getD 0,
      fun e he => ?_⟩
    obtain ⟨e', he'⟩ := Option.isSome_iff_exists.1
      (List.find?_isSome (p := fun e' => decide (e'.1 = e.1)).2 ⟨e, he, by simp⟩)
    have heq : e' = e := List.inj_on_of_nodup_map hnodup (List.mem_of_find?_eq_some he') he
      (by simpa using List.find?_some he')
    dsimp only
    rw [he', heq]
    rfl
  refine ⟨query, hquery, value, fun tid task htask => ?_, ?_⟩
  · have hmem : tid ∈ (credited s.history qid).map Prod.fst :=
      hperm.mem_iff.2 (List.mem_range.2 (List.getElem?_eq_some_iff.1 htask).1)
    obtain ⟨e, he, rfl⟩ := List.mem_map.1 hmem
    have hanswer := ha (credited_of_mem he)
    rw [task?, hquery, Option.bind_some, htask, Option.bind_some] at hanswer
    rw [hanswer, hvalue e he]
  · have hvalues : (credited s.history qid).map Prod.snd =
        ((credited s.history qid).map Prod.fst).map value := by
      rw [List.map_map]
      exact List.map_congr_left fun e he => (hvalue e he).symm
    rw [(hi.books.query hquery).result_eq, hvalues, ← List.sum_eq_foldl]
    exact (hperm.map value).sum_eq

/-! ## Exact replies -/

section
variable {K : Type} [Field K] [LinearOrder K]

/-- What `EvaluateIntegral` returns to a worker for its task. -/
def computed (id : QueryId × TaskId) (task : Task K) : Option K :=
  (Session.evaluate (TaskMessage.ofTask id.1 id.2 task)).toOption.map Evaluated.result

variable [IsStrictOrderedRing K]

/-- The answer to a task that is not empty is the trapezoid under the integrand. -/
theorem computed_eq_some {id : QueryId × TaskId} {task : Task K} {value : K}
    (h : computed id task = some value) :
    task.a < task.b ∧ value = trapezoid integrand task.a task.b := by
  by_cases hab : task.a < task.b
  · refine ⟨hab, ?_⟩
    rw [computed, Session.evaluate, integrand, TaskMessage.ofTask,
      evaluateIntegral_linear hab (by decide) (Nat.lt_succ_self _)] at h
    exact (Option.some.inj h).symm
  · have hthrow : evaluateIntegral (Session.points + 1) task.a task.b Session.points integrand =
        .error .ensure := evaluateIntegral_eq_ensure_iff.2 hab
    rw [computed, Session.evaluate, TaskMessage.ofTask, hthrow] at h
    cases h

omit [LinearOrder K] [IsStrictOrderedRing K] in
/-- The slices lie between neighbouring borders. -/
theorem cut_getElem? (ab : K × K) {i : Nat} (hi : i < slices) :
    (cut ab)[i]? = some
      { a := border ab.1 ab.2 slices i, b := border ab.1 ab.2 slices (i + 1) } := by
  rw [cut, allTasks_newQuery, List.getElem?_map, List.getElem?_range hi]
  rfl

omit [LinearOrder K] [IsStrictOrderedRing K] in
/-- There are ten slices. -/
theorem length_cut (ab : K × K) : (cut ab).length = slices := by
  rw [cut, allTasks_newQuery, List.length_map, List.length_range]

omit [IsStrictOrderedRing K] in
/-- The result of a solved query is the sum of the answers to the ten parts of its interval. -/
theorem solved_sum {answer : QueryId × TaskId → Task K → Option K} {ops : List (Op K)}
    {s : Leader K} {maxWorkers : Nat} (hrun : Run.exec step ops (init maxWorkers) = some s)
    (havoids : Run.Avoids step (fun s op => s.ambiguous op || s.misreports answer op) ops
      (init maxWorkers) = true) {qid : QueryId} {a b : K} (hab : (requests ops)[qid]? = some (a, b))
    (hsolved : .solved qid ∈ s.history) : ∃ query, s.queries[qid]? = some query ∧
      ∃ value : TaskId → K,
        (∀ i < slices, answer (qid, i)
          { a := border a b slices i, b := border a b slices (i + 1) } = some (value i)) ∧
        query.result = ∑ i ∈ Finset.range slices, value i := by
  have hi : Inv s [] :=
    inv_run hrun (Run.avoids_mono (fun s op h => by rw [h, Bool.true_or]) havoids)
  have htruth : Run.Avoids step (misreports answer) ops (init maxWorkers) = true :=
    Run.avoids_mono (fun s op h => by rw [h, Bool.or_true]) havoids
  have ha : Answered answer s :=
    Run.exec_invariant (I := Answered answer) (fun s op s' hs hop h => answered_step hs hop h)
      (fun hmem => by cases hmem) hrun htruth
  obtain ⟨query, hquery, value, hvalue, hresult⟩ := solved_eq_sum hi ha hsolved
  have htasks := allTasks_eq_cut hrun hquery hab
  rw [htasks, length_cut] at hresult
  refine ⟨query, hquery, value, fun i hi => hvalue i _ ?_, hresult⟩
  rw [htasks, cut_getElem? _ hi]

/-- An interval with a slice that is not empty is not empty. -/
theorem lt_of_border_lt {a b : K} (h : border a b slices 0 < border a b slices 1) : a < b := by
  by_contra hle
  have hstep : (b - a) / (slices : K) ≤ 0 :=
    div_nonpos_of_nonpos_of_nonneg (by linarith) (Nat.cast_nonneg _)
  have hnext := border_succ a b slices 0
  rw [zero_add] at hnext
  linarith

/-- The last border of the slices is the end of the interval. -/
theorem border_slices (a b : K) : border a b slices slices = b :=
  border_self a b (by rw [slices]; norm_num)

/-- With exact replies the result of a solved query is the integral over its interval. -/
theorem result_computed {ops : List (Op K)} {s : Leader K} {maxWorkers : Nat}
    (hrun : Run.exec step ops (init maxWorkers) = some s)
    (havoids : Run.Avoids step (fun s op => s.ambiguous op || s.misreports computed op) ops
      (init maxWorkers) = true) {qid : QueryId} {a b : K} (hab : (requests ops)[qid]? = some (a, b))
    (hsolved : .solved qid ∈ s.history) : a < b ∧ ∃ query, s.queries[qid]? = some query ∧
      query.result = trapezoid integrand a b := by
  obtain ⟨query, hquery, value, hvalue, hresult⟩ := solved_sum hrun havoids hab hsolved
  refine ⟨lt_of_border_lt (computed_eq_some (hvalue 0 (by decide))).1, query, hquery, ?_⟩
  have hsum : ∑ i ∈ Finset.range slices, value i =
      ((List.range slices).map fun i =>
        trapezoid integrand (border a b slices i) (border a b slices (i + 1))).sum :=
    Finset.sum_congr rfl fun i hi => (computed_eq_some (hvalue i (Finset.mem_range.1 hi))).2
  rw [hresult, hsum, integrand, sum_trapezoid, border_zero, border_slices]

end

/-- The integral of a linear function is the trapezoid under it. -/
theorem integral_linear (k c a b : ℝ) :
    ∫ x in a..b, linear k c x = trapezoid (linear k c) a b := by
  simp only [linear]
  rw [intervalIntegral.integral_add (Continuous.intervalIntegrable (by fun_prop) _ _)
      intervalIntegrable_const, intervalIntegral.integral_const_mul, integral_id,
    intervalIntegral.integral_const, trapezoid, linear, linear, smul_eq_mul]
  ring

/-- **Solved queries are integrated.** In a run in which every value received is the one that
`EvaluateIntegral` returns for its task in exact arithmetic, the result of each query that is
reported as solved is the integral from `a` to `b`, for the call of `GetResult` that it stands
for, and `a` is less than `b`. -/
theorem solved_queries_integrated {ops : List (Op ℚ)} {s : Leader ℚ} {maxWorkers : Nat}
    (hrun : Run.exec step ops (init maxWorkers) = some s)
    (havoids : Run.Avoids step (fun s op => s.ambiguous op || s.misreports computed op) ops
      (init maxWorkers) = true) :
    ∀ {qid : QueryId} {a b : ℚ}, (requests ops)[qid]? = some (a, b) → .solved qid ∈ s.history →
      a < b ∧ ∃ query, s.queries[qid]? = some query ∧
        (query.result : ℝ) = ∫ x in (a : ℝ)..b, (2 * x + 5) := by
  intro qid a b hab hsolved
  obtain ⟨hlt, query, hquery, hresult⟩ := result_computed hrun havoids hab hsolved
  refine ⟨hlt, query, hquery, ?_⟩
  have hreal := integral_linear 2 5 a b
  simp only [linear] at hreal
  rw [hreal, hresult, integrand, trapezoid, trapezoid]
  simp only [linear]
  push_cast
  ring

/-- A worker's answer to the first message on a connection, or the next. -/
def nextAnswer (value : ℚ) : List (Op ℚ) :=
  [.sleep, .start, .assign, .look { received := some (.reply 0 value), canSend := some true }]

/-- The query from 5 to 15, and the answers to its slices. -/
def answeredRun : List (Op ℚ) :=
  [.discovered 7, .getResult 5 15, .start, .join 4, .assign, .look { canSend := some true }] ++
    [16, 18, 20, 22, 24, 26, 28, 30, 32, 34].flatMap nextAnswer

/-- A report that a search finds is in the history. -/
theorem mem_of_reports {D : Type} {qid : QueryId} {history : List (Event D)}
    (h : history.any (Event.reports qid) = true) : .solved qid ∈ history := by
  obtain ⟨e, hmem, hreports⟩ := List.any_eq_true.1 h
  obtain rfl : e = .solved qid := by
    cases e with
    | solved qid' => simpa [Event.reports] using hreports
    | _ => cases hreports
  exact hmem

/-- A query from 5 to 15 gets its integral. -/
theorem solved_queries_integrated_answeredRun :
    ∃ s, Run.exec step answeredRun (init 1) = some s ∧ ∃ query, s.queries[0]? = some query ∧
      (query.result : ℝ) = ∫ x in (5 : ℝ)..15, (2 * x + 5) := by
  have hrun : (Run.exec step answeredRun (init 1)).any
      (fun s => s.history.any (Event.reports 0)) = true := by decide +kernel
  obtain ⟨s, hs, hsolved⟩ := Run.exists_of_any hrun
  have hmem := mem_of_reports hsolved
  have hres := solved_queries_integrated hs (by decide +kernel) (a := 5) (b := 15) (by rfl) hmem
  obtain ⟨-, query, hquery, hresult⟩ := hres
  exact ⟨s, hs, query, hquery, by exact_mod_cast hresult⟩

/-! ## Replies as text -/

section
variable {K : Type} [Field K] [LinearOrder K] [FloorRing K]

/-- What a worker sends back for a chunk (`worker.cpp:131`), as the only thing in it. -/
def answerText (vars : TaskMessage K) (chunk : List Char) : Except Failure (List Char) := do
  let task := TaskMessage.read vars chunk
  let evaluated ← Session.evaluate task
  let result : ResultMessage K :=
    { result := evaluated.result, qid := task.qid, tid := task.tid }
  return result.text

/-- What the leader reads from a worker's answer to the text of a task. The variables that the two
sides read into have the values of `vars` before. -/
def written (vars : QueryId × TaskId → TaskMessage K × ResultMessage K) (id : QueryId × TaskId)
    (task : Task K) : Option K :=
  (answerText (vars id).1 (TaskMessage.ofTask id.1 id.2 task).text).toOption.map fun chunk =>
    (ResultMessage.read (vars id).2 chunk).result

variable [IsStrictOrderedRing K]

/-- A worker that answers has read the written interval, and the leader reads the written integral
over it, with the ids of the task. -/
theorem read_answerText (vars : TaskMessage K) (vars' : ResultMessage K) (m : TaskMessage K)
    {chunk : List Char} (h : answerText vars m.text = .ok chunk) :
    roundSig precision m.a < roundSig precision m.b ∧ ResultMessage.read vars' chunk =
      { result := roundSig precision
          (trapezoid integrand (roundSig precision m.a) (roundSig precision m.b))
        qid := m.qid
        tid := m.tid } := by
  have hnil : KeepsNumber m.tid [] := fun c hc => by cases hc
  have hread : TaskMessage.read vars m.text = m.rounded := by simpa using m.read_text vars hnil
  rw [answerText, hread] at h
  by_cases hab : m.rounded.a < m.rounded.b
  · refine ⟨hab, ?_⟩
    rw [Session.evaluate, integrand, evaluateIntegral_linear hab (by decide) (Nat.lt_succ_self _)]
      at h
    cases h
    have hresult := ResultMessage.read_text
      { result := trapezoid integrand m.rounded.a m.rounded.b, qid := m.qid, tid := m.tid } vars'
      hnil
    rwa [List.append_nil] at hresult
  · have hthrow : evaluateIntegral (Session.points + 1) m.rounded.a m.rounded.b Session.points
        integrand = .error .ensure := evaluateIntegral_eq_ensure_iff.2 hab
    rw [Session.evaluate, hthrow] at h
    cases h

/-- The answer in the text of a worker is that for the rounded borders, rounded. -/
theorem written_eq_some {vars : QueryId × TaskId → TaskMessage K × ResultMessage K}
    {id : QueryId × TaskId} {task : Task K} {value : K} (h : written vars id task = some value) :
    roundSig precision task.a < roundSig precision task.b ∧ value = roundSig precision
      (trapezoid integrand (roundSig precision task.a) (roundSig precision task.b)) := by
  cases ha : answerText (vars id).1 (TaskMessage.ofTask id.1 id.2 task).text with
  | error e =>
    rw [written, ha] at h
    cases h
  | ok chunk =>
    obtain ⟨hlt, hread⟩ := read_answerText (vars id).1 (vars id).2 _ ha
    refine ⟨hlt, ?_⟩
    rw [written, ha] at h
    exact (Option.some.inj h).symm.trans (congrArg ResultMessage.result hread)

omit [FloorRing K] in
/-- The integrals over the parts of an interval are not larger, in sum, than the length of the
interval times the larger value of the function at its ends. -/
theorem sum_abs_trapezoid_le {p : Nat → K} {n : Nat} (hp : ∀ i < n, p i < p (i + 1)) :
    ∑ i ∈ Finset.range n, |trapezoid integrand (p i) (p (i + 1))| ≤
      max |integrand (p 0)| |integrand (p n)| * (p n - p 0) := by
  have hmono : ∀ i ≤ n, p 0 ≤ p i ∧ p i ≤ p n := by
    have hle : ∀ i j, i ≤ j → j ≤ n → p i ≤ p j := fun i j hij hj => by
      induction j, hij using Nat.le_induction with
      | base => exact le_rfl
      | succ j hij ih => exact (ih (by omega)).trans (hp j (by omega)).le
    exact fun i hi => ⟨hle 0 i (Nat.zero_le i) hi, hle i n hi le_rfl⟩
  have hbound : ∀ i ≤ n, |integrand (p i)| ≤ max |integrand (p 0)| |integrand (p n)| := by
    intro i hi
    obtain ⟨hlow, hhigh⟩ := hmono i hi
    refine abs_le_max_abs_abs ?_ ?_ <;> simp only [integrand, linear] <;> linarith
  rw [← Finset.sum_range_sub, Finset.mul_sum]
  refine Finset.sum_le_sum fun i hi => ?_
  have hin := Finset.mem_range.1 hi
  have hpart : 0 ≤ p (i + 1) - p i := (sub_pos.2 (hp i hin)).le
  calc |trapezoid integrand (p i) (p (i + 1))|
      = |integrand (p i) + integrand (p (i + 1))| / 2 * (p (i + 1) - p i) := by
        rw [trapezoid, mul_div_right_comm, abs_mul, abs_of_nonneg hpart, abs_div,
          abs_of_pos (two_pos : (0 : K) < 2)]
    _ ≤ (|integrand (p i)| + |integrand (p (i + 1))|) / 2 * (p (i + 1) - p i) := by
        gcongr
        exact abs_add_le _ _
    _ ≤ max |integrand (p 0)| |integrand (p n)| * (p (i + 1) - p i) := by
        gcongr
        linarith [hbound i hin.le, hbound (i + 1) hin]

/-- **Solved queries are integrated up to the digits that are written.** In a run in which every
value received is what the leader reads from a worker's answer to the text of its task, the result
of each query that is reported as solved is the integral over the interval as it is written, up to
the digits that are lost when the ten answers are written. -/
theorem solved_queries_rounded {vars : QueryId × TaskId → TaskMessage K × ResultMessage K}
    {ops : List (Op K)} {s : Leader K} {maxWorkers : Nat}
    (hrun : Run.exec step ops (init maxWorkers) = some s)
    (havoids : Run.Avoids step (fun s op => s.ambiguous op || s.misreports (written vars) op) ops
      (init maxWorkers) = true) :
    ∀ {qid : QueryId} {a b : K}, (requests ops)[qid]? = some (a, b) → .solved qid ∈ s.history →
      roundSig precision a < roundSig precision b ∧
        ∃ query, s.queries[qid]? = some query ∧
          |query.result - trapezoid integrand (roundSig precision a) (roundSig precision b)| ≤
            max |integrand (roundSig precision a)| |integrand (roundSig precision b)| *
              (roundSig precision b - roundSig precision a) / (2 * 10 ^ precision) := by
  intro qid a b hab hsolved
  obtain ⟨query, hquery, value, hvalue, hresult⟩ := solved_sum hrun havoids hab hsolved
  -- the written borders, and the exact integrals between them
  obtain ⟨p, hp⟩ : ∃ p : Nat → K, ∀ i, p i = roundSig precision (border a b slices i) :=
    ⟨_, fun _ => rfl⟩
  have hends : p 0 = roundSig precision a ∧ p slices = roundSig precision b := by
    rw [hp, hp, border_zero, border_slices]
    exact ⟨rfl, rfl⟩
  have hparts : ∀ i < slices, p i < p (i + 1) ∧
      value i = roundSig precision (trapezoid integrand (p i) (p (i + 1))) := fun i hi => by
    rw [hp, hp]
    exact written_eq_some (hvalue i hi)
  have hlt : p 0 < p slices := by
    have hmono : ∀ n ≤ slices, 0 < n → p 0 < p n := fun n hn hpos => by
      induction n with
      | zero => cases hpos
      | succ n ih =>
        rcases Nat.eq_zero_or_pos n with rfl | hpos
        · exact (hparts 0 hn).1
        · exact (ih (Nat.le_of_succ_le hn) hpos).trans (hparts n hn).1
    exact hmono slices le_rfl (by decide)
  have hsum : ∑ i ∈ Finset.range slices, trapezoid integrand (p i) (p (i + 1)) =
      trapezoid integrand (p 0) (p slices) := sum_trapezoid 2 5 p slices
  have herror : |query.result - trapezoid integrand (p 0) (p slices)| ≤
      max |integrand (p 0)| |integrand (p slices)| * (p slices - p 0) / (2 * 10 ^ precision) := by
    rw [hresult, ← hsum, ← Finset.sum_sub_distrib]
    refine (Finset.abs_sum_le_sum_abs _ _).trans ?_
    refine le_trans ?_ (div_le_div_of_nonneg_right
      (sum_abs_trapezoid_le fun i hi => (hparts i hi).1) (by positivity))
    rw [Finset.sum_div]
    refine Finset.sum_le_sum fun i hi => ?_
    rw [(hparts i (Finset.mem_range.1 hi)).2]
    exact abs_roundSig_sub_le precision _
  rw [hends.1, hends.2] at herror hlt
  exact ⟨hlt, query, hquery, herror⟩

end

/-- The variables of the two sides as they may be before a message is read. -/
def noVars (_ : QueryId × TaskId) : TaskMessage ℚ × ResultMessage ℚ :=
  ({ a := 0, b := 0, qid := 0, tid := 0 }, { result := 0, qid := 0, tid := 0 })

/-- The query from 1000000 to 1000100, and the answers to its slices as they are written. The
integral over the first slice is 20000150, of which `2.00002e+07` is written. -/
def roundedRun : List (Op ℚ) :=
  [.discovered 7, .getResult 1000000 1000100, .start, .join 4, .assign,
    .look { canSend := some true }] ++
    ((List.range slices).map fun i => (20000200 + 200 * i : ℚ)).flatMap nextAnswer

/-- All ten answers are rounded up, by 500 in sum. -/
theorem solved_queries_rounded_roundedRun :
    ∃ s, Run.exec step roundedRun (init 1) = some s ∧ ∃ query, s.queries[0]? = some query ∧
      query.result = 200011000 ∧
      trapezoid integrand (roundSig precision 1000000) (roundSig precision 1000100) =
        (200010500 : ℚ) ∧
      |query.result -
          trapezoid integrand (roundSig precision 1000000) (roundSig precision 1000100)| ≤
        max |integrand (roundSig precision (1000000 : ℚ))|
            |integrand (roundSig precision 1000100)| *
          (roundSig precision 1000100 - roundSig precision 1000000) / (2 * 10 ^ precision) := by
  have hrun : (Run.exec step roundedRun (init 1)).any (fun s =>
      s.history.any (Event.reports 0) &&
        s.queries[0]?.any fun query => query.result == 200011000) = true := by decide +kernel
  obtain ⟨s, hs, htest⟩ := Run.exists_of_any hrun
  obtain ⟨hsolved, hresult⟩ := Bool.and_eq_true_iff.1 htest
  have havoids : Run.Avoids step (fun s op => s.ambiguous op || s.misreports (written noVars) op)
      roundedRun (init 1) = true := by decide +kernel
  obtain ⟨-, query, hquery, herror⟩ :=
    solved_queries_rounded hs havoids (by rfl) (mem_of_reports hsolved)
  rw [hquery] at hresult
  exact ⟨s, hs, query, hquery, beq_iff_eq.1 hresult, by decide +kernel, herror⟩

end Leader

end ToFTDS.Integral
