import ToFTDS.Integral.Books
import ToFTDS.Integral.Messages
import ToFTDS.Lib.Run

/-!
# The byte stream between the leader and a worker

TCP keeps the order of the characters and nothing else: `recv` returns any number of them, up to the
size of the buffer. Both sides take what one call returns for one message (`worker.cpp:115` says
that they should not), and no message ends in a separator.

A chunk that begins with a whole message is read back if what follows it in the chunk does not add
to the number at its end, and only then (`TaskMessage.read_tid_iff`). As long as all chunks are of
this kind, but for those that the leader reads under ids that are not in progress, every interval is
evaluated and every value credited under the ids it belongs to (`messages_paired`).
-/

namespace ToFTDS.Integral

/-- What has happened on a connection: the messages of both sides, the characters that are on their
way, and what the two sides have made of those that have arrived. -/
structure Session (K : Type) where
  tasks : List (TaskMessage K) := []
  toWorker : List Char := []
  evaluated : List (TaskMessage K) := []
  results : List (ResultMessage K) := []
  toLeader : List Char := []
  credited : List (ResultMessage K) := []
  working : Bool := true

/-- The steps of the two sides, with what the system calls return: `send` the number of characters
that have been written, `recv` the number of those that have been read. The variables that are read
into have the values of `vars` before, and `inProgress` says what the leader's queries have in
progress. -/
inductive SessionOp (K : Type) where
  | send (task : TaskMessage K) (written : Nat)
  | work (bytes : Nat) (vars : TaskMessage K)
  | collect (bytes : Nat) (vars : ResultMessage K) (inProgress : BitVec 32 → BitVec 64 → Bool)

namespace Session

/-- The size of the buffers (`worker.cpp:110`, `leader.cpp:218`). -/
def maxDataBufSize : Nat := 1024

/-- `recv`: the first characters that have arrived, and those behind them. -/
def recv (bytes : Nat) (arrived : List Char) : Option (List Char × List Char) :=
  if 1 ≤ bytes ∧ bytes ≤ maxDataBufSize ∧ bytes ≤ arrived.length then some (arrived.splitAt bytes)
  else none

/-- The number of points (`worker.cpp:141`). -/
def points : Nat := 100

section
variable {K : Type} [Field K] [LinearOrder K] [FloorRing K]

/-- `EvaluateIntegral` of a task (`worker.cpp:140`). -/
def evaluate (task : TaskMessage K) : Except Failure (Evaluated K) :=
  evaluateIntegral (points + 1) task.a task.b points integrand

/-- A task is sent (`leader.cpp:290`). What is not written at once is not written at all. -/
def send (s : Session K) (task : TaskMessage K) (written : Nat) : Option (Session K) :=
  if 1 ≤ written ∧ written ≤ task.text.length then
    some { s with tasks := s.tasks ++ [task], toWorker := s.toWorker ++ task.text.take written }
  else none

/-- The worker's loop (`worker.cpp:109`). If `EvaluateIntegral` throws, the thread is at its end. -/
def work (s : Session K) (bytes : Nat) (vars : TaskMessage K) : Option (Session K) :=
  if s.working then
    (recv bytes s.toWorker).map fun chunk =>
      let task := TaskMessage.read vars chunk.1
      match evaluate task with
      | .error _ => { s with toWorker := chunk.2, working := false }
      | .ok evaluated =>
        let result :=
          { result := evaluated.result, qid := task.qid, tid := task.tid : ResultMessage K }
        { s with
          toWorker := chunk.2
          evaluated := s.evaluated ++ [task]
          results := s.results ++ [result]
          toLeader := s.toLeader ++ result.text }
  else none

/-- `POLLIN` (`leader.cpp:241`): a value is credited if its task is in progress. -/
def collect (s : Session K) (bytes : Nat) (vars : ResultMessage K)
    (inProgress : BitVec 32 → BitVec 64 → Bool) : Option (Session K) :=
  (recv bytes s.toLeader).map fun chunk =>
    let result := ResultMessage.read vars chunk.1
    if inProgress result.qid result.tid then
      { s with toLeader := chunk.2, credited := s.credited ++ [result] }
    else { s with toLeader := chunk.2 }

/-- One step. -/
def step (s : Session K) : SessionOp K → Option (Session K)
  | .send task written => s.send task written
  | .work bytes vars => s.work bytes vars
  | .collect bytes vars inProgress => s.collect bytes vars inProgress

/-- The result is the one of the task, under its ids. -/
def Answers (task : TaskMessage K) (m : ResultMessage K) : Prop :=
  ∃ evaluated, evaluate task = .ok evaluated ∧
    m = { result := evaluated.result, qid := task.qid, tid := task.tid }

/-- Every interval that has been evaluated was sent with these ids, and every value that has been
credited was computed for these ids, up to the digits that are written. -/
structure Paired (s : Session K) : Prop where
  evaluated : ∀ m ∈ s.evaluated, ∃ task ∈ s.tasks, m = task.rounded
  credited : ∀ m ∈ s.credited, ∃ task ∈ s.evaluated, ∃ result,
    Answers task result ∧ m = result.rounded

/-- A chunk that begins with the whole text of a message. What follows it does not begin with digits
that change the id at its end. -/
def beginsWith (chunk text : List Char) (tid : BitVec 64) : Bool :=
  text.isPrefixOf chunk && decide (KeepsNumber tid (chunk.drop text.length))

/-- The steps that receive a chunk of another kind, and on the leader's side credit it. -/
def cutsMessages (s : Session K) : SessionOp K → Bool
  | .send _ _ => false
  | .work bytes _ => !s.tasks.any fun m => beginsWith (s.toWorker.take bytes) m.text m.tid
  | .collect bytes vars inProgress =>
    let result := ResultMessage.read vars (s.toLeader.take bytes)
    inProgress result.qid result.tid &&
      !s.results.any fun m => beginsWith (s.toLeader.take bytes) m.text m.tid

end

/-- `recv` returns the first bytes that have arrived. -/
theorem recv_eq_some {bytes : Nat} {arrived : List Char} {chunk : List Char × List Char}
    (h : recv bytes arrived = some chunk) : chunk.1 = arrived.take bytes := by
  unfold recv at h
  split at h
  · cases h
    rw [List.splitAt_eq]
  · cases h

/-- A chunk begins with a text if the number at its end does not run on. -/
theorem beginsWith_iff {chunk text : List Char} {tid : BitVec 64} :
    beginsWith chunk text tid = true ↔ ∃ rest, chunk = text ++ rest ∧ KeepsNumber tid rest := by
  rw [beginsWith, Bool.and_eq_true, List.isPrefixOf_iff_prefix, decide_eq_true_eq]
  constructor
  · rintro ⟨⟨rest, rfl⟩, hkeeps⟩
    exact ⟨rest, rfl, by simpa using hkeeps⟩
  · rintro ⟨rest, rfl, hkeeps⟩
    exact ⟨⟨rest, rfl⟩, by simpa using hkeeps⟩

section
variable {K : Type} [Field K] [LinearOrder K] [FloorRing K] {s s' : Session K}

/-- The session is paired, and every result is the answer to a task that has been evaluated. -/
structure Inv (s : Session K) : Prop extends Paired s where
  results : ∀ m ∈ s.results, ∃ task ∈ s.evaluated, Answers task m

/-- Sending a task keeps the session paired. -/
theorem inv_send (hi : Inv s) {task : TaskMessage K} {written : Nat}
    (h : s.send task written = some s') : Inv s' := by
  unfold send at h
  split at h
  · cases h
    refine ⟨⟨fun m hm => ?_, hi.credited⟩, hi.results⟩
    obtain ⟨task', htask', rfl⟩ := hi.evaluated m hm
    exact ⟨task', List.mem_append_left _ htask', rfl⟩
  · cases h

variable [IsStrictOrderedRing K]

/-- A chunk that begins with a task is read as this task. -/
theorem read_of_not_cutsMessages {bytes : Nat} {vars : TaskMessage K}
    {chunk : List Char × List Char}
    (hchunk : recv bytes s.toWorker = some chunk) (h : s.cutsMessages (.work bytes vars) = false) :
    ∃ task ∈ s.tasks, TaskMessage.read vars chunk.1 = task.rounded := by
  obtain ⟨task, htask, hbegins⟩ :=
    List.any_eq_true.1 (by simpa only [cutsMessages, Bool.not_eq_false'] using h)
  obtain ⟨rest, hrest, hkeeps⟩ := beginsWith_iff.1 hbegins
  refine ⟨task, htask, ?_⟩
  rw [recv_eq_some hchunk, hrest, task.read_text vars hkeeps]

/-- A chunk that is credited begins with a result, and is read as this result. -/
theorem readResult_of_not_cutsMessages {bytes : Nat} {vars : ResultMessage K}
    {inProgress : BitVec 32 → BitVec 64 → Bool} {chunk : List Char × List Char}
    (hchunk : recv bytes s.toLeader = some chunk)
    (hin : inProgress (ResultMessage.read vars chunk.1).qid (ResultMessage.read vars chunk.1).tid)
    (h : s.cutsMessages (.collect bytes vars inProgress) = false) :
    ∃ result ∈ s.results, ResultMessage.read vars chunk.1 = result.rounded := by
  rw [recv_eq_some hchunk] at hin ⊢
  simp only [cutsMessages, hin, Bool.true_and, Bool.not_eq_false'] at h
  obtain ⟨result, hresult, hbegins⟩ := List.any_eq_true.1 h
  obtain ⟨rest, hrest, hkeeps⟩ := beginsWith_iff.1 hbegins
  refine ⟨result, hresult, ?_⟩
  rw [hrest, result.read_text vars hkeeps]

/-- A worker that reads a whole message keeps the session paired. -/
theorem inv_work (hi : Inv s) {bytes : Nat} {vars : TaskMessage K}
    (hop : s.cutsMessages (.work bytes vars) = false) (h : s.work bytes vars = some s') :
    Inv s' := by
  unfold work at h
  split at h
  · obtain ⟨chunk, hchunk, hs'⟩ := Option.map_eq_some_iff.1 h
    obtain ⟨task, htask, hread⟩ := read_of_not_cutsMessages hchunk hop
    dsimp only at hs'
    rw [hread] at hs'
    split at hs'
    · cases hs'
      exact ⟨⟨hi.evaluated, hi.credited⟩, hi.results⟩
    · next evaluated hevaluate =>
      cases hs'
      have hold : ∀ {m : TaskMessage K}, m ∈ s.evaluated → m ∈ s.evaluated ++ [task.rounded] :=
        fun hm => List.mem_append_left _ hm
      refine ⟨⟨fun m hm => ?_, fun m hm => ?_⟩, fun m hm => ?_⟩
      · rcases List.mem_append.1 hm with hm | hm
        · exact hi.evaluated m hm
        · exact ⟨task, htask, List.mem_singleton.1 hm⟩
      · obtain ⟨task', htask', result, hanswers, rfl⟩ := hi.credited m hm
        exact ⟨task', hold htask', result, hanswers, rfl⟩
      · rcases List.mem_append.1 hm with hm | hm
        · obtain ⟨task', htask', hanswers⟩ := hi.results m hm
          exact ⟨task', hold htask', hanswers⟩
        · have hnew : task.rounded ∈ s.evaluated ++ [task.rounded] := by simp
          exact ⟨task.rounded, hnew, evaluated, hevaluate, List.mem_singleton.1 hm⟩
  · cases h

/-- A leader that reads a whole reply keeps the session paired. -/
theorem inv_collect (hi : Inv s) {bytes : Nat} {vars : ResultMessage K}
    {inProgress : BitVec 32 → BitVec 64 → Bool}
    (hop : s.cutsMessages (.collect bytes vars inProgress) = false)
    (h : s.collect bytes vars inProgress = some s') : Inv s' := by
  unfold collect at h
  obtain ⟨chunk, hchunk, hs'⟩ := Option.map_eq_some_iff.1 h
  dsimp only at hs'
  split at hs'
  · next hin =>
    obtain ⟨result, hresult, hread⟩ := readResult_of_not_cutsMessages hchunk hin hop
    cases hs'
    refine ⟨⟨hi.evaluated, fun m hm => ?_⟩, hi.results⟩
    rcases List.mem_append.1 hm with hm | hm
    · exact hi.credited m hm
    · obtain ⟨task, htask, hanswers⟩ := hi.results result hresult
      exact ⟨task, htask, result, hanswers, (List.mem_singleton.1 hm).trans hread⟩
  · cases hs'
    exact ⟨⟨hi.evaluated, hi.credited⟩, hi.results⟩

/-- Every step that cuts no message keeps the session paired. -/
theorem inv_step (op : SessionOp K) (hi : Inv s) (hop : s.cutsMessages op = false)
    (h : s.step op = some s') : Inv s' := by
  cases op with
  | send task written => exact inv_send hi h
  | work bytes vars => exact inv_work hi hop h
  | collect bytes vars inProgress => exact inv_collect hi hop h

end

end Session

end ToFTDS.Integral
