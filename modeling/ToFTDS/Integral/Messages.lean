import ToFTDS.Integral.Midpoint
import ToFTDS.Lib.Numerals

/-!
# The messages between the leader and a worker

A task is sent as the text of its interval and its ids, with spaces between them, and answered with
the text of the result and the ids. Both sides put a chunk that `recv` returns into a stream and
extract the numbers.

A message at the beginning of a chunk is read back up to the digits that a `double` is written with,
if the text behind it keeps the id at its end (`TaskMessage.read_text`, `ResultMessage.read_text`).
So a slice of a query reaches a worker with the ends that are written, and they are different
exactly if the borders are separated (`slices_arrive`).
-/

namespace ToFTDS.Integral

/-- `std::isspace` of the classic locale. -/
def isspace (c : Char) : Bool := c.toNat = 32 || (9 ≤ c.toNat && c.toNat ≤ 13)

/-- A digit or a sign is no white space. -/
theorem isspace_eq_false {c : Char} (hc : c.isDigit = true ∨ c = '-') : isspace c = false := by
  rcases hc with hc | rfl
  · simp only [Char.isDigit, Bool.and_eq_true, decide_eq_true_eq] at hc
    have h48 : 48 ≤ c.toNat := hc.1
    have h32 : c.toNat ≠ 32 := by omega
    have h13 : ¬ c.toNat ≤ 13 := by omega
    simp [isspace, h32, h13]
  · rfl

/-- A number ends at a space. -/
theorem ends_space (l : List Char) : Ends (' ' :: l) := by
  intro c hc
  obtain rfl : ' ' = c := by simpa using hc
  decide

/-- No digit follows a number that a space follows. -/
theorem keepsNumber_space {w : Nat} (n : BitVec w) (l : List Char) : KeepsNumber n (' ' :: l) := by
  intro c hc
  simp [takeDigits] at hc

/-! ## Writing and reading -/

section
variable {K : Type} [Field K] [LinearOrder K] [FloorRing K]

/-- A stream writes a `double` with six significant digits: these many after the first. -/
def precision : Nat := 5

/-- `oss << x`. -/
def printDouble (x : K) : List Char := (Written.general precision x).text

/-- `oss << n`. -/
def printUnsigned {w : Nat} (n : BitVec w) : List Char := Nat.toDigits 10 n.toNat

/-- `ss >> x`. -/
def readDouble {K : Type} [Field K] (old : K) (s : InStream) : K × InStream :=
  s.extractDouble isspace old

/-- `ss >> n`. -/
def readUnsigned {w : Nat} (old : BitVec w) (s : InStream) : BitVec w × InStream :=
  s.extractUnsigned isspace old

/-- What a worker is sent: an interval, `QueryId` and `TaskId`. -/
structure TaskMessage (K : Type) where
  a : K
  b : K
  qid : BitVec 32
  tid : BitVec 64
  deriving DecidableEq

/-- What a worker answers. -/
structure ResultMessage (K : Type) where
  result : K
  qid : BitVec 32
  tid : BitVec 64
  deriving DecidableEq

namespace TaskMessage

/-- The text of a task (`leader.cpp:284`). -/
def text (m : TaskMessage K) : List Char :=
  printDouble m.a ++ ' ' ::
    (printDouble m.b ++ ' ' :: (printUnsigned m.qid ++ ' ' :: printUnsigned m.tid))

/-- A chunk as the worker reads it (`worker.cpp:131`). The variables have the values of `vars`
before. -/
def read {K : Type} [Field K] (vars : TaskMessage K) (chunk : List Char) : TaskMessage K :=
  let a := readDouble vars.a { rest := chunk }
  let b := readDouble vars.b a.2
  let qid := readUnsigned vars.qid b.2
  let tid := readUnsigned vars.tid qid.2
  { a := a.1, b := b.1, qid := qid.1, tid := tid.1 }

/-- The message with the digits that are written. -/
def rounded (m : TaskMessage K) : TaskMessage K :=
  { m with a := roundSig precision m.a, b := roundSig precision m.b }

/-- The message for a task of the query. -/
def ofTask (qid : QueryId) (tid : TaskId) (task : Task K) : TaskMessage K where
  a := task.a
  b := task.b
  qid := BitVec.ofNat 32 qid
  tid := BitVec.ofNat 64 tid

end TaskMessage

namespace ResultMessage

/-- The text of a result (`worker.cpp:146`). -/
def text (m : ResultMessage K) : List Char :=
  printDouble m.result ++ ' ' :: (printUnsigned m.qid ++ ' ' :: printUnsigned m.tid)

/-- A chunk as the leader reads it (`leader.cpp:249`). The variables have the values of `vars`
before. -/
def read {K : Type} [Field K] (vars : ResultMessage K) (chunk : List Char) : ResultMessage K :=
  let result := readDouble vars.result { rest := chunk }
  let qid := readUnsigned vars.qid result.2
  let tid := readUnsigned vars.tid qid.2
  { result := result.1, qid := qid.1, tid := tid.1 }

/-- The message with the digits that are written. -/
def rounded (m : ResultMessage K) : ResultMessage K :=
  { m with result := roundSig precision m.result }

end ResultMessage

end

section
variable {K : Type} [Field K] [LinearOrder K] [IsStrictOrderedRing K] [FloorRing K]

/-- The gap between two numbers is white space. -/
theorem isspace_gap : ∀ c ∈ [' '], isspace c = true := by simp [isspace]

/-- The first number of a text is read back with the digits that are written. -/
theorem readDouble_first (x old : K) (l : List Char) :
    readDouble old { rest := printDouble x ++ ' ' :: l } =
      (roundSig precision x, { rest := ' ' :: l }) := by
  have hnone : ∀ c ∈ ([] : List Char), isspace c = true := by simp
  have h :=
    InStream.extractDouble_text (fun _ => isspace_eq_false) hnone (Written.general precision x)
    (ends_space l) old
  rwa [Written.value_general] at h

/-- The next number is read back over the space in front of it. -/
theorem readDouble_next (x old : K) (l : List Char) :
    readDouble old { rest := ' ' :: (printDouble x ++ ' ' :: l) } =
      (roundSig precision x, { rest := ' ' :: l }) := by
  have h := InStream.extractDouble_text (fun _ => isspace_eq_false) isspace_gap
    (Written.general precision x) (ends_space l) old
  rwa [Written.value_general] at h

/-- The last number is read back with whatever follows, if no digit does. -/
theorem readUnsigned_last {w : Nat} (n old : BitVec w) {rest : List Char}
    (hn : KeepsNumber n rest) :
    readUnsigned old { rest := ' ' :: (printUnsigned n ++ rest) } =
      (n, { rest := (takeDigits rest).2 }) :=
  InStream.extractUnsigned_text (fun _ hc => isspace_eq_false (.inl hc)) isspace_gap n hn old

/-- A number between spaces is read back. -/
theorem readUnsigned_next {w : Nat} (n old : BitVec w) (l : List Char) :
    readUnsigned old { rest := ' ' :: (printUnsigned n ++ ' ' :: l) } = (n, { rest := ' ' :: l }) :=
  readUnsigned_last n old (keepsNumber_space n l)

/-- A task at the beginning of a chunk is read back. -/
theorem TaskMessage.read_text (m vars : TaskMessage K) {rest : List Char}
    (hrest : KeepsNumber m.tid rest) :
    read vars (m.text ++ rest) = m.rounded := by
  simp only [read, text, List.append_assoc, List.cons_append, readDouble_first, readDouble_next,
    readUnsigned_next, readUnsigned_last _ _ hrest]
  rfl

/-- The task is read under its own id only if the text behind it keeps the id. -/
theorem TaskMessage.read_tid_iff (m vars : TaskMessage K) (hm : m.tid ≠ BitVec.allOnes 64)
    (rest : List Char) :
    (read vars (m.text ++ rest)).tid = m.tid ↔ KeepsNumber m.tid rest := by
  simp only [read, text, List.append_assoc, List.cons_append, readDouble_first, readDouble_next,
    readUnsigned_next]
  exact InStream.extractUnsigned_eq_iff (fun _ hc => isspace_eq_false (.inl hc)) isspace_gap hm rest
    vars.tid

/-- A result at the beginning of a chunk is read back. -/
theorem ResultMessage.read_text (m vars : ResultMessage K) {rest : List Char}
    (hrest : KeepsNumber m.tid rest) : read vars (m.text ++ rest) = m.rounded := by
  simp only [read, text, List.append_assoc, List.cons_append, readDouble_first, readUnsigned_next,
    readUnsigned_last _ _ hrest]
  rfl

/-! ## The slices of a query -/

/-- The tasks of a query as a worker reads them from their messages, each the only one in
its chunk. -/
def QueryInfo.arrived (vars : TaskMessage K) (query : QueryInfo K) : List (TaskMessage K) :=
  query.allTasks.mapIdx fun tid task =>
    TaskMessage.read vars (TaskMessage.ofTask query.id tid task).text

/-- The slices of a query reach a worker as intervals that are not empty, so that no call of
`EvaluateIntegral` throws, and each begins where the one before it ends. -/
structure SlicesArrive (vars : TaskMessage K) (query : QueryInfo K) : Prop where
  nonempty : ∀ m ∈ query.arrived vars, m.a < m.b
  evaluated : ∀ m ∈ query.arrived vars, ∀ fuel points function,
    evaluateIntegral fuel m.a m.b points function ≠ .error .ensure
  adjacent : (query.arrived vars).IsChain fun m m' => m.b = m'.a

/-- The slices of a new query arrive with rounded borders. -/
theorem arrived_newQuery (vars : TaskMessage K) (id : QueryId) (a b : K) :
    (Leader.newQuery id a b).arrived vars = (List.range Leader.slices).map fun i =>
      (TaskMessage.ofTask id i
        { a := border a b Leader.slices i, b := border a b Leader.slices (i + 1) }).rounded := by
  have hread : ∀ m : TaskMessage K, TaskMessage.read vars m.text = m.rounded := fun m => by
    have hnil : KeepsNumber m.tid [] := nofun
    simpa using m.read_text vars hnil
  rw [QueryInfo.arrived, allTasks_newQuery]
  simp only [hread]
  exact List.ext_getElem (by simp) fun i hi hi' => by simp [Leader.newQuery]

/-- **Slices arrive as valid intervals** exactly if neighbouring borders are separated: they differ
in their sign, or a point halfway between two numbers with six digits is between them. -/
theorem slices_arrive {a b : K} (hab : a < b) (id : QueryId) (vars : TaskMessage K) :
    SlicesArrive vars (Leader.newQuery id a b) ↔ ∀ i < Leader.slices,
      Separated precision (border a b Leader.slices i) (border a b Leader.slices (i + 1)) := by
  have hlt : ∀ i, roundSig precision (border a b Leader.slices i) <
      roundSig precision (border a b Leader.slices (i + 1)) ↔
      Separated precision (border a b Leader.slices i) (border a b Leader.slices (i + 1)) :=
    fun i => roundSig_lt_iff precision (border_lt_border hab (by decide) i)
  have hmem : ∀ P : TaskMessage K → Prop, (∀ m ∈ (Leader.newQuery id a b).arrived vars, P m) ↔
      ∀ i < Leader.slices, P (TaskMessage.ofTask id i
        { a := border a b Leader.slices i, b := border a b Leader.slices (i + 1) }).rounded := by
    intro P
    rw [arrived_newQuery]
    simp
  constructor
  · intro h i hi
    exact (hlt i).1 ((hmem _).1 h.nonempty i hi)
  · intro h
    have hnonempty : ∀ m ∈ (Leader.newQuery id a b).arrived vars, m.a < m.b :=
      (hmem _).2 fun i hi => (hlt i).2 (h i hi)
    refine ⟨hnonempty, fun m hm fuel points function hthrow => ?_, ?_⟩
    · exact evaluateIntegral_eq_ensure_iff.1 hthrow (hnonempty m hm)
    · rw [arrived_newQuery]
      exact List.isChain_iff_getElem.2 fun i hi => by simp [TaskMessage.rounded, TaskMessage.ofTask]

/-- The query from 0 to 1. -/
theorem slices_arrive_unit : (0 : ℚ) < 1 ∧
    SlicesArrive { a := (0 : ℚ), b := 0, qid := 0, tid := 0 } (Leader.newQuery 0 (0 : ℚ) 1) := by
  have hrounded : ∀ i < Leader.slices, roundSig precision (border (0 : ℚ) 1 Leader.slices i) <
      roundSig precision (border (0 : ℚ) 1 Leader.slices (i + 1)) := by
    decide +kernel
  refine ⟨by norm_num, (slices_arrive (by norm_num : (0 : ℚ) < 1) 0 _).2 fun i hi => ?_⟩
  exact (roundSig_lt_iff precision (border_lt_border (by norm_num) (by decide) i)).1 (hrounded i hi)

/-- The query from 1000000 to 1000001 has borders that are all written as 1e+06. -/
theorem not_slices_arrive : ¬ ∀ (a b : ℚ), a < b → ∀ (id : QueryId) (vars : TaskMessage ℚ),
    SlicesArrive vars (Leader.newQuery id a b) := by
  intro h
  have hall :=
    (h 1000000 1000001 (by norm_num) 0 { a := (0 : ℚ), b := 0, qid := 0, tid := 0 }).nonempty
  have hempty : ((Leader.newQuery 0 (1000000 : ℚ) 1000001).arrived
      { a := (0 : ℚ), b := 0, qid := 0, tid := 0 }).all (fun m => m.a < m.b) = false := by
    decide +kernel
  rw [List.all_eq_true.2 fun m hm => decide_eq_true (hall m hm)] at hempty
  cases hempty

end

end ToFTDS.Integral
