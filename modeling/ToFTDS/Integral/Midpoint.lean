import Mathlib.Algebra.BigOperators.Ring.List
import Mathlib.Algebra.Order.Field.Basic
import Mathlib.Algebra.Order.Ring.Rat
import Mathlib.Tactic.FieldSimp
import Mathlib.Tactic.Linarith
import Mathlib.Tactic.Ring
import ToFTDS.Integral.Leader

/-!
# The midpoint rule

`EvaluateIntegral` of `integral.cpp`, over any numbers with the operations of `double` that it uses.
The loop counts in coordinates: it stops when the accumulated `x` has reached `b`. In a field the
`i`-th value of `x` is the midpoint of the `i`-th of `points` equal subintervals, so that the loop
makes `points` rounds (`evaluateLoop_eq`).

What the rule adds for a subinterval is exact for a linear function, and exact values of neighbours
add up (`sum_trapezoid`): once for the subintervals of one call, and once for the slices into which
the leader cuts a query (`midpoint_exact`).
-/

namespace ToFTDS.Integral

/-- How a call of `EvaluateIntegral` can go wrong. -/
inductive Failure where
  /-- `ENSURE(a < b)` throws. -/
  | ensure
  /-- The loop is still running. -/
  | outOfFuel
  deriving DecidableEq

/-- What `EvaluateIntegral` returns, and where it has evaluated the function. -/
structure Evaluated (D : Type) where
  result : D
  evaluatedAt : List D

section
variable {D : Type} [Zero D] [Add D] [Sub D] [Mul D] [Div D] [NatCast D] [LT D]
  [DecidableLT D]

/-- The loop (`integral.cpp:12`) from `x` on, with the sum so far. -/
def evaluateLoop (function : D → D) (b stepLength : D) :
    Nat → D → Evaluated D → Except Failure (Evaluated D)
  | 0, _, _ => .error .outOfFuel
  | fuel + 1, x, sum =>
    if x < b then
      evaluateLoop function b stepLength fuel (x + stepLength)
        { result := sum.result + function x, evaluatedAt := sum.evaluatedAt ++ [x] }
    else .ok sum

/-- `EvaluateIntegral` (`integral.cpp:6`). -/
def evaluateIntegral (fuel : Nat) (a b : D) (points : Nat) (function : D → D) :
    Except Failure (Evaluated D) :=
  if a < b then do
    let stepLength := (b - a) / (points : D)
    let raw ← evaluateLoop function b stepLength fuel (a + stepLength / ((2 : Nat) : D))
      { result := 0, evaluatedAt := [] }
    return { raw with result := raw.result * stepLength }
  else .error .ensure

end

/-- The loop does not throw. -/
theorem evaluateLoop_ne_ensure {D : Type} [Add D] [LT D] [DecidableLT D] (function : D → D)
    (b stepLength : D) (fuel : Nat) (x : D) (sum : Evaluated D) :
    evaluateLoop function b stepLength fuel x sum ≠ .error .ensure := by
  induction fuel generalizing x sum with
  | zero => exact nofun
  | succ fuel ih =>
    rw [evaluateLoop]
    split
    · exact ih _ _
    · exact nofun

/-- The call throws exactly if the interval is empty. -/
theorem evaluateIntegral_eq_ensure_iff {D : Type} [Zero D] [Add D] [Sub D] [Mul D] [Div D]
    [NatCast D] [LT D] [DecidableLT D] {fuel : Nat} {a b : D} {points : Nat} {function : D → D} :
    evaluateIntegral fuel a b points function = .error .ensure ↔ ¬ a < b := by
  by_cases hab : a < b
  · refine iff_of_false (fun h => ?_) (not_not.2 hab)
    rw [evaluateIntegral, if_pos hab] at h
    dsimp only at h
    cases hloop : evaluateLoop function b ((b - a) / (points : D)) fuel
        (a + (b - a) / (points : D) / ((2 : Nat) : D)) { result := 0, evaluatedAt := [] } with
    | ok sum =>
      rw [hloop] at h
      cases h
    | error e =>
      rw [hloop] at h
      cases h
      exact evaluateLoop_ne_ensure _ _ _ _ _ _ hloop
  · exact iff_of_true (if_neg hab) hab

section
variable {K : Type} [Field K]

/-- The `i`-th of the borders that cut the interval into `n` equal parts. -/
def border (a b : K) (n i : Nat) : K := a + (b - a) / (n : K) * (i : K)

/-- The midpoint of the `i`-th part. -/
def midpoint (a b : K) (n i : Nat) : K := (border a b n i + border a b n (i + 1)) / 2

/-- `x ↦ k * x + c`. -/
def linear (k c : K) (x : K) : K := k * x + c

/-- The function that a worker integrates (`worker.cpp:141`). -/
def integrand : K → K := linear 2 5

/-- The integral of a linear function from `a` to `b`. -/
def trapezoid (function : K → K) (a b : K) : K := (function a + function b) * (b - a) / 2

@[simp] theorem border_zero (a b : K) (n : Nat) : border a b n 0 = a := by simp [border]

/-- The last border is the end of the interval. -/
theorem border_self (a b : K) {n : Nat} (hn : (n : K) ≠ 0) : border a b n n = b := by
  rw [border, div_mul_cancel₀ _ hn]
  ring

/-- Neighbouring borders are one step apart. -/
theorem border_succ (a b : K) (n i : Nat) :
    border a b n (i + 1) = border a b n i + (b - a) / (n : K) := by
  simp only [border]
  push_cast
  ring

/-- The slices of a query (`leader.cpp:76`) are the ten parts of its interval. -/
theorem allTasks_newQuery (id : QueryId) (a b : K) :
    (Leader.newQuery id a b).allTasks = (List.range Leader.slices).map fun i =>
      { a := border a b Leader.slices i, b := border a b Leader.slices (i + 1) } := rfl

/-- Linear functions have integrals that add up. -/
theorem trapezoid_add (k c a m b : K) :
    trapezoid (linear k c) a m + trapezoid (linear k c) m b = trapezoid (linear k c) a b := by
  simp only [trapezoid, linear]
  ring

/-- The integrals over neighbouring intervals add up to the one over all of them. -/
theorem sum_trapezoid (k c : K) (p : Nat → K) (n : Nat) :
    ((List.range n).map fun i => trapezoid (linear k c) (p i) (p (i + 1))).sum =
      trapezoid (linear k c) (p 0) (p n) := by
  induction n with
  | zero => simp [trapezoid]
  | succ n ih =>
    rw [List.range_succ, List.map_append, List.sum_append, ih]
    simpa using trapezoid_add k c (p 0) (p n) (p (n + 1))

end

section
variable {K : Type} [Field K] [LinearOrder K] [IsStrictOrderedRing K]

/-- The midpoint rule is exact for a linear function on every subinterval. -/
theorem linear_midpoint (k c a b : K) (n i : Nat) :
    linear k c (midpoint a b n i) * ((b - a) / (n : K)) =
      trapezoid (linear k c) (border a b n i) (border a b n (i + 1)) := by
  rw [midpoint, border_succ, trapezoid]
  simp only [linear]
  ring

/-- The coordinate of the loop is below `b` as long as a subinterval is left. -/
theorem midpoint_lt_iff {a b : K} (hab : a < b) {n : Nat} (hn : 1 ≤ n) (i : Nat) :
    midpoint a b n i < b ↔ i < n := by
  have hn' : (0 : K) < n := by exact_mod_cast hn
  have hstep : 0 < (b - a) / (n : K) := div_pos (sub_pos.2 hab) hn'
  have hend : b = a + (b - a) / (n : K) * n := by
    rw [div_mul_cancel₀ _ hn'.ne']
    ring
  have hmid : midpoint a b n i = a + (b - a) / (n : K) * (i + 1 / 2) := by
    simp only [midpoint, border]
    push_cast
    ring
  rw [hmid]
  conv_lhs => rhs; rw [hend]
  rw [add_lt_add_iff_left, mul_lt_mul_iff_right₀ hstep]
  constructor
  · intro h
    by_contra hle
    have : (n : K) ≤ i := by exact_mod_cast Nat.le_of_not_lt hle
    linarith
  · intro h
    have : (i : K) + 1 ≤ n := by exact_mod_cast h
    linarith

/-- The loop with `m` subintervals left evaluates the function at their midpoints. -/
theorem evaluateLoop_eq {a b : K} (hab : a < b) {n : Nat} (hn : 1 ≤ n) (function : K → K)
    (m : Nat) :
    ∀ (fuel i : Nat) (sum : Evaluated K), i + m = n → m < fuel →
    evaluateLoop function b ((b - a) / (n : K)) fuel (midpoint a b n i) sum =
      .ok
        { result := sum.result + ((List.range' i m).map fun j => function (midpoint a b n j)).sum
          evaluatedAt := sum.evaluatedAt ++ (List.range' i m).map (midpoint a b n) } := by
  induction m with
  | zero =>
    intro fuel i sum hi hfuel
    obtain ⟨fuel, rfl⟩ := Nat.exists_eq_succ_of_ne_zero (Nat.ne_of_gt hfuel)
    have hnot : ¬ midpoint a b n i < b := by
      rw [midpoint_lt_iff hab hn]
      omega
    simp [evaluateLoop, hnot]
  | succ m ih =>
    intro fuel i sum hi hfuel
    obtain ⟨fuel, rfl⟩ := Nat.exists_eq_succ_of_ne_zero (Nat.ne_zero_of_lt hfuel)
    have hlt : midpoint a b n i < b := (midpoint_lt_iff hab hn i).2 (by omega)
    have hnext : midpoint a b n i + (b - a) / (n : K) = midpoint a b n (i + 1) := by
      rw [midpoint, midpoint, border_succ a b n (i + 1), border_succ]
      ring
    rw [evaluateLoop, if_pos hlt, hnext, ih fuel (i + 1) _ (by omega) (by omega)]
    simp [List.range'_succ, add_assoc]

/-- A call for a linear function evaluates it at the midpoints and returns its integral. -/
theorem evaluateIntegral_linear {a b : K} (hab : a < b) {points : Nat} (hpoints : 1 ≤ points)
    {fuel : Nat} (hfuel : points < fuel) (k c : K) :
    evaluateIntegral fuel a b points (linear k c) =
      .ok
        { result := trapezoid (linear k c) a b
          evaluatedAt := (List.range points).map (midpoint a b points) } := by
  have hpoints' : (points : K) ≠ 0 := by exact_mod_cast Nat.ne_of_gt hpoints
  have hfirst : a + (b - a) / (points : K) / ((2 : Nat) : K) = midpoint a b points 0 := by
    rw [midpoint, border_succ, border_zero]
    push_cast
    ring
  have hsum : ((List.range points).map fun j => linear k c (midpoint a b points j)).sum *
      ((b - a) / (points : K)) = trapezoid (linear k c) a b := by
    rw [← List.sum_map_mul_right]
    simp only [linear_midpoint]
    rw [sum_trapezoid k c (border a b points), border_zero, border_self a b hpoints']
  rw [evaluateIntegral, if_pos hab]
  dsimp only
  rw [hfirst, evaluateLoop_eq hab hpoints (linear k c) points fuel 0 _ (Nat.zero_add _) hfuel]
  simp only [List.range_eq_range'] at hsum ⊢
  rw [← hsum]
  simp [bind, Except.bind, pure, Except.pure]

/-- The tasks divide the interval from `a` to `b`: none is empty, and each begins where the one
before it ends. -/
structure Divides (tasks : List (Task K)) (a b : K) : Prop where
  first : tasks.head?.map Task.a = some a
  last : tasks.getLast?.map Task.b = some b
  adjacent : tasks.IsChain fun task task' => task.b = task'.a
  nonempty : ∀ task ∈ tasks, task.a < task.b

/-- The borders increase. -/
theorem border_lt_border {a b : K} (hab : a < b) {n : Nat} (hn : 1 ≤ n) (i : Nat) :
    border a b n i < border a b n (i + 1) := by
  have hn' : (0 : K) < n := by exact_mod_cast hn
  rw [border_succ]
  exact lt_add_of_pos_right _ (div_pos (sub_pos.2 hab) hn')

/-- The slices of a new query divide its interval. -/
theorem divides_newQuery {a b : K} (hab : a < b) (id : QueryId) :
    Divides (Leader.newQuery id a b).allTasks a b := by
  have hslices : ((Leader.slices : Nat) : K) ≠ 0 := by
    rw [Leader.slices]
    norm_num
  rw [allTasks_newQuery]
  refine ⟨?_, ?_, List.isChain_iff_getElem.2 fun i hi => by simp, fun task htask => ?_⟩
  · rw [List.head?_map, Leader.slices, List.head?_range]
    simp
  · rw [List.getLast?_map, List.getLast?_range, Leader.slices]
    have hlast := border_self a b hslices
    rw [Leader.slices] at hlast
    simpa using hlast
  · obtain ⟨i, -, rfl⟩ := List.mem_map.1 htask
    exact border_lt_border hab (by decide) i

/-- **Distributed midpoint integration is exact for linear functions**: of one call, which evaluates
the function `points` times, and of the sum of the calls for the slices of a query, which divide its
interval. -/
theorem midpoint_exact {a b : K} (hab : a < b) {points : Nat} (hpoints : 1 ≤ points)
    {fuel : Nat} (hfuel : points < fuel) (k c : K) (id : QueryId) :
    evaluateIntegral fuel a b points (linear k c) =
        .ok
          { result := trapezoid (linear k c) a b
            evaluatedAt := (List.range points).map (midpoint a b points) } ∧
      Divides (Leader.newQuery id a b).allTasks a b ∧
      ∃ parts, (Leader.newQuery id a b).allTasks.mapM
          (fun task => evaluateIntegral fuel task.a task.b points (linear k c)) = .ok parts ∧
        (parts.map Evaluated.result).sum = trapezoid (linear k c) a b := by
  refine ⟨evaluateIntegral_linear hab hpoints hfuel k c, divides_newQuery hab id, ?_⟩
  have hslices : ((Leader.slices : Nat) : K) ≠ 0 := by
    rw [Leader.slices]
    norm_num
  have hparts : ∀ i, evaluateIntegral fuel (border a b Leader.slices i)
      (border a b Leader.slices (i + 1)) points (linear k c) = pure _ :=
    fun i => evaluateIntegral_linear (border_lt_border hab (by decide) i) hpoints hfuel k c
  rw [allTasks_newQuery, List.mapM_map]
  simp only [Function.comp_def, hparts, List.mapM_pure]
  refine ⟨_, rfl, ?_⟩
  rw [List.map_map]
  refine (sum_trapezoid k c (border a b Leader.slices) Leader.slices).trans ?_
  rw [border_zero, border_self a b hslices]

/-- Three points on the query from 0 to 2, for `x ↦ 3 * x + 5`, and three on each of its slices. -/
theorem midpoint_exact_sloped : (0 : ℚ) < 2 ∧
    evaluateIntegral 4 (0 : ℚ) 2 3 (linear 3 5) =
      .ok { result := 16, evaluatedAt := [1 / 3, 1, 5 / 3] } ∧
    ∃ parts, (Leader.newQuery 0 (0 : ℚ) 2).allTasks.mapM
        (fun task => evaluateIntegral 4 task.a task.b 3 (linear 3 5)) = .ok parts ∧
      (parts.map Evaluated.result).sum = 16 := by
  have h02 : (0 : ℚ) < 2 := by norm_num
  have harea : trapezoid (linear (3 : ℚ) 5) 0 2 = 16 := by norm_num [trapezoid, linear]
  have hpoints : (List.range 3).map (midpoint (0 : ℚ) 2 3) = [1 / 3, 1, 5 / 3] := by
    norm_num [midpoint, border, List.range_succ]
  obtain ⟨hone, -, hparts⟩ := midpoint_exact h02 (by decide : 1 ≤ 3) (by decide : 3 < 4) 3 5 0
  rw [harea] at hone hparts
  rw [hpoints] at hone
  exact ⟨h02, hone, hparts⟩

end

end ToFTDS.Integral
