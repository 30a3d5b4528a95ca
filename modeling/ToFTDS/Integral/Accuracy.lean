import ToFTDS.Integral.Midpoint
import ToFTDS.Lib.MidpointRule

/-!
# How exact `EvaluateIntegral` is

For any function the loop of `EvaluateIntegral` adds up the values at the midpoints of `points`
subintervals (`evaluateIntegral_eq`). So over the reals its result is that of the midpoint rule, and
the error of the rule is that of the call. The leader cuts a query into ten slices, and each is
evaluated at as many points as the whole would be: what is left of the error is the hundredth part
(`evaluateIntegral_error`).
-/

namespace ToFTDS.Integral

section
variable {K : Type} [Field K] [LinearOrder K] [IsStrictOrderedRing K]

/-- The sum that a call returns for any function. -/
def midpointSum (function : K → K) (a b : K) (n : Nat) : K :=
  ∑ j ∈ Finset.range n, (b - a) / (n : K) * function (midpoint a b n j)

/-- With enough fuel a call returns the midpoint sum, after a value at each midpoint. -/
theorem evaluateIntegral_eq {a b : K} (hab : a < b) {points : Nat} (hpoints : 1 ≤ points)
    {fuel : Nat} (hfuel : points < fuel) (function : K → K) :
    evaluateIntegral fuel a b points function =
      .ok
        { result := midpointSum function a b points
          evaluatedAt := (List.range points).map (midpoint a b points) } := by
  have hfirst : a + (b - a) / (points : K) / ((2 : Nat) : K) = midpoint a b points 0 := by
    rw [midpoint, border_succ, border_zero]
    push_cast
    ring
  have hsum : ((List.range points).map fun j => function (midpoint a b points j)).sum *
      ((b - a) / (points : K)) = midpointSum function a b points := by
    rw [← List.sum_map_mul_right]
    exact Finset.sum_congr (rfl : Finset.range points = _) fun j _ =>
      mul_comm (function (midpoint a b points j)) ((b - a) / (points : K))
  rw [evaluateIntegral, if_pos hab]
  dsimp only
  rw [hfirst, evaluateLoop_eq hab hpoints function points fuel 0 _ (Nat.zero_add _) hfuel]
  simp only [List.range_eq_range'] at hsum ⊢
  rw [← hsum]
  simp [bind, Except.bind, pure, Except.pure]

end

section
variable {M a b : ℝ} {f f' : ℝ → ℝ}

/-- The borders are within the interval. -/
theorem border_mem (hab : a ≤ b) {n i : Nat} (hn : 1 ≤ n) (hi : i ≤ n) :
    border a b n i ∈ Set.Icc a b := by
  have hn' : (0 : ℝ) < n := by exact_mod_cast hn
  have hi' : (i : ℝ) ≤ n := by exact_mod_cast hi
  have hstep : 0 ≤ (b - a) / n := div_nonneg (sub_nonneg.2 hab) hn'.le
  constructor
  · exact le_add_of_nonneg_right (mul_nonneg hstep (Nat.cast_nonneg i))
  · calc a + (b - a) / n * i ≤ a + (b - a) / n * n := by gcongr
      _ = b := by rw [div_mul_cancel₀ _ hn'.ne']; ring

/-- A part of the interval. -/
theorem smooth_part (hf : Smooth M f f' a b) (hab : a ≤ b) {n i : Nat} (hi : i < n) :
    Smooth M f f' (border a b n i) (border a b n (i + 1)) :=
  hf.mono (Set.Icc_subset_Icc (border_mem hab (by omega) hi.le).1
    (border_mem hab (by omega) hi).2)

/-- The error of a call of `EvaluateIntegral`. -/
theorem midpointSum_error (hf : Smooth M f f' a b) (hab : a < b) {n : Nat} (hn : 1 ≤ n) :
    |(∫ x in a..b, f x) - midpointSum f a b n| ≤ M * (b - a) ^ 3 / (24 * n ^ 2) := by
  have hn' : (0 : ℝ) < n := by exact_mod_cast hn
  have hstep : 0 ≤ (b - a) / n := div_nonneg (sub_pos.2 hab).le hn'.le
  have hparts : ∀ i < n, |(∫ x in (border a b n i)..(border a b n (i + 1)), f x) -
      (b - a) / n * f (midpoint a b n i)| ≤ M * ((b - a) / n) ^ 3 / 24 := by
    intro i hi
    have hleft : border a b n i = midpoint a b n i - (b - a) / n / 2 := by
      rw [midpoint, border_succ]
      ring
    have hright : border a b n (i + 1) = midpoint a b n i + (b - a) / n / 2 := by
      rw [midpoint, border_succ]
      ring
    have hpart := smooth_part hf hab.le hi
    rw [hleft, hright] at hpart ⊢
    have herror := hpart.abs_integral_sub_le (by positivity)
    rwa [mul_div_cancel₀ _ (two_ne_zero' ℝ)] at herror
  have htotal := abs_integral_sub_sum_le
    (fun i hi => (smooth_part hf hab.le hi).intervalIntegrable (border_lt_border hab hn i).le)
    hparts
  rw [border_zero, border_self a b hn'.ne'] at htotal
  refine htotal.trans_eq ?_
  rw [Finset.sum_const, Finset.card_range, nsmul_eq_mul]
  field_simp

/-- **The error of the distributed midpoint rule.** For a function whose derivative changes by at
most `M` times the distance, a call of `EvaluateIntegral` returns after all its points, with an
error of at most `M * (b - a) ^ 3 / (24 * points ^ 2)`; and the sum of the calls for the ten slices
of a query has at most the hundredth part of this error. -/
theorem evaluateIntegral_error (hf : Smooth M f f' a b) (hab : a < b) {points : Nat}
    (hpoints : 1 ≤ points) {fuel : Nat} (hfuel : points < fuel) (id : QueryId) :
    (∃ evaluated, evaluateIntegral fuel a b points f = .ok evaluated ∧
      evaluated.evaluatedAt = (List.range points).map (midpoint a b points) ∧
      |(∫ x in a..b, f x) - evaluated.result| ≤ M * (b - a) ^ 3 / (24 * points ^ 2)) ∧
    ∃ parts, (Leader.newQuery id a b).allTasks.mapM
        (fun task => evaluateIntegral fuel task.a task.b points f) = .ok parts ∧
      parts.map Evaluated.evaluatedAt = (Leader.newQuery id a b).allTasks.map
        (fun task => (List.range points).map (midpoint task.a task.b points)) ∧
      |(∫ x in a..b, f x) - (parts.map Evaluated.result).sum| ≤
        M * (b - a) ^ 3 / (24 * points ^ 2) / 100 := by
  have hten : 1 ≤ Leader.slices := by decide
  refine ⟨⟨_, evaluateIntegral_eq hab hpoints hfuel f, rfl, midpointSum_error hf hab hpoints⟩, ?_⟩
  have hcalls : ∀ i, evaluateIntegral fuel (border a b Leader.slices i)
      (border a b Leader.slices (i + 1)) points f = pure _ :=
    fun i => evaluateIntegral_eq (border_lt_border hab hten i) hpoints hfuel f
  rw [allTasks_newQuery, List.mapM_map]
  simp only [Function.comp_def, hcalls, List.mapM_pure]
  refine ⟨_, rfl, by simp, ?_⟩
  rw [List.map_map]
  have herror := abs_integral_sub_sum_le
    (fun i hi => (smooth_part hf hab.le hi).intervalIntegrable (border_lt_border hab hten i).le)
    fun i hi => midpointSum_error (smooth_part hf hab.le hi) (border_lt_border hab hten i) hpoints
  have hslices : ((Leader.slices : Nat) : ℝ) = 10 := by norm_num [Leader.slices]
  rw [border_zero, border_self a b (by rw [hslices]; norm_num)] at herror
  refine herror.trans_eq ?_
  simp only [border_succ, add_sub_cancel_left, Finset.sum_const, Finset.card_range, nsmul_eq_mul,
    hslices]
  field_simp
  ring

/-- The square on the interval from 0 to 1, at one point. -/
theorem evaluateIntegral_error_square :
    ∃ evaluated, evaluateIntegral 2 (0 : ℝ) 1 1 (fun x => x ^ 2) = .ok evaluated ∧
      evaluated.evaluatedAt = [1 / 2] ∧
      |(∫ x in (0 : ℝ)..1, x ^ 2) - evaluated.result| ≤ 1 / 12 := by
  have hf : Smooth 2 (fun x : ℝ => x ^ 2) (fun x => 2 * x) 0 1 := by
    refine ⟨fun x _ => by simpa using hasDerivAt_pow 2 x, fun x _ y _ => ?_⟩
    rw [← mul_sub, abs_mul, abs_two]
  obtain ⟨⟨evaluated, hok, hat, herror⟩, -⟩ :=
    evaluateIntegral_error hf one_pos (le_refl 1) (Nat.lt_succ_self 1) 0
  refine ⟨evaluated, hok, ?_, herror.trans_eq (by norm_num)⟩
  simp [hat, midpoint, border]

end

end ToFTDS.Integral
