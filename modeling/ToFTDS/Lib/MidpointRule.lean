import Mathlib.Analysis.Calculus.MeanValue
import Mathlib.Analysis.SpecialFunctions.Integrals.Basic

/-!
# The error of the midpoint rule

The midpoint rule takes `h * f c` for the integral of `f` over an interval of length `h` around `c`.
If the derivative of `f` changes by at most `M` times the distance, the two differ by at most
`M * h ^ 3 / 24` (`abs_integral_sub_le`): what `f` gains on one side of `c` it loses on the other,
up to a square of the distance (`abs_symmetric_le`). Over neighbouring intervals the errors add up
(`abs_sum_sub_integral_le`).
-/

namespace ToFTDS

open Set

/-- On the interval from `a` to `b` the function `f` has the derivative `f'`, which changes by at
most `M` times the distance. -/
structure Smooth (M : ℝ) (f f' : ℝ → ℝ) (a b : ℝ) : Prop where
  hasDerivAt : ∀ x ∈ Icc a b, HasDerivAt f (f' x) x
  lipschitz : ∀ x ∈ Icc a b, ∀ y ∈ Icc a b, |f' x - f' y| ≤ M * |x - y|

namespace Smooth

variable {M a b : ℝ} {f f' : ℝ → ℝ}

/-- A function that is smooth on an interval is so on the parts of it. -/
theorem mono (hf : Smooth M f f' a b) {a' b' : ℝ} (h : Icc a' b' ⊆ Icc a b) :
    Smooth M f f' a' b' where
  hasDerivAt x hx := hf.hasDerivAt x (h hx)
  lipschitz x hx y hy := hf.lipschitz x (h hx) y (h hy)

/-- A smooth function is continuous. -/
theorem continuousOn (hf : Smooth M f f' a b) : ContinuousOn f (Icc a b) := fun x hx =>
  (hf.hasDerivAt x hx).continuousAt.continuousWithinAt

/-- A smooth function has an integral. -/
theorem intervalIntegrable (hf : Smooth M f f' a b) (hab : a ≤ b) :
    IntervalIntegrable f MeasureTheory.volume a b :=
  hf.continuousOn.intervalIntegrable_of_Icc hab

variable {c r : ℝ}

/-- The values at two points on either side of `c` add up to twice the one at `c`, up to the square
of the distance. -/
theorem abs_symmetric_le (hf : Smooth M f f' (c - r) (c + r)) {h : ℝ} (hh : h ∈ Icc 0 r) :
    |f (c + h) + f (c - h) - 2 * f c| ≤ M * h ^ 2 := by
  have hright : ∀ x ∈ Icc 0 r, c + x ∈ Icc (c - r) (c + r) := fun x hx =>
    ⟨by linarith [hx.1, hx.2], by linarith [hx.2]⟩
  have hleft : ∀ x ∈ Icc 0 r, c - x ∈ Icc (c - r) (c + r) := fun x hx =>
    ⟨by linarith [hx.2], by linarith [hx.1, hx.2]⟩
  have hderiv : ∀ x ∈ Icc 0 r, HasDerivAt (fun x => f (c + x) + f (c - x) - 2 * f c)
      (f' (c + x) - f' (c - x)) x := by
    intro x hx
    have h₁ := (hf.hasDerivAt _ (hright x hx)).comp_const_add c x
    have h₂ := (hf.hasDerivAt _ (hleft x hx)).comp_const_sub c x
    simpa [sub_eq_add_neg] using (h₁.add h₂).sub_const (2 * f c)
  have hsquare : ∀ x, HasDerivAt (fun x => M * x ^ 2) (M * (2 * x)) x := fun x => by
    simpa using (hasDerivAt_pow 2 x).const_mul M
  refine image_norm_le_of_norm_deriv_right_le_deriv_boundary
    (fun x hx => (hderiv x hx).continuousAt.continuousWithinAt)
    (fun x hx => (hderiv x (Ico_subset_Icc_self hx)).hasDerivWithinAt) ?_ hsquare
    (fun x hx => ?_) hh
  · simp [two_mul]
  · have hx' := Ico_subset_Icc_self hx
    refine (hf.lipschitz _ (hright x hx') _ (hleft x hx')).trans_eq ?_
    rw [show c + x - (c - x) = 2 * x by ring, abs_of_nonneg (by linarith [hx.1])]

/-- The midpoint rule for one interval. -/
theorem abs_integral_sub_le (hf : Smooth M f f' (c - r) (c + r)) (hr : 0 ≤ r) :
    |(∫ x in (c - r)..(c + r), f x) - 2 * r * f c| ≤ M * (2 * r) ^ 3 / 24 := by
  have hc : Icc (c - r) c ⊆ Icc (c - r) (c + r) := Icc_subset_Icc_right (by linarith)
  have hc' : Icc c (c + r) ⊆ Icc (c - r) (c + r) := Icc_subset_Icc_left (by linarith)
  have hcont : ContinuousOn (fun x => f (c + x)) (Icc 0 r) :=
    hf.continuousOn.comp (by fun_prop) fun x hx => ⟨by linarith [hx.1], by linarith [hx.2]⟩
  have hcont' : ContinuousOn (fun x => f (c - x)) (Icc 0 r) :=
    hf.continuousOn.comp (by fun_prop) fun x hx => ⟨by linarith [hx.2], by linarith [hx.1]⟩
  have hint := hcont.intervalIntegrable_of_Icc (μ := MeasureTheory.volume) hr
  have hint' := hcont'.intervalIntegrable_of_Icc (μ := MeasureTheory.volume) hr
  -- both halves as integrals over the distance from `c`
  have hfold : (∫ x in (c - r)..(c + r), f x) - 2 * r * f c =
      ∫ x in (0 : ℝ)..r, (f (c + x) + f (c - x) - 2 * f c) := by
    rw [intervalIntegral.integral_sub (hint.add hint') intervalIntegrable_const,
      intervalIntegral.integral_add hint hint', intervalIntegral.integral_comp_add_left f,
      intervalIntegral.integral_comp_sub_left f, intervalIntegral.integral_const,
      ← intervalIntegral.integral_add_adjacent_intervals
        ((hf.mono hc).intervalIntegrable (by linarith))
        ((hf.mono hc').intervalIntegrable (by linarith))]
    simp only [add_zero, sub_zero, smul_eq_mul]
    ring
  have hbound : |∫ x in (0 : ℝ)..r, (f (c + x) + f (c - x) - 2 * f c)| ≤
      ∫ x in (0 : ℝ)..r, M * x ^ 2 := by
    rw [← Real.norm_eq_abs]
    refine intervalIntegral.norm_integral_le_of_norm_le hr ?_ ?_
    · exact MeasureTheory.ae_of_all _ fun x hx => hf.abs_symmetric_le (Ioc_subset_Icc_self hx)
    · exact Continuous.intervalIntegrable (by fun_prop) _ _
  rw [hfold]
  refine hbound.trans_eq ?_
  rw [intervalIntegral.integral_const_mul, integral_pow]
  norm_num
  ring

end Smooth

/-- Errors over neighbouring intervals add up. -/
theorem abs_integral_sub_sum_le {f : ℝ → ℝ} {p value error : ℕ → ℝ} {n : ℕ}
    (hint : ∀ k < n, IntervalIntegrable f MeasureTheory.volume (p k) (p (k + 1)))
    (herror : ∀ k < n, |(∫ x in (p k)..(p (k + 1)), f x) - value k| ≤ error k) :
    |(∫ x in (p 0)..(p n), f x) - ∑ k ∈ Finset.range n, value k| ≤
      ∑ k ∈ Finset.range n, error k := by
  rw [← intervalIntegral.sum_integral_adjacent_intervals hint, ← Finset.sum_sub_distrib]
  refine (Finset.abs_sum_le_sum_abs _ _).trans (Finset.sum_le_sum fun k hk => ?_)
  exact herror k (Finset.mem_range.1 hk)

end ToFTDS
