import Mathlib.Algebra.Order.Floor.Ring
import Mathlib.Algebra.Order.Archimedean.Basic
import Mathlib.Data.Int.Log
import Mathlib.Tactic.Linarith
import Mathlib.Tactic.Positivity
import Mathlib.Tactic.Ring

/-!
# Rounding to significant digits

A number with `p + 1` significant digits is `m * 10 ^ k` with `10 ^ p ≤ m < 10 ^ (p + 1)`.
`roundSig p x` is the nearest such number, and of two that are equally near the one with the even
`m`.

`roundSig_le_iff` says where the numbers are that are rounded to `m * 10 ^ k` or less: up to the
point halfway to the next number. With it two numbers are rounded to different ones exactly if such
a point is between them (`roundSig_lt_iff`).
-/

namespace ToFTDS

section
variable {K : Type} [Field K] [LinearOrder K] [IsStrictOrderedRing K] [FloorRing K]

/-! ## To an integer -/

/-- The nearest integer, and of two equally near ones the even one. -/
def roundHalfEven (x : K) : Int :=
  if x - ⌊x⌋ < ⌊x⌋ + 1 - x ∨ x - ⌊x⌋ = ⌊x⌋ + 1 - x ∧ Even ⌊x⌋ then ⌊x⌋ else ⌊x⌋ + 1

/-- A number is rounded to at most `m` if it is nearer to `m` than to `m + 1`, or halfway and `m` is
even. -/
theorem roundHalfEven_le_iff (x : K) (m : Int) :
    roundHalfEven x ≤ m ↔ x - m < m + 1 - x ∨ x - m = m + 1 - x ∧ Even m := by
  have hfloor := Int.floor_le x
  have hnext := Int.lt_floor_add_one x
  rcases lt_trichotomy ⌊x⌋ m with hlt | rfl | hgt
  · have hle : (⌊x⌋ : K) + 1 ≤ m := by exact_mod_cast hlt
    refine iff_of_true ?_ (.inl (by linarith))
    unfold roundHalfEven
    split <;> omega
  · unfold roundHalfEven
    split
    · next h => exact iff_of_true le_rfl h
    · next h => exact iff_of_false (by omega) h
  · have hle : (m : K) + 1 ≤ ⌊x⌋ := by exact_mod_cast hgt
    refine iff_of_false ?_ ?_
    · unfold roundHalfEven
      split <;> omega
    · rintro (h | ⟨h, -⟩) <;> linarith

/-- Rounding does not go below an integer that is not above the number. -/
theorem le_roundHalfEven {x : K} {m : Int} (h : (m : K) ≤ x) : m ≤ roundHalfEven x := by
  by_contra hlt
  have hle : roundHalfEven x ≤ m - 1 := by omega
  rcases (roundHalfEven_le_iff x (m - 1)).1 hle with h' | ⟨h', -⟩ <;> push_cast at h' <;> linarith

/-- Rounding does not go above an integer that is not below the number. -/
theorem roundHalfEven_le {x : K} {m : Int} (h : x ≤ m) : roundHalfEven x ≤ m :=
  (roundHalfEven_le_iff x m).2 (.inl (by linarith))

/-- The nearest integer is at most a half away. -/
theorem abs_roundHalfEven_sub_le (x : K) : |(roundHalfEven x : K) - x| ≤ 1 / 2 := by
  have hfloor := Int.floor_le x
  have hnext := Int.lt_floor_add_one x
  unfold roundHalfEven
  split
  · next h =>
    rw [abs_sub_le_iff]
    rcases h with h | ⟨h, -⟩ <;> constructor <;> linarith
  · next h =>
    have hle : ¬ x - ⌊x⌋ < ⌊x⌋ + 1 - x := fun hlt => h (.inl hlt)
    push_cast
    rw [abs_sub_le_iff]
    constructor <;> linarith

/-! ## To significant digits -/

/-- The place of the last of the `p + 1` digits of `x`. -/
def lastPlace (p : Nat) (x : K) : Int := Int.log 10 x - p

/-- `x` in units of its last place. -/
def scaled (p : Nat) (x : K) : K := x / 10 ^ lastPlace p x

/-- `x` units of the place `k`. -/
def atPlace (x : K) (k : Int) : K := x * 10 ^ k

/-- The `p + 1` digits that a positive `x` is rounded to, as a number, and the place of the last. -/
def sigDigits (p : Nat) (x : K) : Nat × Int :=
  let m := (roundHalfEven (scaled p x)).toNat
  if m = 10 ^ (p + 1) then (10 ^ p, lastPlace p x + 1) else (m, lastPlace p x)

/-- A positive `x` rounded to `p + 1` significant digits. -/
def roundPos (p : Nat) (x : K) : K := atPlace ((sigDigits p x).1 : K) (sigDigits p x).2

/-- `x` rounded to `p + 1` significant digits. -/
def roundSig (p : Nat) (x : K) : K :=
  if x = 0 then 0 else if x < 0 then -roundPos p (-x) else roundPos p x

variable {p : Nat} {x y : K}

/-- Powers of ten are positive. -/
theorem tenPow_pos (k : Int) : (0 : K) < 10 ^ k := zpow_pos (by norm_num) k

/-- Scaling a number so that its last place is 1 can be undone. -/
theorem scaled_mul (p : Nat) (x : K) : scaled p x * 10 ^ lastPlace p x = x :=
  div_mul_cancel₀ x (tenPow_pos _).ne'

/-- In these units a positive number is between the least and the greatest significand. -/
theorem scaled_bounds (p : Nat) (hx : 0 < x) :
    (10 : K) ^ p ≤ scaled p x ∧ scaled p x < 10 ^ (p + 1) := by
  have hpos : (0 : K) < 10 ^ lastPlace p x := tenPow_pos _
  have hlow := Int.zpow_log_le_self (b := 10) (by decide) hx
  have hhigh := Int.lt_zpow_succ_log_self (b := 10) (by decide) x
  have hlog : Int.log 10 x = (p : Int) + lastPlace p x := by
    rw [lastPlace]
    omega
  have hten : (10 : K) ≠ 0 := by norm_num
  push_cast at hlow hhigh
  rw [hlog] at hlow hhigh
  rw [zpow_add₀ hten, zpow_natCast] at hlow
  rw [add_right_comm, zpow_add₀ hten] at hhigh
  exact ⟨(le_div_iff₀ hpos).2 hlow, (div_lt_iff₀ hpos).2 (by exact_mod_cast hhigh)⟩

/-- The scaled number is rounded to one with `p + 1` digits, or to the next power of ten. -/
theorem roundHalfEven_scaled_bounds (p : Nat) (hx : 0 < x) :
    (10 : Int) ^ p ≤ roundHalfEven (scaled p x) ∧
      roundHalfEven (scaled p x) ≤ 10 ^ (p + 1) := by
  obtain ⟨hlow, hhigh⟩ := scaled_bounds p hx
  exact ⟨le_roundHalfEven (by push_cast; exact hlow),
    roundHalfEven_le (by push_cast; exact hhigh.le)⟩

/-- The significant digits are `p + 1` digits. -/
theorem sigDigits_bounds (p : Nat) (hx : 0 < x) :
    10 ^ p ≤ (sigDigits p x).1 ∧ (sigDigits p x).1 < 10 ^ (p + 1) := by
  obtain ⟨hlow, hhigh⟩ := roundHalfEven_scaled_bounds p hx
  have hlt : 10 ^ p < 10 ^ (p + 1) := Nat.pow_lt_pow_right (by decide) (Nat.lt_succ_self p)
  unfold sigDigits
  dsimp only
  split
  · exact ⟨le_rfl, hlt⟩
  · next hne =>
    have hlow' : 10 ^ p ≤ (roundHalfEven (scaled p x)).toNat := by
      have : ((10 ^ p : Nat) : Int) ≤ roundHalfEven (scaled p x) := by exact_mod_cast hlow
      omega
    have hhigh' : (roundHalfEven (scaled p x)).toNat ≤ 10 ^ (p + 1) := by
      have : roundHalfEven (scaled p x) ≤ ((10 ^ (p + 1) : Nat) : Int) := by exact_mod_cast hhigh
      omega
    exact ⟨hlow', lt_of_le_of_ne hhigh' hne⟩

/-- A carry into a new digit does not change the value. -/
theorem roundPos_eq (p : Nat) (hx : 0 < x) :
    roundPos p x = (roundHalfEven (scaled p x) : K) * 10 ^ lastPlace p x := by
  obtain ⟨hlow, -⟩ := roundHalfEven_scaled_bounds p hx
  have hnonneg : 0 ≤ roundHalfEven (scaled p x) := le_trans (by positivity) hlow
  have hcast :
      (((roundHalfEven (scaled p x)).toNat : Nat) : K) = (roundHalfEven (scaled p x) : K) := by
    have := Int.toNat_of_nonneg hnonneg
    exact_mod_cast congrArg (Int.cast : Int → K) this
  unfold roundPos atPlace sigDigits
  dsimp only
  split
  · next hcarry =>
    rw [← hcast, hcarry]
    push_cast
    rw [zpow_add_one₀ (by norm_num : (10 : K) ≠ 0)]
    ring
  · rw [hcast]

/-- A unit of a later place is at most a tenth. -/
theorem mul_tenPow_le {k k' : Int} (h : k < k') : (10 : K) * 10 ^ k ≤ 10 ^ k' := by
  rw [mul_comm, ← zpow_add_one₀ (by norm_num : (10 : K) ≠ 0)]
  exact zpow_le_zpow_right₀ (by norm_num) (by omega)

/-- The numbers that are rounded to `m * 10 ^ k` at the most: they are nearer to it than to the next
number, or as near and `m` is even. -/
def BelowHalf (m : Nat) (k : Int) (x : K) : Prop :=
  x - m * 10 ^ k < (m + 1) * 10 ^ k - x ∨ x - m * 10 ^ k = (m + 1) * 10 ^ k - x ∧ Even m

/-- A positive number is rounded to at most `m * 10 ^ k`, a number with `p + 1` digits, exactly if
it is not above the point halfway to the next one. -/
theorem roundPos_le_iff (hx : 0 < x) {m : Nat} (hm : 10 ^ p ≤ m ∧ m < 10 ^ (p + 1)) (k : Int) :
    roundPos p x ≤ (m : K) * 10 ^ k ↔ BelowHalf m k x := by
  have hlow : (10 : K) ^ p ≤ m := by exact_mod_cast hm.1
  have hhigh : (m : K) + 1 ≤ 10 ^ (p + 1) := by exact_mod_cast hm.2
  obtain ⟨hlow', hhigh'⟩ := roundHalfEven_scaled_bounds p hx
  have hlowK : (10 : K) ^ p ≤ (roundHalfEven (scaled p x) : K) := by exact_mod_cast hlow'
  have hhighK : (roundHalfEven (scaled p x) : K) ≤ 10 ^ (p + 1) := by exact_mod_cast hhigh'
  have hp : (0 : K) ≤ 10 ^ p := by positivity
  obtain ⟨hxlow, hxhigh⟩ := scaled_bounds p hx
  have hscaled := scaled_mul p x
  have hpos : (0 : K) < 10 ^ lastPlace p x := tenPow_pos _
  have hk : (0 : K) < 10 ^ k := tenPow_pos k
  rw [roundPos_eq p hx, BelowHalf]
  rcases lt_trichotomy k (lastPlace p x) with hlt | rfl | hgt
  · -- in a smaller unit `m` is below `x`
    have hbelow : ((m : K) + 1) * 10 ^ k ≤ 10 ^ p * 10 ^ lastPlace p x :=
      calc ((m : K) + 1) * 10 ^ k ≤ 10 ^ (p + 1) * 10 ^ k := mul_le_mul_of_nonneg_right hhigh hk.le
        _ = 10 ^ p * (10 * 10 ^ k) := by rw [pow_succ, mul_assoc]
        _ ≤ 10 ^ p * 10 ^ lastPlace p x := mul_le_mul_of_nonneg_left (mul_tenPow_le hlt) hp
    have hround :
        (10 : K) ^ p * 10 ^ lastPlace p x ≤ roundHalfEven (scaled p x) * 10 ^ lastPlace p x :=
      mul_le_mul_of_nonneg_right hlowK hpos.le
    have hx' : (10 : K) ^ p * 10 ^ lastPlace p x ≤ x :=
      (mul_le_mul_of_nonneg_right hxlow hpos.le).trans_eq hscaled
    refine iff_of_false (fun h => ?_) ?_
    · linarith
    · rintro (h | ⟨h, -⟩) <;> linarith
  · have hleft : x - m * 10 ^ lastPlace p x = (scaled p x - m) * 10 ^ lastPlace p x := by
      rw [sub_mul, hscaled]
    have hright : (m + 1) * 10 ^ lastPlace p x - x = (m + 1 - scaled p x) * 10 ^ lastPlace p x := by
      rw [sub_mul, hscaled]
    rw [mul_le_mul_iff_left₀ hpos, hleft, hright, mul_lt_mul_iff_left₀ hpos, mul_left_inj' hpos.ne']
    have := roundHalfEven_le_iff (scaled p x) (m : Int)
    rw [← Int.cast_le (R := K)] at this
    simpa using this
  · -- in a larger unit `m` is above `x`
    have habove : (10 : K) ^ (p + 1) * 10 ^ lastPlace p x ≤ m * 10 ^ k :=
      calc (10 : K) ^ (p + 1) * 10 ^ lastPlace p x = 10 ^ p * (10 * 10 ^ lastPlace p x) := by
            rw [pow_succ, mul_assoc]
        _ ≤ 10 ^ p * 10 ^ k := mul_le_mul_of_nonneg_left (mul_tenPow_le hgt) hp
        _ ≤ m * 10 ^ k := mul_le_mul_of_nonneg_right hlow hk.le
    have hround : (roundHalfEven (scaled p x) : K) * 10 ^ lastPlace p x ≤
        10 ^ (p + 1) * 10 ^ lastPlace p x := mul_le_mul_of_nonneg_right hhighK hpos.le
    have hx' : x < 10 ^ (p + 1) * 10 ^ lastPlace p x :=
      hscaled.symm.trans_lt (mul_lt_mul_of_pos_right hxhigh hpos)
    exact iff_of_true (hround.trans habove) (.inl (by linarith))

/-- A point halfway between two neighbours that separates `x` from `y`: a number that is the point
itself is on the side that it is rounded to. -/
def SeparatedPos (p : Nat) (x y : K) : Prop :=
  ∃ (m : Nat) (k : Int), (10 ^ p ≤ m ∧ m < 10 ^ (p + 1)) ∧ BelowHalf m k x ∧ ¬ BelowHalf m k y

/-- Rounding keeps two positive numbers apart exactly if a point halfway between two numbers with `p
+ 1` digits separates them. -/
theorem roundPos_lt_iff (hx : 0 < x) (hy : 0 < y) :
    roundPos p x < roundPos p y ↔ SeparatedPos p x y := by
  constructor
  · intro hlt
    have hm := sigDigits_bounds p hx
    refine ⟨(sigDigits p x).1, (sigDigits p x).2, hm, ?_, fun h => ?_⟩
    · exact (roundPos_le_iff hx hm _).1 le_rfl
    · exact absurd ((roundPos_le_iff hy hm _).2 h) (not_le_of_gt hlt)
  · rintro ⟨m, k, hm, hbelow, habove⟩
    refine lt_of_le_of_lt ((roundPos_le_iff hx hm k).2 hbelow) (lt_of_not_ge fun h => habove ?_)
    exact (roundPos_le_iff hy hm k).1 h

/-- A positive number is not rounded to 0. -/
theorem roundPos_pos (p : Nat) (hx : 0 < x) : 0 < roundPos p x := by
  have hm := (sigDigits_bounds p hx).1
  have hpos : (0 : K) < (sigDigits p x).1 := by
    exact_mod_cast lt_of_lt_of_le (Nat.pow_pos (by decide)) hm
  exact mul_pos hpos (tenPow_pos _)

/-- The relative error of rounding is at most half a unit of the last place. -/
theorem abs_roundPos_sub_le (p : Nat) (hx : 0 < x) : |roundPos p x - x| ≤ x / (2 * 10 ^ p) := by
  have hpos : (0 : K) < 10 ^ lastPlace p x := tenPow_pos _
  have hten : (0 : K) < 10 ^ p := by positivity
  have hunit : 10 ^ lastPlace p x ≤ x / 10 ^ p := by
    rw [le_div_iff₀ hten, mul_comm]
    calc (10 : K) ^ p * 10 ^ lastPlace p x
        ≤ scaled p x * 10 ^ lastPlace p x :=
          mul_le_mul_of_nonneg_right (scaled_bounds p hx).1 hpos.le
      _ = x := scaled_mul p x
  calc |roundPos p x - x|
      = |(roundHalfEven (scaled p x) : K) - scaled p x| * 10 ^ lastPlace p x := by
        rw [roundPos_eq p hx, ← abs_of_pos hpos, ← abs_mul, abs_of_pos hpos, sub_mul, scaled_mul]
    _ ≤ 1 / 2 * 10 ^ lastPlace p x :=
        mul_le_mul_of_nonneg_right (abs_roundHalfEven_sub_le _) hpos.le
    _ ≤ 1 / 2 * (x / 10 ^ p) := mul_le_mul_of_nonneg_left hunit (by norm_num)
    _ = x / (2 * 10 ^ p) := by ring

/-- The relative error is at most half a unit of the last of the `p + 1` digits. -/
theorem abs_roundSig_sub_le (p : Nat) (x : K) : |roundSig p x - x| ≤ |x| / (2 * 10 ^ p) := by
  rcases lt_trichotomy x 0 with hx | rfl | hx
  · have h := abs_roundPos_sub_le p (neg_pos.2 hx)
    rw [roundSig, if_neg hx.ne, if_pos hx, abs_of_neg hx]
    rwa [← abs_neg, neg_sub, neg_sub_comm] at h
  · simp [roundSig]
  · rw [roundSig, if_neg hx.ne', if_neg hx.le.not_gt, abs_of_pos hx]
    exact abs_roundPos_sub_le p hx

/-- `x` and `y` differ in their sign, or a point halfway between two neighbours separates them. -/
def Separated (p : Nat) (x y : K) : Prop :=
  x ≤ 0 ∧ 0 < y ∨ x < 0 ∧ 0 ≤ y ∨ 0 < x ∧ SeparatedPos p x y ∨ y < 0 ∧ SeparatedPos p (-y) (-x)

/-- Two numbers are rounded to different ones exactly if they are separated. -/
theorem roundSig_lt_iff (p : Nat) (hxy : x < y) :
    roundSig p x < roundSig p y ↔ Separated p x y := by
  have hneg : ∀ {z : K}, z < 0 → roundSig p z = -roundPos p (-z) := fun h => by
    rw [roundSig, if_neg h.ne, if_pos h]
  have hpos : ∀ {z : K}, 0 < z → roundSig p z = roundPos p z := fun h => by
    rw [roundSig, if_neg h.ne', if_neg h.le.not_gt]
  have hzero : roundSig p (0 : K) = 0 := if_pos rfl
  rcases lt_trichotomy x 0 with hx | rfl | hx
  · have hx' := roundPos_pos p (neg_pos.2 hx)
    rcases lt_trichotomy y 0 with hy | rfl | hy
    · rw [hneg hx, hneg hy, neg_lt_neg_iff, roundPos_lt_iff (neg_pos.2 hy) (neg_pos.2 hx)]
      constructor
      · exact fun h => .inr (.inr (.inr ⟨hy, h⟩))
      · rintro (⟨-, h⟩ | ⟨-, h⟩ | ⟨h, -⟩ | ⟨-, h⟩)
        · exact absurd h hy.le.not_gt
        · exact absurd hy h.not_gt
        · exact absurd h hx.le.not_gt
        · exact h
    · rw [hneg hx, hzero]
      exact iff_of_true (neg_neg_of_pos hx') (.inr (.inl ⟨hx, le_rfl⟩))
    · rw [hneg hx, hpos hy]
      exact iff_of_true (lt_trans (neg_neg_of_pos hx') (roundPos_pos p hy)) (.inl ⟨hx.le, hy⟩)
  · rw [hzero, hpos hxy]
    exact iff_of_true (roundPos_pos p hxy) (.inl ⟨le_rfl, hxy⟩)
  · have hy := lt_trans hx hxy
    rw [hpos hx, hpos hy, roundPos_lt_iff hx hy]
    constructor
    · exact fun h => .inr (.inr (.inl ⟨hx, h⟩))
    · rintro (⟨h, -⟩ | ⟨h, -⟩ | ⟨-, h⟩ | ⟨h, -⟩)
      · exact absurd hx h.not_gt
      · exact absurd h hx.le.not_gt
      · exact h
      · exact absurd h hy.le.not_gt

end

end ToFTDS
