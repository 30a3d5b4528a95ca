import Mathlib.Algebra.BigOperators.Group.Finset.Piecewise
import Mathlib.Algebra.Order.BigOperators.Group.Finset
import Mathlib.Logic.Function.Basic

/-!
# Greedy distribution

Jobs of equal size are given to places one by one, each to a place with the smallest load.
`Levelled` is what is kept: a place that has been given a job has at most one more than any other.
It follows that no other distribution of as many jobs has a smaller largest load or a larger
smallest one (`Levelled.exists_le`, `Levelled.exists_ge`).
-/

namespace ToFTDS

variable {W : Type} {places : Finset W} {start load other : W → Nat}

/-- The loads have grown from `start`, and where they have, they are at most one above all
others. -/
structure Levelled (places : Finset W) (start load : W → Nat) : Prop where
  le : ∀ w ∈ places, start w ≤ load w
  level : ∀ w ∈ places, start w < load w → ∀ v ∈ places, load w ≤ load v + 1

/-- One job more for one place is one job more for all. -/
theorem sum_update_succ [DecidableEq W] (load : W → Nat) {w : W} (hw : w ∈ places) :
    ∑ v ∈ places, Function.update load w (load w + 1) v = ∑ v ∈ places, load v + 1 := by
  rw [Finset.sum_update_of_mem hw, Finset.sdiff_singleton_eq_erase,
    ← Finset.add_sum_erase _ load hw]
  omega

namespace Levelled

/-- Where nothing has been given out, nothing is above anything. -/
theorem refl (places : Finset W) (start : W → Nat) : Levelled places start start :=
  ⟨fun _ _ => le_rfl, fun _ _ h => absurd h (lt_irrefl _)⟩

/-- A place with the smallest load is given a job. -/
theorem step [DecidableEq W] (h : Levelled places start load) {w : W}
    (hmin : ∀ v ∈ places, load w ≤ load v) :
    Levelled places start (Function.update load w (load w + 1)) := by
  have hgrow : ∀ v, load v ≤ Function.update load w (load w + 1) v := fun v => by
    rcases eq_or_ne v w with rfl | hne
    · rw [Function.update_self]
      exact Nat.le_succ _
    · rw [Function.update_of_ne hne]
  refine ⟨fun v hv => (h.le v hv).trans (hgrow v), fun v hv hlt u hu => ?_⟩
  rcases eq_or_ne v w with rfl | hne
  · rw [Function.update_self]
    exact Nat.succ_le_succ ((hmin u hu).trans (hgrow u))
  · rw [Function.update_of_ne hne] at hlt ⊢
    exact (h.level v hv hlt u hu).trans (Nat.succ_le_succ (hgrow u))

/-- Another distribution of as many jobs has as large a load somewhere. -/
theorem exists_le (h : Levelled places start load) (hle : ∀ v ∈ places, start v ≤ other v)
    (hsum : ∑ v ∈ places, other v = ∑ v ∈ places, load v) {w : W} (hw : w ∈ places) :
    ∃ v ∈ places, load w ≤ other v := by
  by_contra hnone
  push Not at hnone
  refine absurd hsum (Finset.sum_lt_sum (fun v hv => ?_) ⟨w, hw, hnone w hw⟩).ne
  -- `w` has been given a job, as it has less in the other distribution
  have hlevel := h.level w hw (lt_of_le_of_lt (hle w hw) (hnone w hw)) v hv
  exact Nat.lt_succ_iff.1 ((hnone v hv).trans_le hlevel)

/-- Another distribution of as many jobs has as small a load somewhere. -/
theorem exists_ge (h : Levelled places start load) (hle : ∀ v ∈ places, start v ≤ other v)
    (hsum : ∑ v ∈ places, other v = ∑ v ∈ places, load v) {w : W} (hw : w ∈ places) :
    ∃ v ∈ places, other v ≤ load w := by
  by_contra hnone
  push Not at hnone
  refine absurd hsum.symm (Finset.sum_lt_sum (fun v hv => ?_) ⟨w, hw, hnone w hw⟩).ne
  -- a place with more than `start` has at most one more than `w`
  rcases (h.le v hv).eq_or_lt with heq | hlt
  · exact heq ▸ hle v hv
  · exact (h.level v hv hlt w hw).trans (hnone v hv)

end Levelled

end ToFTDS
