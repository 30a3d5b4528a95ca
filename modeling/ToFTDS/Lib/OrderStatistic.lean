import Mathlib.Data.Multiset.Sort

/-!
# Order statistics

`kthLargest s q` is the `q`-th largest element of a multiset, counted from 1. An element is at most
the `q`-th largest if and only if at least `q` elements are at least as large
(`le_kthLargest_iff`): so a threshold that `q` of the values have to reach is the `q`-th largest
value. `scan_threshold` finds such a threshold by going through a range of indices and keeping the
last that passes.
-/

namespace ToFTDS

section
variable {α : Type} [LinearOrder α]

/-- In a list in descending order, position `k` is at least `a` if more than `k` elements are. -/
theorem le_getElem?_iff {l : List α} (hl : l.Pairwise (· ≥ ·)) {k : Nat} {m : α}
    (hm : l[k]? = some m) (a : α) : a ≤ m ↔ k < l.countP (a ≤ ·) := by
  induction l generalizing k with
  | nil => cases hm
  | cons b l ih =>
    obtain ⟨hb, hl⟩ := List.pairwise_cons.1 hl
    by_cases hab : a ≤ b
    · rw [List.countP_cons_of_pos (by simpa using hab)]
      cases k with
      | zero =>
        cases hm
        exact iff_of_true hab (Nat.succ_pos _)
      | succ k => rw [ih hl hm, Nat.add_lt_add_iff_right]
    · have hnone : l.countP (a ≤ ·) = 0 := by
        refine List.countP_eq_zero.2 fun c hc => ?_
        simpa using lt_of_le_of_lt (hb c hc) (not_le.1 hab)
      rw [List.countP_cons_of_neg (by simpa using hab), hnone]
      refine iff_of_false (fun ham => hab ?_) (Nat.not_lt_zero k)
      cases k with
      | zero =>
        cases hm
        exact ham
      | succ k => exact le_trans ham (hb m (List.mem_of_getElem? hm))

/-- The `q`-th largest element, counted from 1. -/
def kthLargest (s : Multiset α) (q : Nat) : Option α := (s.sort (· ≥ ·))[q - 1]?

/-- There is a `q`-th largest element if there are `q` elements. -/
theorem kthLargest_eq_some {s : Multiset α} {q : Nat} (hq : 0 < q) (hs : q ≤ s.card) :
    ∃ m, kthLargest s q = some m := by
  have hlt : q - 1 < (s.sort (· ≥ ·)).length := by
    rw [Multiset.length_sort]
    omega
  exact ⟨_, List.getElem?_eq_getElem hlt⟩

/-- At most the `q`-th largest is what at least `q` elements reach. -/
theorem le_kthLargest_iff {s : Multiset α} {q : Nat} (hq : 0 < q) {m : α}
    (hm : kthLargest s q = some m) (a : α) : a ≤ m ↔ q ≤ s.countP (a ≤ ·) := by
  have hcount : s.countP (a ≤ ·) = (s.sort (· ≥ ·)).countP (a ≤ ·) := by
    conv_lhs => rw [← s.sort_eq (· ≥ ·)]
    exact Multiset.coe_countP _ _
  rw [le_getElem?_iff (s.pairwise_sort (· ≥ ·)) hm, hcount]
  omega

end

/-! ## Scanning for a threshold -/

/-- A scan of a range that remembers the last index with a property. -/
theorem scan_eq_some {p : Nat → Bool} {start n id : Nat}
    (h : (List.range' start n).foldl (fun id i => if p i then some i else id) none = some id) :
    start ≤ id ∧ id < start + n ∧ p id = true ∧
      ∀ j, id < j → j < start + n → p j = false := by
  induction n with
  | zero => cases h
  | succ n ih =>
    rw [List.range'_1_concat, List.foldl_append, List.foldl_cons, List.foldl_nil] at h
    split at h
    · next hp =>
      cases h
      exact ⟨by omega, by omega, hp, fun j h1 h2 => by omega⟩
    · next hp =>
      obtain ⟨h1, h2, h3, h4⟩ := ih h
      refine ⟨h1, by omega, h3, fun j hj hj' => ?_⟩
      rcases Nat.lt_or_ge j (start + n) with hlt | hge
      · exact h4 j hj hlt
      · obtain rfl : j = start + n := by omega
        exact Bool.eq_false_iff.2 hp

/-- A scan that remembers nothing has seen nothing. -/
theorem scan_eq_none {p : Nat → Bool} {start n : Nat}
    (h : (List.range' start n).foldl (fun id i => if p i then some i else id) none = none) :
    ∀ j, start ≤ j → j < start + n → p j = false := by
  induction n with
  | zero => exact fun j h1 h2 => absurd h1 (by omega)
  | succ n ih =>
    rw [List.range'_1_concat, List.foldl_append, List.foldl_cons, List.foldl_nil] at h
    split at h
    · cases h
    · next hp =>
      intro j h1 h2
      rcases Nat.lt_or_ge j (start + n) with hlt | hge
      · exact ih h j h1 hlt
      · obtain rfl : j = start + n := by omega
        exact Bool.eq_false_iff.2 hp

/-- If the indices past `c` that pass are those up to `m`, the scan of those up to `last` ends at
the smaller of `m` and `last`. -/
theorem scan_threshold {p : Nat → Bool} {c last m : Nat}
    (hp : ∀ i, c < i → (p i = true ↔ i ≤ m)) :
    (List.range' (c + 1) (last - c)).foldl (fun id i => if p i then some i else id) none =
      if c < min last m then some (min last m) else none := by
  cases hscan : (List.range' (c + 1) (last - c)).foldl
      (fun id i => if p i then some i else id) none with
  | none =>
    rw [if_neg]
    intro hlt
    have hno := scan_eq_none hscan (min last m) (by omega) (by omega)
    rw [(hp _ hlt).2 (Nat.min_le_right _ _)] at hno
    cases hno
  | some id =>
    obtain ⟨h1, h2, h3, h4⟩ := scan_eq_some hscan
    have hid := (hp id h1).1 h3
    have hmax : id = min last m := by
      by_contra hne
      have hno := h4 (min last m) (by omega) (by omega)
      rw [(hp _ (by omega)).2 (Nat.min_le_right _ _)] at hno
      cases hno
    rw [← hmax, if_pos (by omega)]

end ToFTDS
