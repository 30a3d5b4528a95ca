import Mathlib.Data.List.Basic

/-!
# Lists that agree up to an index, and splicing

`AgreeTo i l l'` says that two lists both reach index `i` and have the same elements up to it. It is
a partial equivalence, it is inherited by smaller indices, and it does not see what a list gains at
its end.

`splice s es l` is how a replica takes over the elements `es` at position `s`: a list that has them
there already is left alone, with all that follows them, and otherwise everything from `s` on is
replaced. Splicing a slice of `l'` into a list that agrees with `l'` in front of the slice keeps
every agreement with `l'` and adds the slice to it (`AgreeTo.splice`, `agreeTo_splice_end`).
-/

namespace ToFTDS

variable {α : Type}

/-- Both lists reach index `i` and are the same up to it. -/
def AgreeTo (i : Nat) (l l' : List α) : Prop := i < l.length ∧ ∀ j ≤ i, l[j]? = l'[j]?

namespace AgreeTo

variable {i j : Nat} {l l' l'' : List α}

/-- A list agrees with itself up to each of its indices. -/
theorem refl (h : i < l.length) : AgreeTo i l l := ⟨h, fun _ _ => rfl⟩

/-- Agreeing up to an index, the first list has this index. -/
theorem lt_left (h : AgreeTo i l l') : i < l.length := h.1

/-- Agreeing up to an index, the second list has this index. -/
theorem lt_right (h : AgreeTo i l l') : i < l'.length := by
  by_contra hc
  have h1 := h.2 i (Nat.le_refl i)
  rw [List.getElem?_eq_getElem h.1, List.getElem?_eq_none (by omega)] at h1
  cases h1

/-- Lists that agree have the same elements at the indices up to there. -/
theorem getElem?_eq (h : AgreeTo i l l') (hj : j ≤ i) : l[j]? = l'[j]? := h.2 j hj

/-- Agreement is symmetric. -/
theorem symm (h : AgreeTo i l l') : AgreeTo i l' l :=
  ⟨h.lt_right, fun j hj => (h.2 j hj).symm⟩

/-- Agreement up to one index is transitive. -/
theorem trans (h : AgreeTo i l l') (h' : AgreeTo i l' l'') : AgreeTo i l l'' :=
  ⟨h.1, fun j hj => (h.2 j hj).trans (h'.2 j hj)⟩

/-- Lists that agree up to an index agree up to every smaller one. -/
theorem mono (h : AgreeTo i l l') (hj : j ≤ i) : AgreeTo j l l' :=
  ⟨Nat.lt_of_le_of_lt hj h.1, fun k hk => h.2 k (Nat.le_trans hk hj)⟩

/-- Lists that agree up to an index have the same beginning. -/
theorem take_eq (h : AgreeTo i l l') : l.take (i + 1) = l'.take (i + 1) := by
  refine List.ext_getElem? fun j => ?_
  rw [List.getElem?_take, List.getElem?_take]
  split
  · next hj => exact h.2 j (Nat.le_of_lt_succ hj)
  · rfl

end AgreeTo

/-- A prefix agrees with the whole wherever it reaches. -/
theorem agreeTo_of_isPrefix {i : Nat} {l l' : List α} (h : l <+: l') (hi : i < l.length) :
    AgreeTo i l l' := by
  refine ⟨hi, fun j hj => ?_⟩
  obtain ⟨t, rfl⟩ := h
  rw [List.getElem?_append_left (by omega)]

/-- Agreement with a list is agreement with any extension of it, up to where the list reaches. -/
theorem agreeTo_extend {i : Nat} {l l' l'' : List α} (h : l' <+: l'') (hi : i < l'.length) :
    AgreeTo i l l'' ↔ AgreeTo i l l' :=
  ⟨fun ha => ha.trans (agreeTo_of_isPrefix h hi).symm,
    fun ha => ha.trans (agreeTo_of_isPrefix h hi)⟩

/-- A list agrees with its own beginning. -/
theorem agreeTo_take {i n : Nat} {l : List α} (hi : i < n) (hl : i < l.length) :
    AgreeTo i (l.take n) l :=
  agreeTo_of_isPrefix (List.take_prefix n l) (by rw [List.length_take]; omega)

section
variable {i p : Nat} {es l l' : List α}

/-- `es` is the part of `l'` behind index `p`, and `l'` has something at `p`. -/
structure SliceOf (p : Nat) (es l' : List α) : Prop where
  bound : p + es.length < l'.length
  eq : es = (l'.drop (p + 1)).take es.length

namespace SliceOf

/-- The elements of a slice are those of the list behind the index `p`. -/
theorem getElem?_eq (h : SliceOf p es l') (hi : i < es.length) : es[i]? = l'[p + 1 + i]? := by
  have h1 := congrArg (·[i]?) h.eq
  simp only [List.getElem?_take, if_pos hi, List.getElem?_drop] at h1
  exact h1

/-- The elements of a slice are elements of the list. -/
theorem mem (h : SliceOf p es l') {a : α} (ha : a ∈ es) : a ∈ l' := by
  rw [h.eq] at ha
  exact List.mem_of_mem_drop (List.mem_of_mem_take ha)

/-- A slice of a list is a slice of its extensions. -/
theorem extend {l'' : List α} (h : SliceOf p es l') (hp : l' <+: l'') : SliceOf p es l'' := by
  obtain ⟨t, rfl⟩ := hp
  have hb := h.bound
  refine ⟨by rw [List.length_append]; omega, ?_⟩
  rw [List.drop_append_of_le_length (by omega), List.take_append_of_le_length, ← h.eq]
  rw [List.length_drop]
  omega

end SliceOf

/-- A list that agrees with `l'` past the slice already has the slice. -/
theorem AgreeTo.prefix_drop (h : AgreeTo i l l') (hsl : SliceOf p es l')
    (hi : p + es.length ≤ i) : es <+: l.drop (p + 1) := by
  rw [List.prefix_iff_getElem?]
  intro j hj
  rw [List.getElem?_drop, h.getElem?_eq (by omega), ← hsl.getElem?_eq hj,
    List.getElem?_eq_getElem hj]

end

/-- `es` taken over at position `s`: a list that has `es` there keeps what follows, and any other
list ends with `es`. -/
def splice [DecidableEq α] (s : Nat) (es l : List α) : List α :=
  if es <+: l.drop s then l else l.take s ++ es

section
variable [DecidableEq α] {i p s : Nat} {es l l' : List α}

/-- Elements that are there already change nothing. -/
theorem splice_of_isPrefix (h : es <+: l.drop s) : splice s es l = l := if_pos h

/-- Elements that are not all there replace the rest of the list. -/
theorem splice_of_not_isPrefix (h : ¬ es <+: l.drop s) : splice s es l = l.take s ++ es := if_neg h

@[simp] theorem splice_nil : splice s [] l = l := splice_of_isPrefix List.nil_prefix

/-- At the end of the list the slice is appended. -/
@[simp] theorem splice_length (es l : List α) : splice l.length es l = l ++ es := by
  unfold splice
  split
  · next h =>
    rw [List.drop_length, List.prefix_nil] at h
    rw [h, List.append_nil]
  · rw [List.take_length]

/-- An element that is already there can be passed over. -/
theorem splice_cons_of_getElem? {e : α} (h : l[s]? = some e) :
    splice s (e :: es) l = splice (s + 1) es l := by
  obtain ⟨hlt, rfl⟩ := List.getElem?_eq_some_iff.1 h
  have hiff : l[s] :: es <+: l.drop s ↔ es <+: l.drop (s + 1) := by
    rw [List.drop_eq_getElem_cons hlt, List.cons_prefix_cons]
    exact and_iff_right rfl
  by_cases hp : es <+: l.drop (s + 1)
  · rw [splice_of_isPrefix hp, splice_of_isPrefix (hiff.2 hp)]
  · rw [splice_of_not_isPrefix hp, splice_of_not_isPrefix (mt hiff.1 hp),
      List.take_succ_eq_append_getElem hlt, List.append_assoc]
    rfl

/-- Up to the end of the slice, the result is the old beginning and the slice. -/
theorem take_splice (es : List α) (hs : s ≤ l.length) :
    (splice s es l).take (s + es.length) = l.take s ++ es := by
  by_cases h : es <+: l.drop s
  · rw [splice_of_isPrefix h, List.take_add, ← List.prefix_iff_eq_take.1 h]
  · rw [splice_of_not_isPrefix h, List.take_of_length_le]
    simp [Nat.min_eq_left hs]

/-- The result reaches the end of the slice. -/
theorem length_splice_le (es : List α) (hs : s ≤ l.length) :
    s + es.length ≤ (splice s es l).length := by
  have h := congrArg List.length (take_splice es hs)
  simp only [List.length_take, List.length_append, Nat.min_eq_left hs] at h
  omega

/-- In front of the slice nothing changes. -/
theorem getElem?_splice_of_lt (hs : s ≤ l.length) (hi : i < s) :
    (splice s es l)[i]? = l[i]? := by
  have h := congrArg (·[i]?) (take_splice es hs)
  simp only [List.getElem?_take] at h
  rw [if_pos (by omega), List.getElem?_append_left (by rw [List.length_take]; omega),
    List.getElem?_take, if_pos hi] at h
  exact h

/-- Where the slice is, the result has the slice. -/
theorem getElem?_splice_slice (hs : s ≤ l.length) (hi : i < es.length) :
    (splice s es l)[s + i]? = es[i]? := by
  have h := congrArg (·[s + i]?) (take_splice es hs)
  simp only [List.getElem?_take] at h
  rw [if_pos (by omega), List.getElem?_append_right (by rw [List.length_take]; omega),
    List.length_take, Nat.min_eq_left hs, Nat.add_sub_cancel_left] at h
  exact h

/-- An element of the result is an old one or one of the slice. -/
theorem mem_splice {a : α} (h : a ∈ splice s es l) : a ∈ l ∨ a ∈ es := by
  unfold splice at h
  split at h
  · exact .inl h
  · rcases List.mem_append.1 h with h | h
    · exact .inl (List.mem_of_mem_take h)
    · exact .inr h

/-- What relates the elements of the list and those of the slice, and what stands in front of the
slice to the slice, relates the elements of the result. -/
theorem pairwise_splice {R : α → α → Prop} (hl : l.Pairwise R) (hes : es.Pairwise R)
    (hfront : ∀ a ∈ l.take s, ∀ b ∈ es, R a b) : (splice s es l).Pairwise R := by
  unfold splice
  split
  · exact hl
  · exact List.pairwise_append.2 ⟨hl.sublist (List.take_sublist s l), hes, hfront⟩

/-- A result that has lost something ends with the slice. -/
theorem splice_eq_or_length (es : List α) (hs : s ≤ l.length) :
    splice s es l = l ∨ (splice s es l).length = s + es.length := by
  by_cases h : es <+: l.drop s
  · exact .inl (splice_of_isPrefix h)
  · right
    rw [splice_of_not_isPrefix h, List.length_append, List.length_take, Nat.min_eq_left hs]

/-- After a slice of `l'` is spliced behind a common beginning, the lists agree to its end. -/
theorem agreeTo_splice_end (h : AgreeTo p l l') (hsl : SliceOf p es l') :
    AgreeTo (p + es.length) (splice (p + 1) es l) l' := by
  have hp : p + 1 ≤ l.length := h.lt_left
  have hlen := length_splice_le es hp
  refine ⟨by omega, fun j hj => ?_⟩
  rcases Nat.lt_or_ge j (p + 1) with hlt | hge
  · rw [getElem?_splice_of_lt hp hlt, h.getElem?_eq (by omega)]
  · obtain ⟨k, rfl⟩ := Nat.exists_eq_add_of_le hge
    rw [getElem?_splice_slice hp (by omega), hsl.getElem?_eq (by omega)]

/-- Splicing a slice of `l'` behind a common beginning keeps every agreement with `l'`. -/
theorem AgreeTo.splice (hi : AgreeTo i l l') (hp : AgreeTo p l l') (hsl : SliceOf p es l') :
    AgreeTo i (splice (p + 1) es l) l' := by
  rcases Nat.le_total i (p + es.length) with hle | hge
  · exact (agreeTo_splice_end hp hsl).mono hle
  · rw [splice_of_isPrefix (hi.prefix_drop hsl hge)]
    exact hi

/-- A list does not change when a slice of itself is spliced into it. -/
theorem splice_self (hsl : SliceOf p es l) : ToFTDS.splice (p + 1) es l = l := by
  have hb := hsl.bound
  exact splice_of_isPrefix ((AgreeTo.refl (i := p + es.length) hb).prefix_drop hsl (Nat.le_refl _))

/-- Splicing again changes nothing. -/
theorem splice_idem (es : List α) (hs : s ≤ l.length) :
    splice s es (splice s es l) = splice s es l := by
  refine splice_of_isPrefix (List.prefix_iff_eq_take.2 ?_)
  have h := congrArg (List.drop s) (take_splice es hs)
  have hfront : (l.take s).drop s = [] := List.drop_eq_nil_of_le (List.length_take_le _ _)
  rw [List.drop_take, Nat.add_sub_cancel_left, List.drop_append, hfront, List.length_take,
    Nat.min_eq_left hs, Nat.sub_self, List.drop_zero, List.nil_append] at h
  exact h.symm

/-- The number of elements at the front of `es` that `l` has in the same places. -/
def commonPrefix : List α → List α → Nat
  | e :: es, a :: l => if e = a then commonPrefix es l + 1 else 0
  | _, _ => 0

/-- The common beginning is the same in both lists. -/
theorem take_commonPrefix (es l : List α) :
    es.take (commonPrefix es l) = l.take (commonPrefix es l) := by
  induction es generalizing l with
  | nil => cases l <;> rfl
  | cons e es ih =>
    cases l with
    | nil => rfl
    | cons a l =>
      by_cases h : e = a
      · rw [commonPrefix, if_pos h, List.take_succ_cons, List.take_succ_cons, ih, h]
      · rw [commonPrefix, if_neg h]
        rfl

/-- All elements are common if the list begins with them. -/
theorem commonPrefix_eq_length {es l : List α} : commonPrefix es l = es.length ↔ es <+: l := by
  induction es generalizing l with
  | nil => cases l <;> simp [commonPrefix]
  | cons e es ih =>
    cases l with
    | nil => simp [commonPrefix]
    | cons a l =>
      by_cases h : e = a
      · rw [commonPrefix, if_pos h, List.cons_prefix_cons, List.length_cons,
          Nat.add_right_cancel_iff,
          ih, and_iff_right h]
      · rw [commonPrefix, if_neg h, List.cons_prefix_cons, List.length_cons]
        exact iff_of_false (by omega) fun hp => h hp.1

/-- The elements that are there already are passed over, and if any are left they replace all that
follows. -/
theorem splice_eq_commonPrefix (s : Nat) (es l : List α) :
    splice s es l =
      if commonPrefix es (l.drop s) = es.length then l
      else l.take (s + commonPrefix es (l.drop s)) ++ es.drop (commonPrefix es (l.drop s)) := by
  by_cases h : es <+: l.drop s
  · rw [if_pos (commonPrefix_eq_length.2 h), splice_of_isPrefix h]
  · rw [if_neg (mt commonPrefix_eq_length.1 h), splice_of_not_isPrefix h, List.take_add,
      ← take_commonPrefix, List.append_assoc, List.take_append_drop]

/-- Splicing a slice of `l'` behind a common beginning leaves a list that already agrees to the end
of the slice, and makes any other the beginning of `l'` up to there. -/
theorem splice_slice (h : AgreeTo p l l') (hsl : SliceOf p es l') :
    AgreeTo (p + es.length) l l' ∧ splice (p + 1) es l = l ∨
      ¬ AgreeTo (p + es.length) l l' ∧ splice (p + 1) es l = l'.take (p + es.length + 1) := by
  by_cases hend : AgreeTo (p + es.length) l l'
  · exact .inl ⟨hend, splice_of_isPrefix (hend.prefix_drop hsl (Nat.le_refl _))⟩
  · right
    refine ⟨hend, ?_⟩
    have hlen := hsl.bound
    have hp : p + 1 ≤ l.length := h.lt_left
    have hag := agreeTo_splice_end h hsl
    rcases splice_eq_or_length es hp with heq | heq
    · rw [heq] at hag
      exact absurd hag hend
    · refine List.ext_getElem? fun j => ?_
      rw [List.getElem?_take]
      split
      · next hj => exact hag.getElem?_eq (by omega)
      · next hj => exact List.getElem?_eq_none (by omega)

/-- What agrees with `l'` does not change when a slice of `l'` within the agreement is
spliced in. -/
theorem splice_of_agreeTo (h : AgreeTo i l l') (hsl : SliceOf p es l') (hi : p + es.length ≤ i) :
    splice (p + 1) es l = l :=
  splice_of_isPrefix (h.prefix_drop hsl hi)

section
variable {q : Nat} {fs : List α} (hp : AgreeTo p l l') (hsl : SliceOf p es l')
  (hq : AgreeTo q l l') (hsl' : SliceOf q fs l')
include hp hsl hq hsl'

omit hp in
/-- A slice that ends no later than one that has been spliced in changes nothing any more. -/
theorem splice_splice_of_le (hle : p + es.length ≤ q + fs.length) :
    splice (p + 1) es (splice (q + 1) fs l) = splice (q + 1) fs l :=
  splice_of_agreeTo (agreeTo_splice_end hq hsl') hsl hle

/-- A slice that ends no earlier than one that has been spliced in makes up for it. -/
theorem splice_splice_of_ge (hle : p + es.length ≤ q + fs.length) :
    splice (q + 1) fs (splice (p + 1) es l) = splice (q + 1) fs l := by
  rcases splice_slice hp hsl with ⟨-, heq⟩ | ⟨hnot, heq⟩
  · rw [heq]
  have hnot' : ¬ AgreeTo (q + fs.length) l l' := fun h => hnot (h.mono hle)
  have hsplice : splice (q + 1) fs l = l'.take (q + fs.length + 1) := by
    rcases splice_slice hq hsl' with ⟨h, -⟩ | ⟨-, heq'⟩
    · exact absurd h hnot'
    · exact heq'
  rw [hsplice]
  rcases splice_slice (hq.splice hp hsl) hsl' with ⟨h, heq'⟩ | ⟨-, heq'⟩
  · -- the first one has reached as far
    rw [heq', heq]
    have hlt := h.lt_left
    rw [heq, List.length_take] at hlt
    have : p + es.length = q + fs.length := by omega
    rw [this]
  · exact heq'

/-- Two slices of `l'`, each behind a common beginning, can be spliced in either order. -/
theorem splice_comm :
    splice (q + 1) fs (splice (p + 1) es l) = splice (p + 1) es (splice (q + 1) fs l) := by
  rcases Nat.le_total (p + es.length) (q + fs.length) with hle | hge
  · rw [splice_splice_of_ge hp hsl hq hsl' hle, splice_splice_of_le hsl hq hsl' hle]
  · rw [splice_splice_of_le hsl' hp hsl hge, splice_splice_of_ge hq hsl' hp hsl hge]

end

end

end ToFTDS
