import Mathlib.Data.List.Nodup
import Mathlib.Algebra.GroupWithZero.Nat
import Mathlib.Order.Lattice

/-!
# Sorted maps and sets

A `SortedMap` is a list of entries in strictly ascending order of their keys, and so has each key at
most once; going through it is going through the keys in order. A `SortedSet` is a sorted map
without values. `find?` and membership describe what `insert` and `erase` do, and `total` sums a
quantity over the values: what an insertion or a removal changes in the sum is the one value that
comes or goes (`total_insert_of_none`, `total_insert_of_some`, `total_erase`).
-/

namespace ToFTDS

variable {κ ν : Type} [LinearOrder κ]

/-- Entries in strictly ascending order of their keys. -/
structure SortedMap (κ ν : Type) [LinearOrder κ] where
  entries : List (κ × ν)
  sorted : entries.Pairwise fun a b => a.1 < b.1

/-- Puts an entry in its place, over any other with its key. -/
def insertEntry (k : κ) (x : ν) : List (κ × ν) → List (κ × ν)
  | [] => [(k, x)]
  | e :: rest =>
    if k < e.1 then (k, x) :: e :: rest
    else if k = e.1 then (k, x) :: rest
    else e :: insertEntry k x rest

/-- After an insertion there is the new entry, and there are old ones. -/
theorem mem_insertEntry {k : κ} {x : ν} {e : κ × ν} {l : List (κ × ν)}
    (h : e ∈ insertEntry k x l) : e = (k, x) ∨ e ∈ l := by
  induction l with
  | nil => exact .inl (List.mem_singleton.1 h)
  | cons e' l ih =>
    unfold insertEntry at h
    split at h
    · exact List.mem_cons.1 h
    · split at h
      · exact (List.mem_cons.1 h).imp id (List.mem_cons_of_mem _)
      · rcases List.mem_cons.1 h with rfl | h
        · exact .inr List.mem_cons_self
        · exact (ih h).imp id (List.mem_cons_of_mem _)

/-- An insertion keeps the entries in order. -/
theorem sorted_insertEntry (k : κ) (x : ν) {l : List (κ × ν)}
    (hl : l.Pairwise fun a b => a.1 < b.1) :
    (insertEntry k x l).Pairwise fun a b => a.1 < b.1 := by
  induction l with
  | nil => exact List.pairwise_singleton _ _
  | cons e l ih =>
    obtain ⟨he, hl'⟩ := List.pairwise_cons.1 hl
    unfold insertEntry
    split
    · next hlt =>
      refine List.pairwise_cons.2 ⟨fun e' he' => ?_, hl⟩
      rcases List.mem_cons.1 he' with rfl | he'
      · exact hlt
      · exact lt_trans hlt (he e' he')
    · split
      · next heq => exact List.pairwise_cons.2 ⟨fun e' he' => heq ▸ he e' he', hl'⟩
      · next hnlt hne =>
        refine List.pairwise_cons.2 ⟨fun e' he' => ?_, ih hl'⟩
        rcases mem_insertEntry he' with rfl | he'
        · exact lt_of_le_of_ne (not_lt.1 hnlt) (Ne.symm hne)
        · exact he e' he'

namespace SortedMap

/-- No entries. -/
def empty : SortedMap κ ν := ⟨[], List.Pairwise.nil⟩

instance : EmptyCollection (SortedMap κ ν) := ⟨empty⟩

/-- The value under a key. -/
def find? (m : SortedMap κ ν) (k : κ) : Option ν := (m.entries.find? (·.1 = k)).map Prod.snd

/-- There is an entry with the key. -/
def contains (m : SortedMap κ ν) (k : κ) : Bool := (m.find? k).isSome

/-- Inserts a value under a key, or assigns it. -/
def insert (m : SortedMap κ ν) (k : κ) (x : ν) : SortedMap κ ν :=
  ⟨insertEntry k x m.entries, sorted_insertEntry k x m.sorted⟩

/-- Removes the entry with the key, if there is one. -/
def erase (m : SortedMap κ ν) (k : κ) : SortedMap κ ν :=
  ⟨m.entries.filter (·.1 ≠ k), m.sorted.filter _⟩

/-- The keys in order. -/
def keys (m : SortedMap κ ν) : List κ := m.entries.map Prod.fst

/-- The sum of a quantity over the values. -/
def total (m : SortedMap κ ν) (h : ν → Nat) : Nat := (m.entries.map fun e => h e.2).sum

variable (m : SortedMap κ ν)

@[simp] theorem find?_empty (k : κ) : (∅ : SortedMap κ ν).find? k = none := rfl

@[simp] theorem total_empty (h : ν → Nat) : (∅ : SortedMap κ ν).total h = 0 := rfl

/-- An entry is what is found under its key. -/
theorem mem_entries {k : κ} {x : ν} : (k, x) ∈ m.entries ↔ m.find? k = some x := by
  obtain ⟨l, hl⟩ := m
  simp only [find?]
  induction l with
  | nil => simp
  | cons e l ih =>
    obtain ⟨he, hl⟩ := List.pairwise_cons.1 hl
    by_cases hk : e.1 = k
    · rw [List.find?_cons_of_pos (by simpa using hk), List.mem_cons]
      have hnot : (k, x) ∉ l := fun hmem => absurd (he _ hmem) (by rw [hk]; exact lt_irrefl k)
      rw [or_iff_left hnot, Option.map_some, Option.some.injEq]
      subst hk
      exact ⟨fun h => by rw [← h], fun h => by rw [← h]⟩
    · rw [List.find?_cons_of_neg (by simpa using hk), List.mem_cons, ← ih hl, or_iff_right]
      rintro rfl
      exact hk rfl

/-- An entry is determined by its key. -/
theorem eq_of_mem_entries {e e' : κ × ν} (he : e ∈ m.entries) (he' : e' ∈ m.entries)
    (hkey : e.1 = e'.1) : e = e' := by
  have hfind := m.mem_entries.1 he
  rw [hkey, m.mem_entries.1 he'] at hfind
  exact Prod.ext hkey (Option.some.inj hfind).symm

/-- A lookup after an insertion finds the new value under its key. -/
theorem find?_insert (k k' : κ) (x : ν) :
    (m.insert k x).find? k' = if k' = k then some x else m.find? k' := by
  obtain ⟨l, hl⟩ := m
  simp only [find?, insert]
  induction l with
  | nil => by_cases h : k' = k <;> simp [insertEntry, h, eq_comm]
  | cons e l ih =>
    unfold insertEntry
    split
    · by_cases h : k = k' <;> simp [h, eq_comm]
    · split
      · next heq =>
        by_cases h : k' = k
        · simp [h]
        · have h' : ¬ k = k' := fun heq => h heq.symm
          rw [List.find?_cons_of_neg (by simpa using h'),
            List.find?_cons_of_neg (by simpa [← heq] using h'), if_neg h]
      · next hne =>
        by_cases h : e.1 = k'
        · have h' : ¬ k' = k := fun heq => hne (heq ▸ h.symm)
          rw [List.find?_cons_of_pos (by simpa using h), List.find?_cons_of_pos (by simpa using h),
            if_neg h']
        · rw [List.find?_cons_of_neg (by simpa using h), List.find?_cons_of_neg (by simpa using h)]
          exact ih (List.pairwise_cons.1 hl).2

@[simp] theorem find?_insert_self (k : κ) (x : ν) : (m.insert k x).find? k = some x := by
  rw [find?_insert, if_pos rfl]

/-- An insertion leaves the other keys alone. -/
theorem find?_insert_of_ne {k k' : κ} (h : k' ≠ k) (x : ν) :
    (m.insert k x).find? k' = m.find? k' := by
  rw [find?_insert, if_neg h]

/-- An insertion adds its key. -/
theorem contains_insert (k k' : κ) (x : ν) :
    (m.insert k x).contains k' = (decide (k' = k) || m.contains k') := by
  unfold contains
  rw [find?_insert]
  by_cases h : k' = k <;> simp [h]

/-- A removal takes away what is under its key. -/
theorem find?_erase (k k' : κ) :
    (m.erase k).find? k' = if k' = k then none else m.find? k' := by
  simp only [find?, erase, List.find?_filter]
  split
  · next h =>
    subst h
    simp
  · next h =>
    congr 2
    funext e
    by_cases he : e.1 = k'
    · simp [he, h]
    · simp [he]

/-- What is found is at the head or behind it, where the keys are larger. -/
theorem find?_cons_cases {e : κ × ν} {l : List (κ × ν)}
    (hl : (e :: l).Pairwise fun a b => a.1 < b.1) {k : κ} {y : ν}
    (hk : ((e :: l).find? (·.1 = k)).map Prod.snd = some y) :
    e = (k, y) ∨ e.1 < k ∧ (l.find? (·.1 = k)).map Prod.snd = some y := by
  obtain ⟨e', hfind, rfl⟩ := Option.map_eq_some_iff.1 hk
  have hkey : e'.1 = k := by simpa using List.find?_some hfind
  rcases List.mem_cons.1 (List.mem_of_find?_eq_some hfind) with rfl | hmem
  · exact .inl (Prod.ext hkey rfl)
  · have hlt : e.1 < k := hkey ▸ (List.pairwise_cons.1 hl).1 e' hmem
    rw [List.find?_cons_of_neg (by simpa using hlt.ne)] at hk
    exact .inr ⟨hlt, hk⟩

/-- Assigning the value that is there changes nothing. -/
theorem insert_of_find? {k : κ} {x : ν} (hk : m.find? k = some x) : m.insert k x = m := by
  obtain ⟨l, hl⟩ := m
  simp only [find?] at hk
  simp only [insert, mk.injEq]
  induction l with
  | nil => cases hk
  | cons e l ih =>
    unfold insertEntry
    rcases find?_cons_cases hl hk with rfl | ⟨hlt, hk⟩
    · rw [if_neg (lt_irrefl k), if_pos rfl]
    · rw [if_neg (lt_asymm hlt), if_neg hlt.ne', ih (List.pairwise_cons.1 hl).2 hk]

/-! ## Keys -/

/-- The keys are those that have a value. -/
theorem mem_keys {k : κ} : k ∈ m.keys ↔ m.contains k = true := by
  simp only [keys, List.mem_map, contains, Option.isSome_iff_exists, ← mem_entries]
  constructor
  · rintro ⟨e, he, rfl⟩
    exact ⟨e.2, he⟩
  · rintro ⟨x, hx⟩
    exact ⟨_, hx, rfl⟩

/-- No key is there twice. -/
theorem nodup_keys : m.keys.Nodup := by
  rw [List.Nodup, keys, List.pairwise_map]
  exact m.sorted.imp fun h => ne_of_lt h

@[simp] theorem length_keys : m.keys.length = m.entries.length := List.length_map _

/-- Assigning another value leaves the keys alone. -/
theorem keys_insert_of_find? {k : κ} {y : ν} (hk : m.find? k = some y) (x : ν) :
    (m.insert k x).keys = m.keys := by
  obtain ⟨l, hl⟩ := m
  simp only [find?] at hk
  simp only [keys, insert]
  induction l with
  | nil => cases hk
  | cons e l ih =>
    unfold insertEntry
    rcases find?_cons_cases hl hk with rfl | ⟨hlt, hk⟩
    · rw [if_neg (lt_irrefl k), if_pos rfl, List.map_cons, List.map_cons]
    · rw [if_neg (lt_asymm hlt), if_neg hlt.ne', List.map_cons, List.map_cons,
        ih (List.pairwise_cons.1 hl).2 hk]

/-- A new key is put somewhere between the others. -/
theorem keys_insert_perm {k : κ} (hk : m.find? k = none) (x : ν) :
    (m.insert k x).keys.Perm (k :: m.keys) := by
  refine (List.perm_ext_iff_of_nodup (nodup_keys _) (List.nodup_cons.2 ⟨?_, m.nodup_keys⟩)).2
    fun k' => ?_
  · rw [mem_keys, contains, hk]
    exact nofun
  · simp [mem_keys, contains_insert]

/-- A removal leaves the other keys. -/
theorem keys_erase (k : κ) : (m.erase k).keys = m.keys.filter (· ≠ k) := by
  rw [keys, keys, List.filter_map]
  rfl

/-- No entry is there twice. -/
theorem nodup_entries : m.entries.Nodup := List.Nodup.of_map Prod.fst m.nodup_keys

/-- Of the entries one passes a test if all that pass it have its key. -/
theorem filter_eq_singleton {p : κ × ν → Bool} {k : κ} {x : ν} (hk : m.find? k = some x)
    (hp : p (k, x) = true) (hkey : ∀ k' x', m.find? k' = some x' → p (k', x') = true → k' = k) :
    m.entries.filter p = [(k, x)] := by
  have hmem : ∀ e, e ∈ m.entries.filter p ↔ e ∈ [(k, x)] := by
    intro e
    rw [List.mem_filter, List.mem_singleton]
    constructor
    · rintro ⟨he, hpe⟩
      exact m.eq_of_mem_entries he (m.mem_entries.2 hk) (hkey e.1 e.2 (m.mem_entries.1 he) hpe)
    · rintro rfl
      exact ⟨m.mem_entries.2 hk, hp⟩
  exact List.perm_singleton.1 ((List.perm_ext_iff_of_nodup (m.nodup_entries.filter p)
    (List.nodup_singleton _)).2 hmem)

/-! ## Sums over the values -/

/-- A value under a new key is added to the sum. -/
theorem total_insert_of_none {k : κ} (hk : m.find? k = none) (x : ν) (h : ν → Nat) :
    (m.insert k x).total h = m.total h + h x := by
  obtain ⟨l, hl⟩ := m
  simp only [find?, total, insert] at hk ⊢
  induction l with
  | nil => simp [insertEntry]
  | cons e l ih =>
    have hne : ¬ e.1 = k := by
      rintro rfl
      simp at hk
    rw [List.find?_cons_of_neg (by simpa using hne)] at hk
    unfold insertEntry
    split
    · simp only [List.map_cons, List.sum_cons]
      omega
    · rw [if_neg (Ne.symm hne)]
      simp only [List.map_cons, List.sum_cons, ih (List.pairwise_cons.1 hl).2 hk]
      omega

/-- A value under an old key replaces the one there in the sum. -/
theorem total_insert_of_some {k : κ} {y : ν} (hk : m.find? k = some y) (x : ν) (h : ν → Nat) :
    (m.insert k x).total h + h y = m.total h + h x := by
  obtain ⟨l, hl⟩ := m
  simp only [find?, total, insert] at hk ⊢
  induction l with
  | nil => cases hk
  | cons e l ih =>
    unfold insertEntry
    rcases find?_cons_cases hl hk with rfl | ⟨hlt, hk⟩
    · rw [if_neg (lt_irrefl k), if_pos rfl]
      simp only [List.map_cons, List.sum_cons]
      omega
    · rw [if_neg (lt_asymm hlt), if_neg hlt.ne']
      have := ih (List.pairwise_cons.1 hl).2 hk
      simp only [List.map_cons, List.sum_cons]
      omega

/-- A removal takes one value from the sum. -/
theorem total_erase {k : κ} {y : ν} (hk : m.find? k = some y) (h : ν → Nat) :
    (m.erase k).total h + h y = m.total h := by
  obtain ⟨l, hl⟩ := m
  simp only [find?, total, erase] at hk ⊢
  induction l with
  | nil => cases hk
  | cons e l ih =>
    obtain ⟨he, hl'⟩ := List.pairwise_cons.1 hl
    rcases find?_cons_cases hl hk with rfl | ⟨hlt, hk⟩
    · have hall : l.filter (fun e' => e'.1 ≠ k) = l :=
        List.filter_eq_self.2 fun e' he' => decide_eq_true (he e' he').ne'
      rw [List.filter_cons_of_neg (by simp), hall]
      simp only [List.map_cons, List.sum_cons]
      omega
    · have := ih hl' hk
      rw [List.filter_cons_of_pos (by simpa using hlt.ne)]
      simp only [List.map_cons, List.sum_cons]
      omega

/-- A sum is 0 if every value counts for nothing. -/
theorem total_eq_zero {h : ν → Nat} :
    m.total h = 0 ↔ ∀ k x, m.find? k = some x → h x = 0 := by
  simp only [total, List.sum_eq_zero_iff_forall_eq_nat, List.mem_map, ← mem_entries]
  constructor
  · exact fun hz k x hmem => hz _ ⟨(k, x), hmem, rfl⟩
  · rintro hz - ⟨e, he, rfl⟩
    exact hz e.1 e.2 he

/-- A sum is 1 if one value counts once and the others for nothing. -/
theorem exists_of_total_eq_one {h : ν → Nat} (hone : m.total h = 1) :
    ∃ k x, m.find? k = some x ∧ h x = 1 ∧ ∀ k' x', m.find? k' = some x' → h x' ≠ 0 → k' = k := by
  obtain ⟨k, x, hk, hx⟩ : ∃ k x, m.find? k = some x ∧ h x ≠ 0 := by
    by_contra hnone
    have hzero : m.total h = 0 :=
      m.total_eq_zero.2 fun k x hk => by_contra fun hx => hnone ⟨k, x, hk, hx⟩
    omega
  have hrest := m.total_erase hk h
  have hzero : (m.erase k).total h = 0 := by omega
  refine ⟨k, x, hk, by omega, fun k' x' hk' hx' => by_contra fun hne => hx' ?_⟩
  exact (m.erase k).total_eq_zero.1 hzero k' x' (by rw [find?_erase, if_neg hne]; exact hk')

end SortedMap

/-! ## Sets -/

/-- Elements in strictly ascending order. -/
abbrev SortedSet (κ : Type) [LinearOrder κ] : Type := SortedMap κ Unit

namespace SortedSet

/-- The elements in order. -/
def toList (s : SortedSet κ) : List κ := s.entries.map Prod.fst

/-- Adds an element. -/
def add (s : SortedSet κ) (a : κ) : SortedSet κ := s.insert a ()

variable (s : SortedSet κ)

@[simp] theorem contains_add (a b : κ) :
    (s.add a).contains b = (decide (b = a) || s.contains b) := s.contains_insert a b ()

@[simp] theorem contains_erase (a b : κ) :
    (s.erase a).contains b = (!decide (b = a) && s.contains b) := by
  rw [SortedMap.contains, SortedMap.find?_erase, SortedMap.contains]
  by_cases h : b = a <;> simp [h]

@[simp] theorem contains_empty (a : κ) : (∅ : SortedSet κ).contains a = false := rfl

/-- What has been added to a set is in it. -/
theorem contains_foldl_add (l : List κ) (b : κ) :
    (l.foldl add s).contains b = (decide (b ∈ l) || s.contains b) := by
  induction l generalizing s with
  | nil => simp
  | cons a l ih =>
    rw [List.foldl_cons, ih, contains_add, ← Bool.or_assoc]
    congr 1
    by_cases h : b = a <;> simp [h]

/-- The list of a set has its elements. -/
theorem mem_toList (a : κ) : a ∈ s.toList ↔ s.contains a = true := s.mem_keys

/-- A set has no entries if it contains nothing. -/
theorem isEmpty_entries : s.entries.isEmpty = true ↔ ∀ a, s.contains a = false := by
  rw [List.isEmpty_iff]
  constructor
  · intro h a
    rw [SortedMap.contains, SortedMap.find?, h]
    rfl
  · intro h
    refine List.eq_nil_iff_forall_not_mem.2 fun e he => ?_
    have := (s.mem_toList e.1).1 (List.mem_map_of_mem he)
    simp [h] at this

/-- No element is in the list twice. -/
theorem nodup_toList : s.toList.Nodup := s.nodup_keys

/-- Elements that are new and different from each other are all added. -/
theorem toList_foldl_add_perm {l : List κ} (hl : l.Nodup) (hnew : ∀ a ∈ l, s.contains a = false) :
    (l.foldl add s).toList.Perm (l ++ s.toList) := by
  have hnodup : (l ++ s.toList).Nodup := by
    refine List.nodup_append.2 ⟨hl, s.nodup_toList, fun a ha b hb heq => ?_⟩
    rw [← heq, mem_toList, hnew a ha] at hb
    cases hb
  refine (List.perm_ext_iff_of_nodup (nodup_toList _) hnodup).2 fun a => ?_
  simp [mem_toList, contains_foldl_add]

/-- Each element is there once. -/
theorem count_toList (a : κ) : s.toList.count a = if s.contains a then 1 else 0 := by
  rw [s.nodup_toList.count]
  exact if_congr (s.mem_toList a) rfl rfl

end SortedSet

end ToFTDS
