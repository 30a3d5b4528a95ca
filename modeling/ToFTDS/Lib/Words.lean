import Mathlib.Data.List.TakeWhile

/-!
# The words of a text

`extractWord blank l` is how a formatted stream reads a word from the text `l`: the blanks in front
are skipped, and the word ends in front of the next blank, where the rest of the text begins. Two
words with a blank between them are read back one after the other (`extractWord_append`,
`extractWord_blank`), and what is read never has a blank in it (`extractWord_not_blank`).
-/

namespace ToFTDS

variable {α : Type} (blank : α → Bool)

/-- The first word of a text, and the text behind it. -/
def extractWord (l : List α) : List α × List α :=
  let l := l.dropWhile blank
  (l.takeWhile (fun a => !blank a), l.dropWhile (fun a => !blank a))

/-- No blank in the text. -/
def NoBlank (l : List α) : Prop := ∀ a ∈ l, blank a = false

instance (l : List α) : Decidable (NoBlank blank l) := inferInstanceAs (Decidable (∀ a ∈ l, _))

variable {blank} {w l : List α} {a : α}

/-- A word that is extracted has no blank. -/
theorem extractWord_not_blank (l : List α) : NoBlank blank (extractWord blank l).1 := by
  intro a ha
  simpa using List.mem_takeWhile_imp ha

/-- A text that starts with a word has nothing to skip. -/
theorem dropWhile_word (hw : NoBlank blank w) (hne : w ≠ []) (l : List α) :
    (w ++ l).dropWhile blank = w ++ l := by
  obtain ⟨a, w, rfl⟩ := List.exists_cons_of_ne_nil hne
  rw [List.cons_append, List.dropWhile_cons_of_neg]
  simp [hw a List.mem_cons_self]

/-- A word with a blank behind it. -/
theorem extractWord_append (hw : NoBlank blank w) (hne : w ≠ []) (ha : blank a = true) :
    extractWord blank (w ++ a :: l) = (w, a :: l) := by
  have hw' : ∀ b ∈ w, (!blank b) = true := fun b hb => by simp [hw b hb]
  simp [extractWord, dropWhile_word hw hne, List.takeWhile_append_of_pos hw',
    List.dropWhile_append_of_pos hw', ha]

/-- A word at the end of the text. -/
theorem extractWord_end (hw : NoBlank blank w) : extractWord blank w = (w, []) := by
  have hw' : ∀ b ∈ w, (!blank b) = true := fun b hb => by simp [hw b hb]
  rcases eq_or_ne w [] with rfl | hne
  · rfl
  · have hd := dropWhile_word hw hne []
    rw [List.append_nil] at hd
    simp only [extractWord, hd, List.takeWhile_eq_self_iff.2 hw', List.dropWhile_eq_nil_iff.2 hw']

/-- A blank in front is skipped. -/
theorem extractWord_blank (ha : blank a = true) :
    extractWord blank (a :: l) = extractWord blank l := by
  simp only [extractWord, List.dropWhile_cons_of_pos ha]

/-- Two texts that are the same up to their first blank, and the same behind it. -/
theorem append_blank_inj {w' l' : List α} (hw : NoBlank blank w) (hl : NoBlank blank l)
    (ha : blank a = true) (h : w' ++ a :: l' = w ++ a :: l) : w' = w ∧ l' = l := by
  rcases List.append_eq_append_iff.1 h with ⟨t, rfl, h'⟩ | ⟨t, rfl, h'⟩
  · cases t with
    | nil => exact ⟨by simp, by simpa using h'⟩
    | cons b t =>
      obtain rfl : a = b := by simpa using congrArg (·.head?) h'
      rw [hw a (by simp)] at ha
      cases ha
  · cases t with
    | nil => exact ⟨by simp, by simpa using h'.symm⟩
    | cons b t =>
      -- a longer word takes the blank, and a second one is in the text behind it
      have hmem : a ∈ l := by
        rw [List.cons_append, List.cons.injEq] at h'
        rw [h'.2]
        simp
      rw [hl a hmem] at ha
      cases ha

end ToFTDS
