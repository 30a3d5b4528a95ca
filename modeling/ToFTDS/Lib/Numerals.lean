import Mathlib.Data.List.DropRight
import Mathlib.Data.List.TakeWhile
import ToFTDS.Lib.Rounding

/-!
# Decimal numerals

A numeral as a formatted stream reads and writes it: a sign, digits in front of the point and behind
it, and an exponent. `scan` takes the longest numeral at the beginning of a text, and `general p x`
is the one that is written for `x` with `p + 1` significant digits, as `%g` does it. `InStream` is a
stream from which numbers are extracted with `>>`.

What is written is read back if what follows it cannot be taken for a part of it (`scan_text`), and
its value is the number rounded to as many digits (`value_general`). An unsigned number at the end
of a text fuses with digits that follow it; it is still read back if they do not count
(`KeepsNumber`).
-/

namespace ToFTDS

/-! ## Digits -/

/-- Only digits. -/
def Digits (l : List Char) : Prop := ∀ c ∈ l, c.isDigit = true

instance (l : List Char) : Decidable (Digits l) := List.decidableBAll _ l

/-- The digits at the beginning of a text, and the text behind them. -/
def takeDigits (l : List Char) : List Char × List Char :=
  (l.takeWhile Char.isDigit, l.dropWhile Char.isDigit)

/-- The number with these digits. -/
def digitsValue (l : List Char) : Nat := Nat.ofDigitChars 10 l 0

section
variable {l l' rest : List Char}

/-- Digits behind digits are digits. -/
theorem Digits.append (hl : Digits l) (hl' : Digits l') : Digits (l ++ l') := fun c hc =>
  (List.mem_append.1 hc).elim (hl c) (hl' c)

/-- Some of the characters of digits are digits. -/
theorem Digits.of_subset (hl : Digits l) (h : l' ⊆ l) : Digits l' := fun c hc => hl c (h hc)

/-- Zeros are digits. -/
theorem digits_replicate_zero (n : Nat) : Digits (List.replicate n '0') := by
  intro c hc
  rw [List.eq_of_mem_replicate hc]
  rfl

/-- The decimal numeral of a number is made of digits. -/
theorem digits_toDigits (n : Nat) : Digits (Nat.toDigits 10 n) := fun _ hc =>
  Nat.isDigit_of_mem_toDigits (by decide) (by decide) hc

/-- What is taken as digits is digits. -/
theorem digits_takeDigits (l : List Char) : Digits (takeDigits l).1 := fun _ hc =>
  List.mem_takeWhile_imp hc

/-- Digits in front of a text are taken with those that it begins with. -/
theorem takeDigits_append (hl : Digits l) (rest : List Char) :
    takeDigits (l ++ rest) = (l ++ (takeDigits rest).1, (takeDigits rest).2) := by
  simp only [takeDigits, List.takeWhile_append_of_pos hl, List.dropWhile_append_of_pos hl]

/-- Digits are taken as far as they go. -/
theorem takeDigits_exact (hl : Digits l) (hrest : ∀ c ∈ rest.head?, c.isDigit = false) :
    takeDigits (l ++ rest) = (l, rest) := by
  rw [takeDigits_append hl]
  cases rest with
  | nil => simp [takeDigits]
  | cons c rest =>
    have hc : c.isDigit = false := hrest c rfl
    simp [takeDigits, hc]

/-- The value of digits in front of others counts in powers of ten. -/
theorem digitsValue_append (l l' : List Char) :
    digitsValue (l ++ l') = digitsValue l * 10 ^ l'.length + digitsValue l' := by
  rw [digitsValue, Nat.ofDigitChars_append, Nat.ofDigitChars_eq_ofDigitChars_zero, mul_comm]
  rfl

@[simp] theorem digitsValue_toDigits (n : Nat) : digitsValue (Nat.toDigits 10 n) = n :=
  Nat.ofDigitChars_ten_toDigits

@[simp] theorem digitsValue_replicate_zero (n : Nat) : digitsValue (List.replicate n '0') = 0 := by
  simp [digitsValue]

/-- A digit that is not a zero counts. -/
theorem digitsValue_pos (hl : Digits l) (h : ∃ c ∈ l, c ≠ '0') : 0 < digitsValue l := by
  obtain ⟨c, hc, hne⟩ := h
  obtain ⟨l₁, l₂, rfl⟩ := List.append_of_mem hc
  have hdigit := hl c hc
  have hpos : 0 < digitsValue [c] := by
    simp only [Char.isDigit, ge_iff_le, Bool.and_eq_true, decide_eq_true_eq] at hdigit
    have h48 : 48 ≤ c.toNat := hdigit.1
    have hne48 : c.toNat ≠ 48 := fun h => hne (Char.ext (UInt32.toNat_inj.1 h))
    simp only [digitsValue, Nat.ofDigitChars_cons, Nat.ofDigitChars_nil]
    simp only [Char.reduceToNat]
    omega
  rw [← List.singleton_append, digitsValue_append, digitsValue_append]
  have : 0 < digitsValue [c] * 10 ^ l₂.length := Nat.mul_pos hpos (Nat.pow_pos (by decide))
  omega

end

/-! ## Reading a numeral -/

/-- A numeral: a sign, the digits in front of the point and behind it, and the sign and the digits
of the exponent. -/
structure Numeral where
  neg : Bool := false
  int : List Char
  frac : List Char := []
  exp : Option (Bool × List Char) := none
  deriving DecidableEq

/-- An optional sign. -/
def takeSign : List Char → Bool × List Char
  | '-' :: l => (true, l)
  | '+' :: l => (false, l)
  | l => (false, l)

/-- An optional point with digits behind it. -/
def takeFraction : List Char → List Char × List Char
  | '.' :: l => takeDigits l
  | l => ([], l)

/-- An optional `e` with a signed number behind it. -/
def takeExponent : List Char → Option (Bool × List Char) × List Char
  | [] => (none, [])
  | c :: l =>
    if c = 'e' ∨ c = 'E' then
      let sign := takeSign l
      let digits := takeDigits sign.2
      (some (sign.1, digits.1), digits.2)
    else (none, c :: l)

/-- The numeral at the beginning of a text, and the text behind it. Without digits there is no
exponent. -/
def scan (l : List Char) : Numeral × List Char :=
  let sign := takeSign l
  let int := takeDigits sign.2
  let frac := takeFraction int.2
  let exp := if int.1 ++ frac.1 = [] then (none, frac.2) else takeExponent frac.2
  ({ neg := sign.1, int := int.1, frac := frac.1, exp := exp.1 }, exp.2)

namespace Numeral

/-- The numeral has digits, and so has its exponent if there is one. -/
def IsNumber (n : Numeral) : Prop := n.int ++ n.frac ≠ [] ∧ ∀ e ∈ n.exp, e.2 ≠ []

instance (n : Numeral) : Decidable n.IsNumber := inferInstanceAs (Decidable (_ ∧ _))

/-- The number that `-` or its absence and the digits stand for. -/
def signed (neg : Bool) (n : Int) : Int := if neg then -n else n

/-- The sign of a product can be put to its first factor. -/
theorem signed_mul (neg : Bool) (n m : Int) : signed neg (n * m) = signed neg n * m := by
  cases neg <;> simp [signed]

/-- The exponent that is written, and 0 without one. -/
def exponent (n : Numeral) : Int := n.exp.elim 0 fun e => signed e.1 (digitsValue e.2)

/-- The number that the numeral stands for. -/
def value {K : Type} [Field K] (n : Numeral) : K :=
  atPlace (signed n.neg (digitsValue (n.int ++ n.frac)) : Int) (n.exponent - n.frac.length)

/-- The sign as a text. -/
def signText (neg : Bool) : List Char := if neg then ['-'] else []

/-- The fraction as a text, with its point if there is one. -/
def fractionText (frac : List Char) : List Char := if frac = [] then [] else '.' :: frac

/-- The exponent as a text, with its sign. -/
def exponentText (exp : Option (Bool × List Char)) : List Char :=
  exp.elim [] fun e => 'e' :: (if e.1 then '-' else '+') :: e.2

/-- The numeral as a text. -/
def text (n : Numeral) : List Char :=
  signText n.neg ++ (n.int ++ (fractionText n.frac ++ exponentText n.exp))

end Numeral

/-- A numeral that can be written: it has digits in front of the point, and in its exponent. -/
structure Written extends Numeral where
  int_digits : Digits int
  int_ne_nil : int ≠ []
  frac_digits : Digits frac
  exp_digits : ∀ e ∈ exp, Digits e.2 ∧ e.2 ≠ []

/-- What follows a numeral and cannot be a part of it. -/
def Ends (rest : List Char) : Prop :=
  ∀ c ∈ rest.head?, c.isDigit = false ∧ c ≠ '.' ∧ c ≠ 'e' ∧ c ≠ 'E'

section
variable {rest : List Char}

/-- A text that begins with a digit has no sign. -/
theorem takeSign_digits {l : List Char} (hl : Digits l) (hne : l ≠ []) (rest : List Char) :
    takeSign (l ++ rest) = (false, l ++ rest) := by
  obtain ⟨c, l, rfl⟩ := List.exists_cons_of_ne_nil hne
  have hc : c.isDigit = true := hl c List.mem_cons_self
  unfold takeSign
  split
  · next h =>
    obtain rfl : c = '-' := by simpa using congrArg List.head? h
    cases hc
  · next h =>
    obtain rfl : c = '+' := by simpa using congrArg List.head? h
    cases hc
  · rfl

/-- The sign that is written in front of digits is read back. -/
theorem takeSign_text {l : List Char} (neg : Bool) (hl : Digits l) (hne : l ≠ [])
    (rest : List Char) :
    takeSign (Numeral.signText neg ++ (l ++ rest)) = (neg, l ++ rest) := by
  cases neg
  · exact takeSign_digits hl hne rest
  · rfl

/-- The text behind the digits in front of the point does not begin with a digit. -/
theorem head?_fractionText (frac : List Char) {tail : List Char}
    (htail : ∀ c ∈ tail.head?, c.isDigit = false) :
    ∀ c ∈ (Numeral.fractionText frac ++ tail).head?, c.isDigit = false := by
  intro c hc
  unfold Numeral.fractionText at hc
  split at hc
  · exact htail c hc
  · obtain rfl : '.' = c := by simpa using hc
    rfl

/-- The fraction that is written is read back, if neither a digit nor a point follows it. -/
theorem takeFraction_text {frac tail : List Char} (hfrac : Digits frac)
    (htail : ∀ c ∈ tail.head?, c.isDigit = false ∧ c ≠ '.') :
    takeFraction (Numeral.fractionText frac ++ tail) = (frac, tail) := by
  unfold Numeral.fractionText
  split
  · next hnil =>
    rw [List.nil_append, hnil]
    unfold takeFraction
    split
    · exact absurd rfl (htail '.' rfl).2
    · rfl
  · exact takeDigits_exact hfrac fun c hc => (htail c hc).1

/-- The text behind the fraction begins with neither a digit nor a point. -/
theorem head?_exponentText (exp : Option (Bool × List Char)) (hrest : Ends rest) :
    ∀ c ∈ (Numeral.exponentText exp ++ rest).head?, c.isDigit = false ∧ c ≠ '.' := by
  intro c hc
  cases exp with
  | none => exact ⟨(hrest c hc).1, (hrest c hc).2.1⟩
  | some e =>
    obtain rfl : 'e' = c := by simpa [Numeral.exponentText] using hc
    decide

/-- The exponent that is written is read back, if what follows it ends a number. -/
theorem takeExponent_text {exp : Option (Bool × List Char)} (hexp : ∀ e ∈ exp, Digits e.2)
    (hrest : Ends rest) : takeExponent (Numeral.exponentText exp ++ rest) = (exp, rest) := by
  cases exp with
  | none =>
    cases rest with
    | nil => rfl
    | cons c rest =>
      obtain ⟨-, -, he, hE⟩ := hrest c rfl
      exact if_neg (not_or.2 ⟨he, hE⟩)
  | some e =>
    obtain ⟨neg, ds⟩ := e
    have hdigits : takeDigits (ds ++ rest) = (ds, rest) :=
      takeDigits_exact (hexp _ rfl) fun c hc => (hrest c hc).1
    cases neg <;> simp [Numeral.exponentText, takeExponent, takeSign, hdigits]

/-- What is written is read back. -/
theorem scan_text (n : Written) (hrest : Ends rest) :
    scan (n.text ++ rest) = (n.toNumeral, rest) := by
  have hexponent := takeExponent_text (fun e he => (n.exp_digits e he).1) hrest
  have htail := head?_exponentText n.exp hrest
  have hfraction := takeFraction_text n.frac_digits htail
  have hint := takeDigits_exact n.int_digits (head?_fractionText n.frac fun c hc => (htail c hc).1)
  rw [Numeral.text]
  simp only [List.append_assoc, scan, takeSign_text n.neg n.int_digits n.int_ne_nil, hint,
    hfraction]
  rw [if_neg (by simp [n.int_ne_nil]), hexponent]

/-- What is written is a number. -/
theorem Written.isNumber (n : Written) : n.IsNumber :=
  ⟨by simp [n.int_ne_nil], fun e he => (n.exp_digits e he).2⟩

/-- The text of a number begins with a digit or a sign. -/
theorem Written.text_eq_cons (n : Written) :
    ∃ c l, n.text = c :: l ∧ (c.isDigit = true ∨ c = '-') := by
  obtain ⟨c, l, hint⟩ := List.exists_cons_of_ne_nil n.int_ne_nil
  have hc : c.isDigit = true := n.int_digits c (by simp [hint])
  cases hneg : n.neg
  · exact ⟨c, _, by rw [Numeral.text, hneg, hint]; rfl, .inl hc⟩
  · exact ⟨'-', _, by rw [Numeral.text, hneg]; rfl, .inr rfl⟩

end

/-! ## Writing a number -/

/-- The digits of an exponent: two at least. -/
def exponentDigits (n : Nat) : List Char :=
  if n < 10 then '0' :: Nat.toDigits 10 n else Nat.toDigits 10 n

/-- An exponent is written with digits, at least one. -/
theorem digits_exponentDigits (n : Nat) : Digits (exponentDigits n) ∧ exponentDigits n ≠ [] := by
  unfold exponentDigits
  split
  · exact ⟨(digits_replicate_zero 1).append (digits_toDigits n), List.cons_ne_nil _ _⟩
  · exact ⟨digits_toDigits n, Nat.toDigits_ne_nil⟩

/-- The digits of an exponent have its value. -/
theorem digitsValue_exponentDigits (n : Nat) : digitsValue (exponentDigits n) = n := by
  unfold exponentDigits
  split
  · rw [← List.singleton_append, digitsValue_append, digitsValue_toDigits]
    simpa using digitsValue_replicate_zero 1
  · exact digitsValue_toDigits n

namespace Written

/-- The digits with the point behind the first `j + 1` of them. -/
def point (neg : Bool) (digits : List Char) (hdigits : Digits digits) (hne : digits ≠ []) (j : Nat)
    (e : Option Int) : Written where
  neg := neg
  int := digits.take (j + 1)
  frac := digits.drop (j + 1)
  exp := e.map fun e => (decide (e < 0), exponentDigits e.natAbs)
  int_digits := hdigits.of_subset (List.take_subset _ _)
  int_ne_nil := by simpa using hne
  frac_digits := hdigits.of_subset (List.drop_subset _ _)
  exp_digits := by
    rintro _ he
    obtain ⟨e, -, rfl⟩ := Option.map_eq_some_iff.1 he
    exact digits_exponentDigits _

/-- The digits of `m`, the last of them at place `k`, as `%g` writes them: with an exponent if the
first digit is more than four places behind the point, or the last is in front of it. -/
def place (p : Nat) (neg : Bool) (m : Nat) (k : Int) : Written :=
  let e := k + p
  if e < -4 ∨ p < e then
    point neg (Nat.toDigits 10 m) (digits_toDigits m) Nat.toDigits_ne_nil 0 (some e)
  else if 0 ≤ e then
    point neg (Nat.toDigits 10 m) (digits_toDigits m) Nat.toDigits_ne_nil e.toNat none
  else
    point neg (List.replicate (-e).toNat '0' ++ Nat.toDigits 10 m)
      ((digits_replicate_zero _).append (digits_toDigits m)) (by simp) 0 none

/-- The numeral without the zeros at the end of its fraction. -/
def strip (n : Written) : Written :=
  { n with
    frac := n.frac.rdropWhile (· = '0')
    frac_digits := n.frac_digits.of_subset (List.rdropWhile_prefix _ _).subset }

/-- The numeral that `%g` writes for a number, with `p + 1` significant digits. -/
def general {K : Type} [Field K] [LinearOrder K] [FloorRing K] (p : Nat) (x : K) : Written :=
  if x = 0 then point false ['0'] (digits_replicate_zero 1) (List.cons_ne_nil _ _) 0 none
  else
    let sig := sigDigits p |x|
    (place p (decide (x < 0)) sig.1 sig.2).strip

section
variable {K : Type} [Field K]

/-- The value of digits with a point behind the first `j + 1` of them, and perhaps an exponent. -/
theorem value_point (neg : Bool) {digits : List Char} (hdigits : Digits digits) (hne : digits ≠ [])
    (j : Nat) (e : Option Int) :
    (point neg digits hdigits hne j e).value = (Numeral.signed neg (digitsValue digits) : K) *
      10 ^ (e.getD 0 - (digits.length - (j + 1) : Nat)) := by
  have hexp : (point neg digits hdigits hne j e).exponent = e.getD 0 := by
    cases e with
    | none => rfl
    | some e =>
      simp only [Numeral.exponent, point, Option.map_some, Option.elim_some,
        digitsValue_exponentDigits, Numeral.signed, Option.getD_some, decide_eq_true_eq]
      split <;> omega
  rw [Numeral.value, hexp, atPlace]
  simp [point]

/-- A number between two powers of ten has as many digits as the larger one has zeros. -/
theorem length_toDigits {p m : Nat} (hm : 10 ^ p ≤ m ∧ m < 10 ^ (p + 1)) :
    (Nat.toDigits 10 m).length = p + 1 := by
  have hle := (Nat.length_toDigits_le_iff (by decide : 1 < 10) (Nat.succ_pos p)).2 hm.2
  rcases Nat.eq_zero_or_pos p with rfl | hp
  · have := Nat.length_toDigits_pos (b := 10) (n := m)
    omega
  · have hnot := mt (Nat.length_toDigits_le_iff (by decide : 1 < 10) hp).1 (Nat.not_lt_of_le hm.1)
    omega

/-- Wherever the point is placed, the number is the same. -/
theorem value_place {p m : Nat} (neg : Bool) (hm : 10 ^ p ≤ m ∧ m < 10 ^ (p + 1)) (k : Int) :
    (place p neg m k).value = (Numeral.signed neg m : K) * 10 ^ k := by
  have hlength := length_toDigits hm
  unfold place
  dsimp only
  split
  · rw [value_point, digitsValue_toDigits, hlength]
    congr 2
    simp
  split
  · rw [value_point, digitsValue_toDigits, hlength]
    congr 2
    simp
    omega
  · rw [value_point, digitsValue_append, digitsValue_replicate_zero, digitsValue_toDigits,
      List.length_append, List.length_replicate, hlength]
    congr 2
    · simp
    · simp
      omega

/-- Zeros at the end of the fraction do not count. -/
theorem value_strip [CharZero K] (n : Written) : n.strip.value = (n.value : K) := by
  obtain ⟨z, hz⟩ : ∃ z, n.frac = n.frac.rdropWhile (· = '0') ++ List.replicate z '0' := by
    refine ⟨(n.frac.rtakeWhile (· = '0')).length, ?_⟩
    conv_lhs => rw [← List.rdropWhile_append_rtakeWhile (p := (· = '0')) (l := n.frac)]
    congr 1
    refine List.eq_replicate_of_mem fun c hc => ?_
    simpa using List.mem_rtakeWhile_imp hc
  have hten : (10 : K) ≠ 0 := by norm_num
  have hvalue : digitsValue (n.int ++ n.frac) =
      digitsValue (n.int ++ n.frac.rdropWhile (· = '0')) * 10 ^ z := by
    conv_lhs => rw [hz, ← List.append_assoc, digitsValue_append]
    simp
  have hlength : (n.frac.length : Int) = (n.frac.rdropWhile (· = '0')).length + z := by
    conv_lhs => rw [hz]
    simp
  have hexp : n.exponent - n.frac.length + z =
      n.strip.exponent - (n.frac.rdropWhile (· = '0')).length := by
    rw [hlength, sub_add, add_sub_cancel_right]
    rfl
  calc n.strip.value
      = (Numeral.signed n.neg (digitsValue (n.int ++ n.frac.rdropWhile (· = '0'))) : K) *
          10 ^ (n.exponent - n.frac.length + z) := by
        rw [hexp]
        rfl
    _ = (Numeral.signed n.neg (digitsValue (n.int ++ n.frac)) : K) *
          10 ^ (n.exponent - n.frac.length) := by
        rw [zpow_add₀ hten, zpow_natCast, hvalue]
        push_cast
        rw [Numeral.signed_mul]
        push_cast
        ring
    _ = n.value := rfl

end

section
variable {K : Type} [Field K] [LinearOrder K] [IsStrictOrderedRing K] [FloorRing K]

/-- The numeral that is written for `x` has the value that `x` is rounded to. -/
theorem value_general (p : Nat) (x : K) : (general p x).value = roundSig p x := by
  have hwritten : ∀ neg {y : K}, 0 < y →
      (place p neg (sigDigits p y).1 (sigDigits p y).2).strip.value =
        (if neg then -roundPos p y else roundPos p y) := fun neg y hy => by
    rw [value_strip, value_place neg (sigDigits_bounds p hy), roundPos, atPlace]
    cases neg <;> simp [Numeral.signed]
  rcases lt_trichotomy x 0 with hx | rfl | hx
  · rw [general, if_neg hx.ne, roundSig, if_neg hx.ne, if_pos hx, abs_of_neg hx]
    simpa [hx] using hwritten true (neg_pos.2 hx)
  · rw [general, if_pos rfl, roundSig, if_pos rfl, value_point]
    simpa [Numeral.signed] using digitsValue_replicate_zero 1
  · rw [general, if_neg hx.ne', roundSig, if_neg hx.ne', if_neg hx.not_gt, abs_of_pos hx]
    simpa [hx.not_gt] using hwritten false hx

end

end Written

/-! ## Extraction from a stream -/

/-- A stream: the text that has not been read, and whether an extraction has failed. -/
structure InStream where
  rest : List Char
  failed : Bool := false
  deriving DecidableEq

/-- The digits at the beginning of a text do not change the number in front of it. -/
def KeepsNumber {w : Nat} (n : BitVec w) (rest : List Char) : Prop :=
  ∀ c ∈ (takeDigits rest).1, n = 0 ∧ c = '0'

instance {w : Nat} (n : BitVec w) (rest : List Char) : Decidable (KeepsNumber n rest) :=
  List.decidableBAll _ _

namespace InStream

section
variable (blank : Char → Bool)

/-- The text that an extraction finds behind the blanks. There is none if the stream has failed or
ends there. -/
def sentry (s : InStream) : Option (List Char) :=
  if s.failed || s.rest.all blank then none else some (s.rest.dropWhile blank)

/-- `>>` of a floating-point number. Where nothing is found the variable keeps its value `old`, and
a text that is no number makes it zero. -/
def extractDouble {K : Type} [Field K] (old : K) (s : InStream) : K × InStream :=
  match s.sentry blank with
  | none => (old, { s with failed := true })
  | some l =>
    let scanned := scan l
    if scanned.1.IsNumber then (scanned.1.value, { rest := scanned.2 })
    else (0, { rest := scanned.2, failed := true })

/-- `>>` of an unsigned number of `w` bits. A negative number is taken modulo `2 ^ w`, and one that
is too large makes the variable the largest. -/
def extractUnsigned {w : Nat} (old : BitVec w) (s : InStream) : BitVec w × InStream :=
  match s.sentry blank with
  | none => (old, { s with failed := true })
  | some l =>
    let sign := takeSign l
    let digits := takeDigits sign.2
    if digits.1 = [] then (0, { rest := digits.2, failed := true })
    else if digitsValue digits.1 < 2 ^ w then
      (if sign.1 then -BitVec.ofNat w (digitsValue digits.1)
        else BitVec.ofNat w (digitsValue digits.1),
        { rest := digits.2 })
    else (BitVec.allOnes w, { rest := digits.2, failed := true })

end

section
variable {blank : Char → Bool} {gap : List Char}

/-- The sentry of an extraction skips the blanks in front of a number. -/
theorem sentry_gap (hgap : ∀ c ∈ gap, blank c = true) {c : Char} (hc : blank c = false)
    (l : List Char) : sentry blank { rest := gap ++ c :: l } = some (c :: l) := by
  rw [sentry, if_neg (by simp [hc])]
  rw [List.dropWhile_append_of_pos hgap, List.dropWhile_cons_of_neg (by simp [hc])]

/-- A number that has been written, behind blanks and in front of what is not a part of it. -/
theorem extractDouble_text {K : Type} [Field K]
    (hblank : ∀ c, c.isDigit = true ∨ c = '-' → blank c = false)
    (hgap : ∀ c ∈ gap, blank c = true) (n : Written) {rest : List Char} (hrest : Ends rest)
    (old : K) :
    extractDouble blank old { rest := gap ++ (n.text ++ rest) } = (n.value, { rest := rest }) := by
  obtain ⟨c, l, htext, hc⟩ := n.text_eq_cons
  have hsentry : sentry blank { rest := gap ++ (n.text ++ rest) } = some (n.text ++ rest) := by
    rw [htext, List.cons_append, sentry_gap hgap (hblank c hc)]
  simp only [extractDouble, hsentry, scan_text n hrest]
  rw [if_pos n.isNumber]

/-- The text behind a number keeps it exactly if the digits that follow directly do not change the
value. -/
theorem keepsNumber_iff {w : Nat} {n : BitVec w} {rest : List Char} :
    KeepsNumber n rest ↔
      digitsValue (Nat.toDigits 10 n.toNat ++ (takeDigits rest).1) = n.toNat := by
  rw [digitsValue_append, digitsValue_toDigits]
  constructor
  · intro hn
    rcases eq_or_ne (takeDigits rest).1 [] with hnil | hne
    · simp [hnil, digitsValue]
    · obtain ⟨c, hc⟩ := List.exists_mem_of_ne_nil _ hne
      have hzero : n = 0 := (hn c hc).1
      have hdigits := List.eq_replicate_of_mem fun c hc => (hn c hc).2
      rw [hdigits, digitsValue_replicate_zero]
      simp [hzero]
  · intro hvalue c hc
    have hlength : 10 ≤ 10 ^ (takeDigits rest).1.length :=
      Nat.le_self_pow (Nat.ne_of_gt (List.length_pos_of_mem hc)) 10
    have hzero : n.toNat = 0 := by
      have := Nat.mul_le_mul_left n.toNat hlength
      omega
    refine ⟨BitVec.eq_of_toNat_eq hzero, ?_⟩
    by_contra hne
    have hpos := digitsValue_pos (digits_takeDigits rest) ⟨c, hc, hne⟩
    omega

/-- A stream in front of whose text an unsigned number has been written, behind blanks. -/
theorem extractUnsigned_toDigits {w : Nat} (hblank : ∀ c, c.isDigit = true → blank c = false)
    (hgap : ∀ c ∈ gap, blank c = true) (n : BitVec w) (rest : List Char) (old : BitVec w) :
    extractUnsigned blank old { rest := gap ++ (Nat.toDigits 10 n.toNat ++ rest) } =
      let value := digitsValue (Nat.toDigits 10 n.toNat ++ (takeDigits rest).1)
      if value < 2 ^ w then (BitVec.ofNat w value, { rest := (takeDigits rest).2 })
      else (BitVec.allOnes w, { rest := (takeDigits rest).2, failed := true }) := by
  have hdigits := digits_toDigits n.toNat
  have hne : Nat.toDigits 10 n.toNat ≠ [] := Nat.toDigits_ne_nil
  have hsentry : sentry blank { rest := gap ++ (Nat.toDigits 10 n.toNat ++ rest) } =
      some (Nat.toDigits 10 n.toNat ++ rest) := by
    obtain ⟨c, l, htext⟩ := List.exists_cons_of_ne_nil hne
    rw [htext, List.cons_append, sentry_gap hgap (hblank c (hdigits c (by simp [htext])))]
  simp only [extractUnsigned, hsentry, takeSign_digits hdigits hne, takeDigits_append hdigits]
  rw [if_neg (by simp)]
  rfl

/-- The number is read back if the digits behind it do not change it. -/
theorem extractUnsigned_text {w : Nat} (hblank : ∀ c, c.isDigit = true → blank c = false)
    (hgap : ∀ c ∈ gap, blank c = true) (n : BitVec w) {rest : List Char} (hn : KeepsNumber n rest)
    (old : BitVec w) :
    extractUnsigned blank old { rest := gap ++ (Nat.toDigits 10 n.toNat ++ rest) } =
      (n, { rest := (takeDigits rest).2 }) := by
  rw [extractUnsigned_toDigits hblank hgap, keepsNumber_iff.1 hn]
  simp [n.isLt]

/-- A number is read back only if its digits do not run on, except for the largest one, which is
what every larger one becomes. -/
theorem extractUnsigned_eq_iff {w : Nat} (hblank : ∀ c, c.isDigit = true → blank c = false)
    (hgap : ∀ c ∈ gap, blank c = true) {n : BitVec w} (hn : n ≠ BitVec.allOnes w) (rest : List Char)
    (old : BitVec w) :
    (extractUnsigned blank old { rest := gap ++ (Nat.toDigits 10 n.toNat ++ rest) }).1 = n ↔
      KeepsNumber n rest := by
  rw [extractUnsigned_toDigits hblank hgap, keepsNumber_iff]
  dsimp only
  split
  · next hlt =>
    rw [← BitVec.toNat_inj, BitVec.toNat_ofNat, Nat.mod_eq_of_lt hlt]
  · next hge =>
    refine iff_of_false hn.symm fun h => hge ?_
    rw [h]
    exact n.isLt

end

end InStream

end ToFTDS
