import AllParses.Json.Reader

/-!
# Written sizes are read back

A size is written as its decimal digits. They begin with no zero that the reader would refuse, and
the reader takes all of them, since behind a value there is no digit, point or exponent
(`EndsValue`). The digits of a size fit, so the number stays far from what is too large for a float,
and it is a size again (`readSize?_written`).
-/
namespace AllParses.Json

/-- A digit is no space. -/
theorem isSpace_of_isDigit {c : Char} (digit : c.isDigit = true) : isSpace c = false := by
  cases space : isSpace c with
  | false => rfl
  | true =>
    simp only [isSpace, Bool.or_eq_true, decide_eq_true_eq] at space
    rcases space with ((rfl | rfl) | rfl) | rfl <;> exact absurd digit (by decide)

/-! ## Digits -/

variable {digits rest : List Char} {atEnd : Fault} {n : Nat}

/-- No digit follows the end of a value. -/
theorem EndsValue.takeWhile_isDigit (ends : EndsValue rest) : rest.takeWhile Char.isDigit = [] := by
  cases rest with
  | nil => rfl
  | cons c rest => rcases ends with rfl | rfl | rfl <;> rfl

theorem takeWhile_digits (digit : ∀ c ∈ digits, c.isDigit = true) (ends : EndsValue rest) :
    (digits ++ rest).takeWhile Char.isDigit = digits := by
  rw [List.takeWhile_append_of_pos digit, ends.takeWhile_isDigit, List.append_nil]

/-- The digits of a number do not begin with a zero, unless it is zero. -/
theorem head?_toDigits_ne (pos : 0 < n) : (Nat.toDigits 10 n).head? ≠ some '0' := by
  induction n using Nat.strongRecOn with
  | _ n ih =>
    by_cases small : n < 10
    · rw [Nat.toDigits_of_lt_base small]
      have digits : ∀ m : Fin 10, 0 < m.val → m.val.digitChar ≠ '0' := by decide
      simpa using digits ⟨n, small⟩ pos
    · rw [Nat.toDigits_of_base_le (by omega) (by omega), List.head?_append]
      have front := ih (n / 10) (by omega) (by omega)
      cases first : (Nat.toDigits 10 (n / 10)).head? with
      | none => exact absurd (List.head?_eq_none_iff.mp first) Nat.toDigits_ne_nil
      | some c => simpa [first] using front

theorem isDigit_of_mem_writeSize {c : Char} (member : c ∈ writeSize n) : c.isDigit = true :=
  Nat.isDigit_of_mem_toDigits (by decide) (by decide) member

theorem exists_writeSize_eq_cons (n : Nat) :
    ∃ c digits, writeSize n = c :: digits ∧ c.isDigit = true := by
  cases written : writeSize n with
  | nil => exact absurd written Nat.toDigits_ne_nil
  | cons c digits => exact ⟨c, digits, rfl, isDigit_of_mem_writeSize (written ▸ List.mem_cons_self)⟩

theorem readDigits_written (n : Nat) (ends : EndsValue rest) :
    readDigits atEnd (writeSize n ++ rest) = .ok (writeSize n, rest) := by
  have taken := takeWhile_digits (fun c => isDigit_of_mem_writeSize (n := n)) ends
  obtain ⟨c, digits, written, digit⟩ := exists_writeSize_eq_cons n
  rw [written, List.cons_append] at taken ⊢
  rw [readDigits, if_pos digit, taken]
  simp

theorem readWhole_written (n : Nat) (ends : EndsValue rest) :
    readWhole atEnd (writeSize n ++ rest) = .ok (writeSize n, rest) := by
  simp only [readWhole, readDigits_written n ends, ok_bind]
  split
  case h_1 d more leading =>
    -- More digits behind a zero: zero itself has one digit, and no other number begins with it.
    cases n with
    | zero => cases leading
    | succ n => exact absurd (congrArg List.head? leading) (head?_toDigits_ne n.succ_pos)
  case h_2 => rfl

/-- Behind the digits there is neither a fraction nor an exponent. -/
theorem readFraction_of_ends (ends : EndsValue rest) :
    readFraction atEnd rest = .ok (none, rest) := by
  cases rest with
  | nil => rfl
  | cons c rest => rcases ends with rfl | rfl | rfl <;> rfl

theorem readExponent_of_ends (ends : EndsValue rest) :
    readExponent atEnd rest = .ok (none, rest) := by
  cases rest with
  | nil => rfl
  | cons c rest => rcases ends with rfl | rfl | rfl <;> rfl

/-- The number that is read for a size. -/
def sizeText (n : Nat) : NumberText :=
  ⟨false, writeSize n, none, none⟩

theorem readNumberText_written (n : Nat) (ends : EndsValue rest) :
    readNumberText atEnd (writeSize n ++ rest) = .ok (sizeText n, rest) := by
  have unsigned : ∀ text, writeSize n ++ rest ≠ '-' :: text := by
    obtain ⟨c, digits, written, digit⟩ := exists_writeSize_eq_cons n
    rw [written]
    rintro text minus
    obtain rfl : c = '-' := (List.cons.inj minus).1
    exact absurd digit (by decide)
  unfold readNumberText
  split
  rename_i negative text sign
  split at sign
  case h_1 text minus => exact absurd minus (unsigned text)
  case h_2 =>
    obtain ⟨rfl, rfl⟩ := Prod.mk.inj sign
    simp only [readWhole_written n ends, readFraction_of_ends ends, readExponent_of_ends ends,
      ok_bind, pure_eq_ok, sizeText]

/-! ## Sizes are small -/

theorem decimal_writeSize (n : Nat) : decimal (writeSize n) = n :=
  Nat.ofDigitChars_ten_toDigits

theorem le_ofDigitChars (digits : List Char) (n : Nat) : n ≤ Nat.ofDigitChars 10 digits n := by
  induction digits generalizing n with
  | nil => exact Nat.le_refl n
  | cons c digits ih =>
    rw [Nat.ofDigitChars_cons]
    have later := ih (10 * n + (c.toNat - '0'.toNat))
    omega

/-- When all digits make a size, all of them fit. -/
theorem appendDigits_of_le (small : Nat.ofDigitChars 10 digits n ≤ maxSize) :
    NumberText.appendDigits n digits = (Nat.ofDigitChars 10 digits n, []) := by
  induction digits generalizing n with
  | nil => rfl
  | cons c digits ih =>
    rw [Nat.ofDigitChars_cons] at small ⊢
    have fits : 10 * n + (c.toNat - 48) ≤ maxSize :=
      Nat.le_trans (le_ofDigitChars digits _) small
    rw [NumberText.appendDigits, if_pos fits]
    exact ih small

/-- Rounding moves a number by no more than the number itself. -/
theorem roundDouble_le (n : Nat) : roundDouble n ≤ 2 * n := by
  unfold roundDouble
  split
  case isTrue => omega
  case isFalse large =>
    have unit_le : Nat.pow 2 (n.log2 - 52) ≤ n := by
      have top : 2 ^ n.log2 ≤ n := Nat.log2_self_le (by omega)
      have below : 2 ^ (n.log2 - 52) ≤ 2 ^ n.log2 :=
        Nat.pow_le_pow_right (by decide) (Nat.sub_le _ _)
      exact Nat.le_trans below top
    generalize Nat.pow 2 (n.log2 - 52) = unit at unit_le ⊢
    have multiples : n / unit * unit ≤ n := Nat.div_mul_le_self n unit
    dsimp only
    split
    · rw [Nat.succ_mul]
      omega
    · omega

theorem two_pow_lt_doubleBound {k : Nat} (small : k < 1024) : Nat.pow 2 k < doubleBound := by
  unfold doubleBound
  -- The bound itself is not to be computed.
  generalize 1024 = top at small ⊢
  exact Nat.pow_lt_pow_right (by decide) small

/-- No size is too large for a float. -/
theorem overflowsDouble_of_le (small : n ≤ maxSize) : overflowsDouble n 0 = false := by
  have bound : maxSize < 2 ^ 64 := by decide
  have one : roundDouble (Nat.pow 10 0) = 1 := by decide
  have double := roundDouble_le n
  have product := roundDouble_le (roundDouble n * 1)
  have far : 2 ^ 66 < doubleBound := two_pow_lt_doubleBound (by decide)
  cases n with
  | zero => rfl
  | succ n =>
    have positive : ¬ maxDoublePower < 0 := Nat.not_lt_zero _
    have below : ¬ doubleBound ≤ roundDouble (roundDouble (n + 1) * 1) := by omega
    show (decide (maxDoublePower < 0) || decide (doubleBound ≤
      roundDouble (roundDouble (n + 1) * roundDouble (Nat.pow 10 0)))) = false
    rw [one, decide_eq_false positive, decide_eq_false below]
    rfl

theorem isInfinite_sizeText (small : n ≤ maxSize) : (sizeText n).isInfinite = false := by
  have fits : Nat.ofDigitChars 10 (writeSize n) 0 = n := Nat.ofDigitChars_ten_toDigits
  have all : NumberText.appendDigits 0 (writeSize n) = (n, []) := by
    rw [appendDigits_of_le (by rwa [fits]), fits]
  simp only [NumberText.isInfinite, NumberText.scaled, sizeText, all]
  exact overflowsDouble_of_le small

theorem readNumber_written (small : n ≤ maxSize) (ends : EndsValue rest) :
    readNumber (writeSize n ++ rest) = .ok (sizeText n, rest) := by
  simp [readNumber, readNumberText_written n ends, isInfinite_sizeText small]

theorem size?_sizeText (small : n ≤ maxSize) : (sizeText n).size? = some n := by
  simp [NumberText.size?, sizeText, decimal_writeSize, small]

/-- A written size is what its reader finds. -/
theorem readSize?_writeSize (small : n ≤ maxSize) (ends : EndsValue rest) :
    readSize? (writeSize n ++ rest) = .ok (some n, rest) := by
  have read := readNumber_written small ends
  obtain ⟨c, digits, written, digit⟩ := exists_writeSize_eq_cons n
  have sized : (c = '-' || c.isDigit) = true := by simp [digit]
  rw [written, List.cons_append] at read ⊢
  unfold readSize?
  rw [skipSpace, List.dropWhile_cons_of_neg (by simp [isSpace_of_isDigit digit])]
  split
  case h_1 rest' null =>
    obtain rfl : c = 'n' := (List.cons.inj null).1
    exact absurd digit (by decide)
  case h_2 other rest' _ shape =>
    obtain ⟨rfl, rfl⟩ := List.cons.inj shape
    rw [if_pos sized]
    simp only [read, ok_bind, size?_sizeText small, pure_eq_ok]
  case h_3 nothing => cases nothing

end AllParses.Json
