import AllParses.Json.Text

/-!
# Written strings are read back

The reader goes over what is written for one character in one or more steps, and then stands where
it stood with this character more (`readChars_writeChar`). So it reads a written string to its
closing quote and finds the string (`readTextBody_written`): no character that is escaped is lost,
and none is mistaken for the end or for the beginning of an escape.
-/
namespace AllParses

namespace Unicode

theorem hexDigit?_hexDigit {n : Nat} (small : n < 16) : hexDigit? (hexDigit n) = some n := by
  have digits : ∀ m : Fin 16, hexDigit? (hexDigit m.val) = some m.val := by decide
  exact digits ⟨n, small⟩

end Unicode

namespace Json

variable {c : Char} {seen text : List Char}

/-- A character takes at least one byte. -/
theorem lacksUnit_cons (a b c d : Char) (text : List Char) :
    lacksUnit (a :: b :: c :: d :: text) = false := by
  have := a.utf8Size_pos
  have := b.utf8Size_pos
  have := c.utf8Size_pos
  have := d.utf8Size_pos
  simp [lacksUnit]
  omega

/-- A control character is read from its code point. -/
theorem readChars_codePoint (control : c.toNat < 0x20) :
    readChars true .plain seen ('\\' :: 'u' :: '0' :: '0' ::
        Unicode.hexDigit (c.toNat / 16) :: Unicode.hexDigit (c.toNat % 16) :: text) =
      readChars true .plain (c :: seen) text := by
  have zero : Unicode.hexDigit? '0' = some 0 := by decide
  have high : Unicode.hexDigit? (Unicode.hexDigit (c.toNat / 16)) = some (c.toNat / 16) :=
    Unicode.hexDigit?_hexDigit (by omega)
  have low : Unicode.hexDigit? (Unicode.hexDigit (c.toNat % 16)) = some (c.toNat % 16) :=
    Unicode.hexDigit?_hexDigit (by omega)
  have value : 16 * (c.toNat / 16) + c.toNat % 16 = c.toNat := Nat.div_add_mod _ _
  have not_high : isHighSurrogate c.toNat = false := by
    simp [isHighSurrogate]
    omega
  have not_low : isLowSurrogate c.toNat = false := by
    simp [isLowSurrogate]
    omega
  simp [readChars, lacksUnit_cons, zero, high, low, value, not_high, not_low]

/-- What is written for a character adds it to what has been read. -/
theorem readChars_writeChar (c : Char) (seen text : List Char) :
    readChars true .plain seen (writeChar c ++ text) =
      readChars true .plain (c :: seen) text := by
  unfold writeChar
  split
  case h_8 quote slash _ _ _ _ _ =>
    split
    case isTrue control => exact readChars_codePoint control
    case isFalse visible =>
      rw [List.singleton_append, readChars, if_neg quote, if_neg slash, if_neg visible]
  all_goals simp [readChars, escaped?]

theorem readChars_writeChars (cs seen text : List Char) :
    readChars true .plain seen (cs.flatMap writeChar ++ '"' :: text) =
      .ok (seen.reverse ++ cs, text) := by
  induction cs generalizing seen with
  | nil => simp [readChars]
  | cons c cs ih =>
    rw [List.flatMap_cons, List.append_assoc, readChars_writeChar, ih]
    simp

/-- A written string is what its reader finds behind the opening quote. -/
theorem readTextBody_written (s : String) (rest : List Char) :
    readTextBody (s.toList.flatMap writeChar ++ '"' :: rest) = .ok (s, rest) := by
  simp [readTextBody, readChars_writeChars]

end Json

end AllParses
