import AllParses.Unicode.Alphabetic
import AllParses.Unicode.Digit
import AllParses.Unicode.Mark

/-!
# Word characters

Words are made of alphabetic characters, marks, decimal digits, connecting punctuation and the two
joining controls.
-/

namespace AllParses.Unicode

/-- The ranges of the connecting punctuation. -/
def connectorRanges : Ranges :=
  [
    (0x5f, 0x5f), (0x203f, 0x2040), (0x2054, 0x2054), (0xfe33, 0xfe34), (0xfe4d, 0xfe4f),
    (0xff3f, 0xff3f)
  ]

/-- The two characters with the property Join_Control. -/
def joinControlRanges : Ranges :=
  [(0x200c, 0x200d)]

/-- The ranges of the characters that words are made of. -/
def wordRanges : Ranges :=
  [decimalDigitRanges, connectorRanges, joinControlRanges, markRanges].foldl .union alphabeticRanges

/-- Whether the character belongs to a word. -/
def isWordCharacter (c : Char) : Bool :=
  if c.toNat < 0x80 then c.isAlphanum || c = '_' else wordRanges.contains c.toNat

end AllParses.Unicode
