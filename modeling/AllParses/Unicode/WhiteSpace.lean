import AllParses.Unicode.Ranges

/-!
# White space

The characters with the property White_Space.
-/

namespace AllParses.Unicode

/-- The ranges of the property White_Space. -/
def whiteSpaceRanges : Ranges :=
  [
    (0x9, 0xd), (0x20, 0x20), (0x85, 0x85), (0xa0, 0xa0), (0x1680, 0x1680), (0x2000, 0x200a),
    (0x2028, 0x2029), (0x202f, 0x202f), (0x205f, 0x205f), (0x3000, 0x3000)
  ]

/-- Whether the character has the property White_Space. -/
def isWhiteSpace (c : Char) : Bool :=
  whiteSpaceRanges.contains c.toNat

end AllParses.Unicode
