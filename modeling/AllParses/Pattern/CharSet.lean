import AllParses.Unicode.CaseFold
import AllParses.Unicode.WhiteSpace
import AllParses.Unicode.Word

/-!
# Sets of characters

The classes that a pattern matches one character against, as expressions; `contains` says which
characters they hold, and `ranges` lists them.
-/

namespace AllParses.Pattern

/-- A set of characters. -/
inductive CharSet where
  | empty
  /-- The characters from `first` to `last`, both included. -/
  | range (first last : Char)
  /-- The characters with the property White_Space. -/
  | white
  /-- The decimal digits of all scripts. -/
  | digit
  /-- The characters that words are made of. -/
  | word
  | union (s t : CharSet)
  | inter (s t : CharSet)
  | diff (s t : CharSet)
  /-- The characters in exactly one of the two sets. -/
  | symmDiff (s t : CharSet)
  | compl (s : CharSet)
  /-- The characters that are in the set up to case. -/
  | anyCase (s : CharSet)
  deriving DecidableEq, Inhabited

namespace CharSet

/-- Whether the set holds the character. -/
def contains : CharSet → Char → Bool
  | empty, _ => false
  | range first last, c => first ≤ c && c ≤ last
  | white, c => Unicode.isWhiteSpace c
  | digit, c => Unicode.isDecimalDigit c
  | word, c => Unicode.isWordCharacter c
  | union s t, c => s.contains c || t.contains c
  | inter s t, c => s.contains c && t.contains c
  | diff s t, c => s.contains c && !t.contains c
  | symmDiff s t, c => s.contains c != t.contains c
  | compl s, c => !s.contains c
  | anyCase s, c => (Unicode.caseVariants c.toNat).any fun n => s.contains (Char.ofNat n)

/-- The ranges of the characters in the set.  Complements may hold surrogates too. -/
def ranges : CharSet → Unicode.Ranges
  | empty => []
  | range first last => if first ≤ last then [(first.toNat, last.toNat)] else []
  | white => Unicode.whiteSpaceRanges
  | digit => Unicode.decimalDigitRanges
  | word => Unicode.wordRanges
  | union s t => s.ranges.union t.ranges
  | inter s t => s.ranges.inter t.ranges
  | diff s t => s.ranges.diff t.ranges
  | symmDiff s t => (s.ranges.diff t.ranges).union (t.ranges.diff s.ranges)
  | compl s => s.ranges.compl
  | anyCase s => s.ranges.closeCase

/-- The set of one character. -/
def single (c : Char) : CharSet :=
  range c c

/-- The union of several sets. -/
def ofList (sets : List CharSet) : CharSet :=
  sets.foldl union empty

/-- The sets of ASCII characters that have a name. -/
def named? (name : String) : Option CharSet :=
  let lower := range 'a' 'z'
  let upper := range 'A' 'Z'
  let digits := range '0' '9'
  match name with
  | "alnum" => some (ofList [digits, upper, lower])
  | "alpha" => some (ofList [upper, lower])
  | "ascii" => some (range '\x00' '\x7f')
  | "blank" => some (ofList [single '\t', single ' '])
  | "cntrl" => some (ofList [range '\x00' '\x1f', single '\x7f'])
  | "digit" => some digits
  | "graph" => some (range '!' '~')
  | "lower" => some lower
  | "print" => some (range ' ' '~')
  | "punct" => some (ofList [range '!' '/', range ':' '@', range '[' '\x60', range '\x7b' '~'])
  | "space" => some (ofList [range '\t' '\r', single ' '])
  | "upper" => some upper
  | "word" => some (ofList [digits, upper, lower, single '_'])
  | "xdigit" => some (ofList [digits, range 'A' 'F', range 'a' 'f'])
  | _ => none

end CharSet

end AllParses.Pattern
