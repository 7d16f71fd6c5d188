import AllParses.Pattern.CharSet

/-!
# Patterns

Regular expressions in which the order of alternatives and the choice between more and fewer
repetitions express a preference.
-/

namespace AllParses

/-- A condition on the characters before and after a place. -/
inductive Pattern.Boundary where
  | textStart
  | textEnd
  | lineStart
  | lineEnd
  /-- Between a word character and one that is none. -/
  | wordEdge
  | notWordEdge
  | wordStart
  | wordEnd
  /-- Not after a word character. -/
  | wordStartHalf
  /-- Not before a word character. -/
  | wordEndHalf
  deriving DecidableEq

/-- A regular expression with preferences. -/
inductive Pattern where
  /-- Matches the given characters. -/
  | literal (cs : List Char)
  /-- Matches one character of the set. -/
  | oneOf (set : Pattern.CharSet)
  /-- Matches the empty text where the condition holds. -/
  | check (boundary : Pattern.Boundary)
  | seq (p q : Pattern)
  /-- Matches what either matches, and prefers the first. -/
  | alt (p q : Pattern)
  /-- Matches repetitions, and prefers more of them when `greedy`, fewer otherwise. -/
  | times (p : Pattern) (min : Nat) (max : Option Nat) (greedy : Bool)
  /-- Matches what `p` matches, as a part that could be told apart from the rest. -/
  | group (p : Pattern)
  deriving DecidableEq, Inhabited

namespace Pattern

namespace Boundary

private def isWord (c : Option Char) : Bool :=
  c.any Unicode.isWordCharacter

/-- Whether the condition holds between the two characters, which are absent at the ends. -/
def holds (b : Boundary) (before after : Option Char) : Bool :=
  match b with
  | textStart => before.isNone
  | textEnd => after.isNone
  | lineStart => before.all (· = '\n')
  | lineEnd => after.all (· = '\n')
  | wordEdge => isWord before != isWord after
  | notWordEdge => isWord before == isWord after
  | wordStart => !isWord before && isWord after
  | wordEnd => isWord before && !isWord after
  | wordStartHalf => !isWord before
  | wordEndHalf => !isWord after

end Boundary

/-- Matches the empty text. -/
def empty : Pattern :=
  literal []

/-- Matches nothing. -/
def never : Pattern :=
  oneOf .empty

/-- The number of parts that the pattern is made of. -/
def size : Pattern → Nat
  | literal _ | oneOf _ | check _ => 1
  | seq p q => p.size + q.size + 1
  | alt p q => p.size + q.size + 1
  | times p _ _ _ => p.size + 1
  | group p => p.size + 1

/-- Whether the pattern is seen to match nothing but the empty text. -/
def isZeroWidth : Pattern → Bool
  | literal cs => cs.isEmpty
  | oneOf _ => false
  | check _ => true
  | seq p q => p.isZeroWidth && q.isZeroWidth
  | alt p q => p.isZeroWidth && q.isZeroWidth
  | times p _ max _ => p.isZeroWidth && max.isSome
  | group p => p.isZeroWidth

/-- The least number of characters that the pattern matches; none if a part of it matches
nothing at all. -/
def minLength? : Pattern → Option Nat
  | literal cs => some cs.length
  | oneOf set => if set.ranges.isEmpty then none else some 1
  | check _ => some 0
  | seq p q => do return (← p.minLength?) + (← q.minLength?)
  | alt p q => do return Nat.min (← p.minLength?) (← q.minLength?)
  | times p min _ _ => do return (← p.minLength?) * min
  | group p => p.minLength?

/-- Whether the pattern is seen to match no empty text. -/
def isConsuming (p : Pattern) : Bool :=
  p.minLength?.any (0 < ·)

/-- Whether the pattern is seen to match at the start of the text only. -/
def startsText : Pattern → Bool
  | literal _ | oneOf _ => false
  | check b => b = .textStart
  | seq p q => p.startsText || (p.isZeroWidth && q.startsText)
  | alt p q => p.startsText && q.startsText
  | times p min _ _ => 0 < min && p.startsText
  | group p => p.startsText

/-- Whether the pattern is seen to match up to the end of the text only. -/
def endsText : Pattern → Bool
  | literal _ | oneOf _ => false
  | check b => b = .textEnd
  | seq p q => q.endsText || (p.endsText && q.isZeroWidth)
  | alt p q => p.endsText && q.endsText
  | times p min _ _ => 0 < min && p.endsText
  | group p => p.endsText

end Pattern

end AllParses
