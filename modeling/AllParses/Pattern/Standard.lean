import AllParses.Pattern.Reader
import AllParses.Pattern.Search

/-!
# An engine of one's own

This engine knows what is common in patterns: characters, classes, groups, choices, repetitions and
conditions.  It does not know all that other engines do; classes by the properties of characters, for
instance, it refuses.
-/

namespace AllParses.Pattern

/-- Compiles patterns to programs, and runs all ways of matching side by side. -/
def standard : Engine where
  Regex := Array Instruction
  compile text := (ofText? text).map program
  find := search

end AllParses.Pattern
