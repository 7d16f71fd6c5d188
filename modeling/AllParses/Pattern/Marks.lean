/-!
# Marks

A set of small numbers that is emptied in one step.  It keeps for each number the round in which the
number was put in last; the numbers of the current round are the members.
-/

namespace AllParses.Pattern

/-- A set of numbers below a bound. -/
structure Marks where
  round : Nat
  /-- The last round of each number, zero for none. -/
  rounds : Array Nat

namespace Marks

/-- The empty set of numbers below `bound`. -/
def empty (bound : Nat) : Marks :=
  ⟨1, Array.replicate bound 0⟩

/-- Whether the set holds `n`. -/
def contains (m : Marks) (n : Nat) : Bool :=
  m.rounds[n]? == some m.round

/-- The set with `n`, if `n` is below the bound. -/
def insert (m : Marks) (n : Nat) : Marks :=
  { m with rounds := m.rounds.setIfInBounds n m.round }

/-- The set without its members. -/
def clear (m : Marks) : Marks :=
  { m with round := m.round + 1 }

end Marks

end AllParses.Pattern
