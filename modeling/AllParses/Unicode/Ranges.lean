/-!
# Ranges of code points

A class of characters is given by inclusive ranges of code points.  They are in increasing order,
and between two of them there is at least one code point that belongs to neither; so each class has
one list of ranges.
-/

namespace AllParses.Unicode

/-- Inclusive ranges, in increasing order and apart. -/
abbrev Ranges := List (Nat × Nat)

/-- The greatest code point. -/
def maxCodePoint : Nat := 0x10ffff

namespace Ranges

/-- Whether one of the ranges holds `n`. -/
def contains (ranges : Ranges) (n : Nat) : Bool :=
  ranges.any fun (first, last) => first ≤ n && n ≤ last

/-- Puts one more range in, and joins it with those that it meets or touches. -/
def insert (first last : Nat) : Ranges → Ranges
  | [] => [(first, last)]
  | (a, b) :: ranges =>
    if last + 1 < a then (first, last) :: (a, b) :: ranges
    else if b + 1 < first then (a, b) :: insert first last ranges
    else insert (min a first) (max b last) ranges

/-- The code points in one class or the other. -/
def union (r s : Ranges) : Ranges :=
  s.foldl (fun r (first, last) => r.insert first last) r

/-- The code points from `start` on that the ranges leave out. -/
def gapsFrom (start : Nat) : Ranges → Ranges
  | [] => if start ≤ maxCodePoint then [(start, maxCodePoint)] else []
  | (a, b) :: ranges =>
    if start < a then (start, a - 1) :: gapsFrom (b + 1) ranges else gapsFrom (b + 1) ranges

/-- The code points outside of the class. -/
def compl (r : Ranges) : Ranges :=
  gapsFrom 0 r

/-- The code points in both classes. -/
def inter (r s : Ranges) : Ranges :=
  (r.compl.union s.compl).compl

/-- The code points in the first class only. -/
def diff (r s : Ranges) : Ranges :=
  (r.compl.union s).compl

end Ranges

end AllParses.Unicode
