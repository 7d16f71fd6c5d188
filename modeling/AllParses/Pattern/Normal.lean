import AllParses.Pattern.Basic

/-!
# Patterns in normal form

Patterns are put together by functions that bring them into a simple form.  In this form no sequence
stands directly in a sequence, no choice directly in a choice, and neighbouring literals are one
literal.  A set of one character is a literal.

What all alternatives of a choice begin with is moved in front of the choice.  Then the ways of
matching the common part come first in the order of preference, and the alternatives second.
-/

namespace AllParses.Pattern

/-- The parts of a sequence. -/
def items : Pattern → List Pattern
  | literal [] => []
  | seq p q => p.items ++ q.items
  | p => [p]

/-- The alternatives of a choice. -/
def branches : Pattern → List Pattern
  | alt p q => p.branches ++ q.branches
  | p => [p]

/-- Puts an item in front of a sequence, and joins it with a literal that it meets. -/
def pushItem (p : Pattern) (ps : List Pattern) : List Pattern :=
  match p, ps with
  | literal a, literal b :: ps => literal (a ++ b) :: ps
  | p, ps => p :: ps

/-- Chains patterns by an operation; `none` for no pattern. -/
def chain? (op : Pattern → Pattern → Pattern) (ps : List Pattern) : Option Pattern :=
  match ps.reverse with
  | [] => none
  | last :: front => some (front.foldl (fun rest p => op p rest) last)

/-- The patterns one after the other. -/
def sequence (ps : List Pattern) : Pattern :=
  (chain? seq ((ps.flatMap items).foldr pushItem [])).getD empty

/-- One character of a set. -/
def ofSet (s : CharSet) : Pattern :=
  match s.ranges with
  | [(first, last)] => if first = last then literal [Char.ofNat first] else oneOf s
  | _ => oneOf s

/-- Whether two patterns are written alike.  A group is a part of its own, unlike any other. -/
def isLike : Pattern → Pattern → Bool
  | literal a, literal b => a = b
  | oneOf s, oneOf t => s.ranges == t.ranges
  | check a, check b => a = b
  | seq p q, seq p' q' => p.isLike p' && q.isLike q'
  | alt p q, alt p' q' => p.isLike p' && q.isLike q'
  | times p min max greedy, times p' min' max' greedy' =>
    min = min' && max = max' && greedy = greedy' && p.isLike p'
  | _, _ => false

/-- The items that two sequences begin with alike. -/
def sharedItems : List Pattern → List Pattern → List Pattern
  | p :: ps, q :: qs => if p.isLike q then p :: sharedItems ps qs else []
  | _, _ => []

/-- The items of a pattern that is a sequence of several. -/
def sequenceItems : Pattern → List Pattern
  | seq p q => (seq p q).items
  | _ => []

/-- The items that all alternatives begin with, if all are sequences. -/
def sharedFront : List Pattern → List Pattern
  | [] => []
  | p :: ps => ps.foldl (fun shared q => sharedItems shared q.sequenceItems) p.sequenceItems

/-- The character that a pattern matches as a literal. -/
def character? : Pattern → Option CharSet
  | literal [c] => some (.single c)
  | _ => none

/-- The set that a pattern matches one character of. -/
def set? : Pattern → Option CharSet
  | oneOf s => some s
  | _ => none

/-- A choice between patterns, the preferred one first.  A choice between single characters or
between sets is one set. -/
def choiceOf : (fuel : Nat) → List Pattern → Pattern
  | 0, _ => never
  | fuel + 1, ps =>
    match ps.flatMap branches with
    | [] => never
    | [p] => p
    | ps =>
      match ps.mapM character?, ps.mapM set? with
      | some sets, _ => ofSet (.ofList sets)
      | _, some sets => ofSet (.ofList sets)
      | none, none =>
        match sharedFront ps with
        | [] => (chain? alt ps).getD never
        | shared =>
          let rest := ps.map fun p => sequence (p.items.drop shared.length)
          sequence (shared ++ [choiceOf fuel rest])

/-- A choice between patterns, the preferred one first. -/
def choice (ps : List Pattern) : Pattern :=
  choiceOf (ps.foldl (fun n p => n + p.size) 1) ps

/-- Repetitions of a pattern.  More than one repetition of the empty text is one. -/
def repetition (p : Pattern) (min : Nat) (max : Option Nat) (greedy : Bool) : Pattern :=
  let (min, max) :=
    if p.isZeroWidth then (Nat.min min 1, some (Nat.min (max.getD 1) 1)) else (min, max)
  if min = 0 && max = some 0 then empty
  else if min = 1 && max = some 1 then p
  else times p min max greedy

end AllParses.Pattern
