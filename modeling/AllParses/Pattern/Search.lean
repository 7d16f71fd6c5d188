import AllParses.Pattern.Engine
import AllParses.Pattern.Marks
import AllParses.Pattern.Program

/-!
# Searching for a pattern

The search runs all ways of matching side by side, one character at a time, in the order of
preference.  It finds the leftmost match, and of the matches that begin there the preferred one.

Of two ways that come to the same instruction at the same place only the preferred one is
followed.  So a repetition whose body has matched nothing does not begin again.
-/

namespace AllParses.Pattern

/-- A way of matching that is under way: where in the program it is, and where in the text it has
begun. -/
structure Thread where
  address : Nat
  origin : Nat
  deriving DecidableEq

/-- The thread `distance` instructions further on. -/
def Thread.move (t : Thread) (distance : Int) : Thread :=
  ⟨((t.address : Int) + distance).toNat, t.origin⟩

/-- The threads that wait for a character. -/
structure Settled where
  waiting : List Thread
  /-- Where the preferred way that accepts has begun; the ways behind it are dropped. -/
  accepted : Option Nat
  /-- The instructions that have been come to. -/
  seen : Marks

/-- Follows the threads as far as they go without consuming anything, the preferred ones first. -/
def settle (program : Array Instruction) (before after : Option Char) :
    (fuel : Nat) → (pending : List Thread) → (seen : Marks) → (waiting : List Thread) → Settled
  | 0, _, seen, waiting => ⟨waiting.reverse, none, seen⟩
  | _, [], seen, waiting => ⟨waiting.reverse, none, seen⟩
  | fuel + 1, t :: pending, seen, waiting =>
    if seen.contains t.address then
      settle program before after fuel pending seen waiting
    else
      let seen := seen.insert t.address
      match program[t.address]? with
      | none => ⟨waiting.reverse, some t.origin, seen⟩
      | some (.consume _) => settle program before after fuel pending seen (t :: waiting)
      | some (.check b) =>
        if b.holds before after then
          settle program before after fuel (t.move 1 :: pending) seen waiting
        else
          settle program before after fuel pending seen waiting
      | some (.split preferred other) =>
        settle program before after fuel (t.move preferred :: t.move other :: pending) seen waiting
      | some (.jump distance) =>
        settle program before after fuel (t.move distance :: pending) seen waiting

/-- The thread after it has consumed `c`, if it can. -/
def Thread.step? (program : Array Instruction) (c : Char) (t : Thread) : Option Thread :=
  match program[t.address]? with
  | some (.consume set) => if set.contains c then some (t.move 1) else none
  | _ => none

/-- Goes through the text.  `place` characters lie behind, `before` is the last of them, and
`found` is the best match so far; while there is none, a new match may begin at every place. -/
def searchFrom (program : Array Instruction) :
    (place : Nat) → (before : Option Char) → List Thread → (seen : Marks) →
      (found : Option Match) → List Char → Option Match
  | place, before, threads, seen, found, text =>
    let threads := if found.isNone then threads ++ [⟨0, place⟩] else threads
    if threads.isEmpty then
      found
    else
      let fuel := threads.length + 2 * program.size + 1
      let ⟨waiting, accepted, seen⟩ :=
        settle program before text.head? fuel threads seen.clear []
      let found := match accepted with
        | some origin => some ⟨origin, place⟩
        | none => found
      match text with
      | [] => found
      | c :: text =>
        searchFrom program (place + 1) (some c) (waiting.filterMap (·.step? program c)) seen found
          text

/-- The leftmost and then preferred match in the text. -/
def search (program : Array Instruction) (text : List Char) : Option Match :=
  searchFrom program 0 none [] (.empty (program.size + 1)) none text

end AllParses.Pattern
