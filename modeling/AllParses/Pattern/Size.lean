import AllParses.Pattern.Basic
import AllParses.Unicode.Utf8

/-!
# The size of patterns

A pattern takes as much room as the automaton over UTF-8 bytes that matches it forwards, or as the
one that matches it backwards, whichever is larger.  Repetitions with bounds are written out in
full, so a short pattern may take much room; patterns that take too much are refused.
-/

namespace AllParses.Pattern

/-- The way in which an automaton goes through the text. -/
inductive Direction where
  | forwards
  | backwards
  deriving DecidableEq

namespace Size

/-- The room for one state. -/
def state : Nat := 32

/-- The room for one transition of a state that tells several bytes apart. -/
def transition : Nat := 8

/-- The room for one alternative of a state that consumes nothing. -/
def link : Nat := 4

/-- The room for a state with `n` alternatives. -/
def fork (n : Nat) : Nat :=
  state + n * link

/-- The room for a state that tells `n` bytes or ranges of bytes apart. -/
def branching (n : Nat) : Nat :=
  state + n * transition

/-- The total of some amounts. -/
def total (amounts : List Nat) : Nat :=
  amounts.foldl (· + ·) 0

/-- Sequences by their first elements: each first element with the rests behind it, where
neighbouring sequences that begin alike are put together. -/
def groupByHead {α : Type} [BEq α] (sequences : List (List α)) : List (α × List (List α)) :=
  sequences.foldr
    (fun s groups =>
      match s, groups with
      | [], groups => groups
      | a :: s, [] => [(a, [s])]
      | a :: s, (b, rests) :: groups =>
        if a == b then (b, s :: rests) :: groups else (a, [s]) :: (b, rests) :: groups)
    []

/-- The different sets of sequences that are left to match on the way through byte sequences of at
most `length` bytes. -/
def residues (length : Nat) (sequences : List (List Unicode.Utf8.ByteRange)) :
    List (List (List Unicode.Utf8.ByteRange)) :=
  match length with
  | 0 => []
  | length + 1 =>
    if sequences.all List.isEmpty then []
    else sequences :: (groupByHead sequences).flatMap fun (_, rests) => residues length rests

/-- The number of different beginnings of byte sequences of at most `length` bytes. -/
def beginnings (length : Nat) (sequences : List (List Unicode.Utf8.ByteRange)) : Nat :=
  match length with
  | 0 => 0
  | length + 1 => total ((groupByHead sequences).map fun (_, rests) => beginnings length rests + 1)

/-- The greatest number of bytes of a character. -/
def maxBytes : Nat := 4

/-- The room for one character of a set.  Forwards, there is a state for each different residue of
the byte sequences; backwards, a state for each different beginning of one, and an alternative for
each sequence. -/
def set (direction : Direction) (s : CharSet) : Nat :=
  let ranges := s.ranges
  if ranges.all fun (_, last) => last < 0x80 then
    state + branching ranges.length
  else
    let sequences := Unicode.Utf8.ofRanges ranges
    match direction with
    | .forwards =>
      let rooms := (residues maxBytes sequences).eraseDups.map fun sequences =>
        branching (groupByHead sequences).length
      state + total rooms
    | .backwards => state + fork sequences.length + beginnings maxBytes sequences * state

/-- The room for a literal. -/
def literal (cs : List Char) : Nat :=
  if cs.isEmpty then state else total (cs.map fun c => c.utf8Size * state)

/-- The words that are the alternatives of a choice between literals. -/
def words? : Pattern → Option (List (List Char))
  | .literal [] => none
  | .literal cs => some [cs]
  | .alt p q => do return (← words? p) ++ (← words? q)
  | _ => none

/-- Cuts a list of words where one has come to its end.  Of words that end before any other goes on,
all but the first are left out. -/
def runs (words : List (List Nat)) : List (List (List Nat)) :=
  let ended := words.takeWhile List.isEmpty
  let words := if ended.isEmpty then words else [] :: words.drop ended.length
  words.foldr
    (fun word runs =>
      match word, runs with
      | [], runs => [] :: runs
      | word, [] => [[word]]
      | word, run :: runs => (word :: run) :: runs)
    [[]]

/-- The words by their first bytes, in any order. -/
def byFirst (words : List (List Nat)) : List (Nat × List (List Nat)) :=
  words.foldr
    (fun word groups =>
      match word with
      | [] => groups
      | b :: word =>
        match groups.lookup b with
        | none => (b, [word]) :: groups
        | some rests => (b, word :: rests) :: groups.filter (·.1 != b))
    []

/-- The room for a tree of words of at most `length` bytes, in which words that begin alike go
together as long as no word before them has ended. -/
def tree (length : Nat) (words : List (List Nat)) : Nat :=
  match length with
  | 0 => 0
  | length + 1 =>
    if words.all List.isEmpty then 0
    else
      let runs := (runs words).map byFirst
      let nonempty := runs.filter fun run => !run.isEmpty
      let forks := fork (nonempty.length + (runs.length - 1))
      let rooms := nonempty.map fun run =>
        (if run.length = 1 then state else branching run.length) +
          total (run.map fun (_, rests) => tree length rests)
      forks + total rooms

/-- The room for a choice between words. -/
def ofWords (direction : Direction) (words : List (List Char)) : Nat :=
  let words := words.map fun word =>
    let bytes := word.flatMap Unicode.Utf8.ofChar
    match direction with
    | .forwards => bytes
    | .backwards => bytes.reverse
  state + tree (words.foldl (fun n word => Nat.max n word.length) 0 + 1) words

/-- The room for a repetition, from the room for what is repeated and whether that is consuming. -/
def times (body : Nat) (isConsuming : Bool) : (min : Nat) → (max : Option Nat) → Nat
  | 0, some 1 => fork 2 + body + state
  | 0, none => if isConsuming then fork 2 + body else fork 2 + fork 2 + state + body
  | min, none => min * body + fork 2
  | min, some max =>
    if min = max then min * body
    else (if min = 0 then state else min * body) + state + (max - min) * (fork 2 + body)

/-- The room for a pattern.  `further` tells that it is a further alternative of a choice. -/
def pattern (direction : Direction) : Pattern → (further : Bool) → Nat
  | .alt p q, further =>
    let rooms := link + pattern direction p false + pattern direction q true
    if further then rooms
    else
      match words? (.alt p q) with
      | some words => ofWords direction words
      | none => fork 0 + state + rooms
  | .literal cs, further => (if further then link else 0) + literal cs
  | .oneOf s, further => (if further then link else 0) + set direction s
  | .check _, further => (if further then link else 0) + state
  | .seq p q, further =>
    (if further then link else 0) + pattern direction p false + pattern direction q false
  | .times p min max _, further =>
    (if further then link else 0) + times (pattern direction p false) p.isConsuming min max
  | .group p, further =>
    let marks := if direction = .forwards then 2 * state else 0
    (if further then link else 0) + marks + pattern direction p false

end Size

/-- The room for the automaton of a pattern: the pattern itself, the state that accepts, and what
stands in front.  That is a state alone if the pattern is bound to the place where the automaton
begins, and else a loop over any bytes. -/
def room (direction : Direction) (p : Pattern) : Nat :=
  let anchored := match direction with
    | .forwards => p.startsText
    | .backwards => p.endsText
  let front :=
    if anchored then Size.state
    else Size.fork 2 + Size.branching 1 + Size.state
  front + Size.pattern direction (.group p) false + Size.state

/-- The most room that a pattern may take. -/
def maxRoom : Nat := 0xa00000

/-- Whether the pattern takes no more room than allowed. -/
def fits (p : Pattern) : Bool :=
  p.room .forwards ≤ maxRoom && p.room .backwards ≤ maxRoom

end AllParses.Pattern
