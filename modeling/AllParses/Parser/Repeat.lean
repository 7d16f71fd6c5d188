import AllParses.Parser.Compose

/-!
# Repetition

`many` keeps every run of occurrences, `firstRun` follows the first result only.  An occurrence
that consumes nothing ends its run instead of being repeated, so a parser that can succeed on the
empty input may be repeated without harm.

Whether something has been consumed is seen by comparing what is left with the input.  Where a symbol
differs from itself, this takes an occurrence that consumes nothing for one that does.
-/

namespace AllParses.Parser

variable {σ α β : Type} [BEq σ]

/-- The runs of one or more occurrences, each result's continuations before the next result.  The
second budget bounds the length of a run. -/
def runsFrom (p : Parser σ α) (budget : Nat) : Nat → Input σ → Results (List α × Input σ)
  | 0, _ => .cut
  | steps + 1, x => (p.run budget x).flatMap fun (v, rest) =>
    if rest == x then
      .single ([v], rest)
    else
      ((runsFrom p budget steps rest).append fun _ => .single ([], rest)).map
        fun (vs, rest) => (v :: vs, rest)

/-- One or more occurrences. -/
def many1 (p : Parser σ α) : Parser σ (List α) where
  run budget x := p.runsFrom budget budget x
  starts := p.starts
  cut_of_not_starts budget x stuck := by
    cases budget with
    | zero => rfl
    | succ budget => rw [runsFrom, p.cut_of_not_starts _ x stuck, Results.flatMap]

/-- Any number of occurrences; the empty run comes last. -/
def many (p : Parser σ α) : Parser σ (List α) :=
  p.many1.either (succeed [])

/-- Follows the first result of `p` until it fails or consumes nothing.  The occurrences seen so
far are in `seen`, the last one first; the answer is `none` when the budget does not suffice. -/
def followFirst (p : Parser σ α) (budget : Nat) :
    Nat → List α → Input σ → Option (List α × Input σ)
  | 0, _, _ => none
  | steps + 1, seen, x =>
    match p.run budget x with
    | .cut => none
    | .done => some (seen.reverse, x)
    | .item (v, rest) _ =>
      if rest == x then some ((v :: seen).reverse, rest)
      else followFirst p budget steps (v :: seen) rest

/-- The run that takes the first result of `p` at every step; it may be empty.  The whole run is
followed before any set is handed over. -/
def firstRun (p : Parser σ α) : Parser σ (List α) where
  run budget x :=
    match p.followFirst budget budget [] x with
    | none => .cut
    | some found => .single found
  starts budget x := (p.followFirst budget budget [] x).isSome
  cut_of_not_starts budget x stuck := by
    rw [Option.isNone_iff_eq_none.mp (Option.isSome_eq_false_iff.mp stuck)]

/-- The run that takes the first result of `p` at every step, unless it is empty. -/
def firstRun1 (p : Parser σ α) : Parser σ (List α) where
  run budget x :=
    match p.followFirst budget budget [] x with
    | none => .cut
    | some ([], _) => .done
    | some (v :: vs, rest) => .single (v :: vs, rest)
  starts budget x := (p.followFirst budget budget [] x).isSome
  cut_of_not_starts budget x stuck := by
    rw [Option.isNone_iff_eq_none.mp (Option.isSome_eq_false_iff.mp stuck)]

/-- Occurrences of `p` with `separator` between them; the empty list only when `p` fails. -/
def sepBy (p : Parser σ α) (separator : Parser σ β) : Parser σ (List α) :=
  ((p.andThen (separator.skipThen p).many).map fun (v, vs) => v :: vs).orElse (succeed [])

/-- Occurrences of `p` with commas between them. -/
def commaSeparated (p : Parser Char α) : Parser Char (List α) :=
  p.sepBy (symbol ',')

/-- Occurrences of `p` with semicolons between them. -/
def semicolonSeparated (p : Parser Char α) : Parser Char (List α) :=
  p.sepBy (symbol ';')

@[simp] theorem runsFrom_zero (p : Parser σ α) (budget : Nat) (x : Input σ) :
    p.runsFrom budget 0 x = .cut := rfl

theorem runsFrom_succ (p : Parser σ α) (budget steps : Nat) (x : Input σ) :
    p.runsFrom budget (steps + 1) x = (p.run budget x).flatMap fun (v, rest) =>
      if rest == x then .single ([v], rest)
      else ((p.runsFrom budget steps rest).append fun _ => .single ([], rest)).map
        fun (vs, rest) => (v :: vs, rest) := rfl

@[simp] theorem run_many1 (p : Parser σ α) (budget : Nat) (x : Input σ) :
    p.many1.run budget x = p.runsFrom budget budget x := rfl

@[simp] theorem run_many (p : Parser σ α) (budget : Nat) (x : Input σ) :
    p.many.run budget x =
      (p.runsFrom budget budget x).append fun _ => .single ([], x) := rfl

end AllParses.Parser
