import AllParses.Parser.Match

/-!
# Composing parsers

Sequence and choice keep every parse.  The results of a sequence come in the order of the first
parser's results; the left branch of a choice comes before the right one.
-/

namespace AllParses.Parser

variable {σ α β γ : Type}

/-- Runs `q` on everything that `p` leaves, and pairs the values. -/
def andThen (p : Parser σ α) (q : Parser σ β) : Parser σ (α × β) where
  run budget x := (p.run budget x).flatMap fun (v, rest) =>
    (q.run budget rest).map fun (w, rest) => ((v, w), rest)
  starts := p.starts
  cut_of_not_starts budget x stuck := by rw [p.cut_of_not_starts budget x stuck, Results.flatMap]

/-- The results of `p`, then those of `q`, on the same input. -/
def either (p q : Parser σ α) : Parser σ α where
  run budget x := (p.run budget x).append fun _ => q.run budget x
  starts := p.starts
  cut_of_not_starts budget x stuck := by rw [p.cut_of_not_starts budget x stuck, Results.append]

/-- The results of all the parsers, from left to right.  Without parsers there are none. -/
def anyOf : List (Parser σ α) → Parser σ α
  | [] => fail
  | p :: ps => ps.foldl either p

/-- The results of `p`, or those of `q` when `p` fails.  Whether it fails is found out before any set
is handed over. -/
def orElse (p q : Parser σ α) : Parser σ α where
  run budget x :=
    match p.run budget x with
    | .done => q.run budget x
    | .cut => .cut
    | .item v tail => .item v tail
  starts budget x :=
    match p.run budget x with
    | .done => q.starts budget x
    | .cut => false
    | .item _ _ => true
  cut_of_not_starts budget x := by
    cases p.run budget x with
    | done => exact q.cut_of_not_starts budget x
    | cut => exact fun _ => rfl
    | item v tail => simp

/-- A sequence that keeps the first value. -/
def thenSkip (p : Parser σ α) (q : Parser σ β) : Parser σ α :=
  (p.andThen q).map Prod.fst

/-- A sequence that keeps the second value. -/
def skipThen (p : Parser σ α) (q : Parser σ β) : Parser σ β :=
  (p.andThen q).map Prod.snd

/-- One occurrence or none; the occurrences come first. -/
def optional (p : Parser σ α) : Parser σ (Option α) :=
  (p.map some).either (succeed none)

/-- The first result of `p`, or `v` when `p` fails. -/
def withDefault (v : α) (p : Parser σ α) : Parser σ α :=
  (p.either (succeed v)).firstOnly

/-- Runs `p` between an opening and a closing parser, and keeps its value. -/
def between (opening : Parser σ α) (p : Parser σ β) (closing : Parser σ γ) : Parser σ β :=
  (opening.skipThen p).thenSkip closing

/-- Runs `p` in round brackets. -/
def inParentheses (p : Parser Char α) : Parser Char α :=
  between (symbol '(') p (symbol ')')

/-- Runs `p` in square brackets. -/
def inBrackets (p : Parser Char α) : Parser Char α :=
  between (symbol '[') p (symbol ']')

/-- Runs `p` between the words `begin` and `end`. -/
def inBlock (p : Parser Char α) : Parser Char α :=
  between (token "begin".toList) p (token "end".toList)

@[simp] theorem run_andThen (p : Parser σ α) (q : Parser σ β) (budget : Nat) (x : Input σ) :
    (p.andThen q).run budget x = (p.run budget x).flatMap fun (v, rest) =>
      (q.run budget rest).map fun (w, rest) => ((v, w), rest) := rfl

@[simp] theorem run_either (p q : Parser σ α) (budget : Nat) (x : Input σ) :
    (p.either q).run budget x = (p.run budget x).append fun _ => q.run budget x := rfl

theorem either_fail (p : Parser σ α) : p.either fail = p := by
  simp [either, fail]

/-- A call of the choice comes back even if one of `p` would not. -/
theorem run_fail_either (p : Parser σ α) : (fail.either p).run = p.run := rfl

theorem either_assoc (p q r : Parser σ α) : (p.either q).either r = p.either (q.either r) := by
  simp only [either, Results.append_assoc]

end AllParses.Parser
