import AllParses.Error
import AllParses.Parser.Basic

/-!
# Asking a parser for answers

Questions about the results of a parser on one input, and about those that consume all of it.
Every answer is an `Option`: `none` says that the step budget was spent before the answer was
known, and a question never computes more results than its answer needs.
-/

namespace AllParses

namespace Parser

variable {σ α : Type}

/-- Every result. -/
def all (p : Parser σ α) (budget : Nat) (x : Input σ) : Option (List (α × Input σ)) :=
  (p.run budget x).toList?

/-- The first `n` results; later ones are never computed.  If `n` is zero, the call of the parser is
made nevertheless. -/
def firstN (p : Parser σ α) (budget : Nat) (x : Input σ) (n : Nat) :
    Option (List (α × Input σ)) :=
  ((p.limit n).run budget x).toList?

/-- The first result, if there is one. -/
def first? (p : Parser σ α) (budget : Nat) (x : Input σ) : Option (Option (α × Input σ)) :=
  (p.run budget x).head?

/-- Whether the parser has no result. -/
def failsOn (p : Parser σ α) (budget : Nat) (x : Input σ) : Option Bool :=
  (p.first? budget x).map Option.isNone

/-- The results of `p` that consume the whole input. -/
def full (p : Parser σ α) : Parser σ α where
  run budget x := (p.run budget x).filter fun (_, rest) => rest.isEmpty
  starts := p.starts
  cut_of_not_starts budget x stuck := by rw [p.cut_of_not_starts budget x stuck, Results.filter]

/-- The value of the first parse that consumes the whole input. -/
def fullParse (p : Parser σ α) (budget : Nat) (x : Input σ) : Option (Except ParseError α) :=
  (p.full.run budget x).head?.map fun
    | some (v, _) => .ok v
    | none => .error .noFullParse

/-- The values of the first `n` parses that consume the whole input. -/
def firstFullParses (p : Parser σ α) (budget : Nat) (x : Input σ) (n : Nat) : Option (List α) :=
  (((p.full.limit n).run budget x).map Prod.fst).toList?

/-- Whether the whole input can be consumed in more than one way. -/
def isAmbiguous (p : Parser σ α) (budget : Nat) (x : Input σ) : Option Bool :=
  match p.full.run budget x with
  | .done => some false
  | .cut => none
  | .item _ tail => (tail ()).head?.map Option.isSome

@[simp] theorem run_full (p : Parser σ α) (budget : Nat) (x : Input σ) :
    p.full.run budget x = (p.run budget x).filter fun (_, rest) => rest.isEmpty := rfl

end Parser

end AllParses
