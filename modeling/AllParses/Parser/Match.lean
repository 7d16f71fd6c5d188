import AllParses.Parser.Basic

/-!
# Matching symbols

The parsers that look at the input.  Each has at most one result, and a mismatch is failure.
-/

namespace AllParses.Parser

variable {σ : Type}

/-- One symbol for which `p` holds. -/
def satisfy (p : σ → Bool) : Parser σ σ where
  run _ x := .ofOption ((x.head?.filter p).map fun c => (c, x.tail))

/-- Exactly the symbol `c`. -/
def symbol [BEq σ] (c : σ) : Parser σ σ :=
  satisfy fun d => d == c

/-- Exactly the symbols `cs`, in order. -/
def token [BEq σ] (cs : List σ) : Parser σ (List σ) :=
  let width := cs.length
  { run := fun _ x =>
      if (x.take width).symbols == cs then .single (cs, x.drop width) else .done }

/-- One lexeme called `name`: on text the characters of the name, on tokens the one token. -/
def literal [Alphabet σ] [BEq σ] (name : String) : Parser σ Unit where
  run _ x := .ofOption ((x.strip? name).map fun rest => ((), rest))

@[simp] theorem run_satisfy (p : σ → Bool) (budget : Nat) (x : Input σ) :
    (satisfy p).run budget x =
      .ofOption ((x.head?.filter p).map fun c => (c, x.tail)) := rfl

@[simp] theorem run_token [BEq σ] (cs : List σ) (budget : Nat) (x : Input σ) :
    (token cs).run budget x =
      if x.symbols.take cs.length == cs then .single (cs, x.drop cs.length) else .done := rfl

@[simp] theorem run_literal [Alphabet σ] [BEq σ] (name : String) (budget : Nat)
    (x : Input σ) :
    (literal name : Parser σ Unit).run budget x =
      .ofOption ((x.strip? name).map fun rest => ((), rest)) := rfl

end AllParses.Parser
