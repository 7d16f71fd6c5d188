import AllParses.Input
import AllParses.Results

/-!
# Parsers

A parser maps an input to the results of all its parses, each a value with what is left of the
input.  The empty result set is failure.

Repetitions and recursive grammars may run without end, so a parser runs under a step budget.  A
result set that the budget did not suffice for ends in `Results.cut`; every other answer is
definite.

A result set is lazy, but the call that makes it is not: `orElse` and `firstRun` look for results
before they hand over any set, and if these are never found the call does not come back.  Who asks for
no result at all still makes the call.  So a parser also says whether its call comes back.
-/

namespace AllParses

/-- A function from inputs to result sets, under a step budget. -/
@[ext]
structure Parser (σ α : Type) where
  /-- The results on an input, computed with at most `budget` nested unfoldings. -/
  run : (budget : Nat) → Input σ → Results (α × Input σ)
  /-- Whether the call comes back, so that its set can be asked for results. -/
  starts : (budget : Nat) → Input σ → Bool := fun _ _ => true
  /-- A call that does not come back gives nothing. -/
  cut_of_not_starts : ∀ budget x, starts budget x = false → run budget x = .cut := by simp

namespace Parser

variable {σ α β γ : Type}

/-- Never succeeds. -/
def fail : Parser σ α where
  run _ _ := .done

instance : Inhabited (Parser σ α) := ⟨fail⟩

/-- Always gives `v` and consumes nothing. -/
def succeed (v : α) : Parser σ α where
  run _ x := .single (v, x)

/-- Consumes nothing and carries no value. -/
def epsilon : Parser σ Unit :=
  succeed ()

/-- Comes back, but gives no definite answer on any input: what remains when the budget is spent. -/
def exhausted : Parser σ α where
  run _ _ := .cut

/-- Builds the parser each time it is run, so that it may mention the parser being defined. -/
def deferred (p : Unit → Parser σ α) : Parser σ α where
  run budget x := (p ()).run budget x
  starts budget x := (p ()).starts budget x
  cut_of_not_starts := (p ()).cut_of_not_starts

/-- Applies `f` to the value of every result. -/
def map (f : α → β) (p : Parser σ α) : Parser σ β where
  run budget x := (p.run budget x).map fun (v, rest) => (f v, rest)
  starts := p.starts
  cut_of_not_starts budget x stuck := by rw [p.cut_of_not_starts budget x stuck, Results.map]

/-- Skips layout, then runs `p`.  Layout after the result is left alone. -/
def afterLayout [Alphabet σ] (p : Parser σ α) : Parser σ α where
  run budget x := p.run budget x.skipLayout
  starts budget x := p.starts budget x.skipLayout
  cut_of_not_starts budget x := p.cut_of_not_starts budget x.skipLayout

/-- The first `n` results of `p`; later ones are never computed.  The call of `p` is made even if
`n` is zero. -/
def limit (n : Nat) (p : Parser σ α) : Parser σ α where
  run budget x := if p.starts budget x then .take n fun _ => p.run budget x else .cut
  starts := p.starts
  cut_of_not_starts budget x stuck := by rw [stuck, if_neg Bool.false_ne_true]

/-- The first result of `p`, if there is one. -/
def firstOnly (p : Parser σ α) : Parser σ α :=
  p.limit 1

/-- The text that stands for a parser where it is shown. -/
def description : String := "Parser \x7b .. \x7d"

@[simp] theorem run_fail (budget : Nat) (x : Input σ) :
    (fail : Parser σ α).run budget x = .done := rfl

@[simp] theorem run_succeed (v : α) (budget : Nat) (x : Input σ) :
    (succeed v).run budget x = .single (v, x) := rfl

@[simp] theorem run_exhausted (budget : Nat) (x : Input σ) :
    (exhausted : Parser σ α).run budget x = .cut := rfl

@[simp] theorem run_map (f : α → β) (p : Parser σ α) (budget : Nat) (x : Input σ) :
    (p.map f).run budget x = (p.run budget x).map fun (v, rest) => (f v, rest) := rfl

@[simp] theorem starts_map (f : α → β) (p : Parser σ α) (budget : Nat) (x : Input σ) :
    (p.map f).starts budget x = p.starts budget x := rfl

/-- A call that gives anything has come back. -/
theorem starts_of_ne_cut {p : Parser σ α} {budget : Nat} {x : Input σ}
    (known : p.run budget x ≠ .cut) : p.starts budget x = true := by
  cases started : p.starts budget x with
  | true => rfl
  | false => exact absurd (p.cut_of_not_starts budget x started) known

theorem run_limit_of_starts {p : Parser σ α} {budget : Nat} {x : Input σ}
    (started : p.starts budget x = true) (n : Nat) :
    (p.limit n).run budget x = .take n fun _ => p.run budget x :=
  if_pos started

/-- Who asks for a result finds out as well that a call does not come back. -/
theorem run_limit_succ (n : Nat) (p : Parser σ α) (budget : Nat) (x : Input σ) :
    (p.limit (n + 1)).run budget x = .take (n + 1) fun _ => p.run budget x := by
  cases started : p.starts budget x with
  | true => exact run_limit_of_starts started _
  | false =>
    rw [(p.limit (n + 1)).cut_of_not_starts budget x started, Results.take,
      p.cut_of_not_starts budget x started]

theorem run_firstOnly (p : Parser σ α) (budget : Nat) (x : Input σ) :
    p.firstOnly.run budget x = .take 1 fun _ => p.run budget x :=
  run_limit_succ 0 p budget x

theorem items_run_limit (n : Nat) (p : Parser σ α) (budget : Nat) (x : Input σ) :
    ((p.limit n).run budget x).items = (p.run budget x).items.take n := by
  cases started : p.starts budget x with
  | true => rw [run_limit_of_starts started, Results.items_take]
  | false =>
    rw [(p.limit n).cut_of_not_starts budget x started, p.cut_of_not_starts budget x started,
      Results.items_cut, List.take_nil]

theorem map_map (g : β → γ) (f : α → β) (p : Parser σ α) :
    (p.map f).map g = p.map fun v => g (f v) := by
  simp only [map, Results.map_map]

end Parser

end AllParses
