import AllParses.Parser.Repeat

/-!
# Operator chains

Operands with binary operators between them.  Both kinds of chain scan the input in the same way,
from left to right; they differ in how the operands are grouped.
-/

namespace AllParses.Parser

variable {σ α : Type} [BEq σ]

/-- An operator together with its right operand. -/
abbrev Step (α : Type) := (α → α → α) × α

/-- One operand and the steps that follow it. -/
def chain (operand : Parser σ α) (operator : Parser σ (α → α → α)) :
    Parser σ (α × List (Step α)) :=
  operand.andThen (operator.andThen operand).many

/-- Groups to the left: `1+2+3` is `(1+2)+3`. -/
def groupLeft (first : α) (steps : List (Step α)) : α :=
  steps.foldl (fun acc (combine, operand) => combine acc operand) first

/-- Groups to the right: `1+2+3` is `1+(2+3)`.  The steps are turned round first, so that each
operator meets its left operand, and are then folded from the last operand on. -/
def groupRight (first : α) (steps : List (Step α)) : α :=
  let (pending, last) := steps.foldl
    (fun (pending, last) (combine, operand) => ((last, combine) :: pending, operand)) ([], first)
  pending.foldl (fun acc (operand, combine) => combine operand acc) last

/-- A chain grouped to the left. -/
def leftAssociative (operand : Parser σ α) (operator : Parser σ (α → α → α)) : Parser σ α :=
  (chain operand operator).map fun (first, steps) => groupLeft first steps

/-- A chain grouped to the right. -/
def rightAssociative (operand : Parser σ α) (operator : Parser σ (α → α → α)) : Parser σ α :=
  (chain operand operator).map fun (first, steps) => groupRight first steps

end AllParses.Parser
