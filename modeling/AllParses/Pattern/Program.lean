import AllParses.Pattern.Basic

/-!
# Pattern programs

A pattern is turned into a list of instructions.  Execution begins at the first one and accepts
when it runs past the last one.  Where an instruction goes is said relative to its own place, so
blocks of instructions can be put anywhere.
-/

namespace AllParses.Pattern

/-- One instruction. -/
inductive Instruction where
  /-- Consumes one character of the set. -/
  | consume (set : CharSet)
  /-- Goes on when the condition holds. -/
  | check (boundary : Boundary)
  /-- Goes on at both places, and prefers the first. -/
  | split (preferred other : Int)
  | jump (distance : Int)
  deriving DecidableEq, Inhabited

/-- A list of instructions with its length.  They are left by running past their end. -/
structure Block where
  instructions : List Instruction
  length : Nat
  length_eq : instructions.length = length

namespace Block

/-- No instruction. -/
def skip : Block :=
  ⟨[], 0, rfl⟩

/-- The instruction `i` in front of a block. -/
def cons (i : Instruction) (b : Block) : Block :=
  ⟨i :: b.instructions, b.length + 1, by simp [b.length_eq]⟩

/-- First `a`, then `b`. -/
def append (a b : Block) : Block :=
  ⟨a.instructions ++ b.instructions, a.length + b.length, by simp [a.length_eq, b.length_eq]⟩

/-- One instruction. -/
def one (i : Instruction) : Block :=
  skip.cons i

/-- The given instructions. -/
def ofList (is : List Instruction) : Block :=
  ⟨is, is.length, rfl⟩

/-- Either `a` or `b`, with `a` preferred. -/
def alt (a b : Block) : Block :=
  (a.append (b.cons (.jump (b.length + 1)))).cons (.split 1 (a.length + 2))

/-- A choice between going on at `more` and at `enough`. -/
def choose (greedy : Bool) (more enough : Int) : Instruction :=
  if greedy then .split more enough else .split enough more

/-- Either `a` or nothing. -/
def optional (greedy : Bool) (a : Block) : Block :=
  a.cons (choose greedy 1 (a.length + 1))

/-- At least one time `a`. -/
def repeated (greedy : Bool) (a : Block) : Block :=
  a.append (one (choose greedy (-a.length) 1))

/-- Exactly `n` times `a`. -/
def exactly (a : Block) (n : Nat) : Block :=
  n.repeat a.append skip

/-- Up to `n` times `a`. -/
def atMost (greedy : Bool) (a : Block) (n : Nat) : Block :=
  n.repeat (fun rest => optional greedy (a.append rest)) skip

/-- Any number of times `a`, where `a` consumes something. -/
def star (greedy : Bool) (a : Block) : Block :=
  (a.append (one (.jump (-(a.length + 1))))).cons (choose greedy 1 (a.length + 2))

/-- At least `n` times `a`.  Where `a` may match the empty text, the choice to begin is another one
than the choice to go on, since a repetition of the empty text comes back to the latter. -/
def atLeast (greedy isConsuming : Bool) (a : Block) : Nat → Block
  | 0 => if isConsuming then star greedy a else optional greedy (repeated greedy a)
  | n + 1 => (exactly a n).append (repeated greedy a)

end Block

/-- The instructions of a pattern. -/
def block : Pattern → Block
  | literal cs => .ofList (cs.map fun c => .consume (.single c))
  | oneOf set => .one (.consume set)
  | check b => .one (.check b)
  | seq p q => p.block.append q.block
  | alt p q => p.block.alt q.block
  | times p min none greedy => p.block.atLeast greedy p.isConsuming min
  | times p min (some max) greedy =>
    (p.block.exactly min).append (p.block.atMost greedy (max - min))
  | group p => p.block

/-- The program of a pattern. -/
def program (p : Pattern) : Array Instruction :=
  p.block.instructions.toArray

end AllParses.Pattern
