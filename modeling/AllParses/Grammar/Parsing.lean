import AllParses.ParseTree
import AllParses.Parser.Compose

/-!
# Parsing by a grammar

Every symbol of a grammar is a parser: a terminal matches one lexeme of its name, a nonterminal
tries its alternatives in order.  Rules are looked up each time a nonterminal is expanded, so they
may refer to themselves and to each other.

An expansion ends on every input when no nonterminal can come back to itself before a symbol is
consumed; a rule such as `S ::= S a` never does.
-/

namespace AllParses.Grammar

/-- How the symbols of a grammar are matched. -/
structure Options where
  /-- Whether layout is skipped before every terminal. -/
  skipLayout : Bool := true
  /-- The greatest number of results of the start symbol, if there is a bound. -/
  maxResults : Option Nat := none
  deriving DecidableEq, Repr, Inhabited

variable {σ α : Type}

/-- The sequence of the symbols' parsers, collecting the trees. -/
def sequenceOf (parserOf : Symbol → Parser σ α) (symbols : Alternative) :
    Parser σ (List α) :=
  symbols.foldl
    (fun parsed s => (parsed.andThen (parserOf s)).map fun (trees, tree) => trees ++ [tree])
    (.succeed [])

/-- The alternatives' parsers in the order of declaration. -/
def choiceOf (parserOf : Symbol → Parser σ α) (alternatives : List Alternative) :
    Parser σ (List α) :=
  .anyOf (alternatives.map (sequenceOf parserOf))

variable [Alphabet σ] [BEq σ]

/-- One lexeme called `name`. -/
def terminalParser (o : Options) (name : String) : Parser σ ParseTree :=
  let lexeme : Parser σ Unit := .literal name
  (if o.skipLayout then lexeme.afterLayout else lexeme).map fun _ => .terminal name

/-- The parser of a symbol that may expand nonterminals within nonterminals up to the given depth.
A nonterminal without a rule has no parse. -/
def symbolWithin (g : Grammar) (o : Options) : (depth : Nat) → Symbol → Parser σ ParseTree
  | _, .terminal name => terminalParser o name
  | 0, .nonterminal _ => .exhausted
  | depth + 1, .nonterminal name =>
    .deferred fun _ =>
      match g.alternatives? name with
      | none => .fail
      | some alternatives =>
        (choiceOf (g.symbolWithin o depth) alternatives).map (.nonterminal name)

/-- The parser of a symbol. -/
def symbolParser (g : Grammar) (o : Options) (s : Symbol) : Parser σ ParseTree where
  run budget x := (g.symbolWithin o budget s).run budget x
  starts budget x := (g.symbolWithin o budget s).starts budget x
  cut_of_not_starts budget := (g.symbolWithin o budget s).cut_of_not_starts budget

/-- The parser of one alternative. -/
def alternativeParser (g : Grammar) (o : Options) (symbols : Alternative) :
    Parser σ (List ParseTree) :=
  sequenceOf (g.symbolParser o) symbols

/-- The parser of the right-hand side of a rule. -/
def alternativesParser (g : Grammar) (o : Options) (alternatives : List Alternative) :
    Parser σ (List ParseTree) :=
  choiceOf (g.symbolParser o) alternatives

/-- The parser of a start symbol.  Only here is the number of results bounded, not in the
expansions of the start symbol within a parse. -/
def startParser (g : Grammar) (o : Options) (s : Symbol) : Parser σ ParseTree :=
  match o.maxResults with
  | some n => (g.symbolParser o s).limit n
  | none => g.symbolParser o s

theorem startParser_of_unbounded (g : Grammar) {o : Options} (s : Symbol)
    (unbounded : o.maxResults = none) :
    (g.startParser o s : Parser σ ParseTree) = g.symbolParser o s := by
  rw [startParser, unbounded]

/-- A terminal does not use up any depth. -/
@[simp] theorem symbolWithin_terminal (g : Grammar) (o : Options) (depth : Nat) (name : String) :
    (g.symbolWithin o depth (.terminal name) : Parser σ ParseTree) = terminalParser o name := by
  cases depth <;> rfl

/-- One expansion of a nonterminal. -/
theorem symbolWithin_succ (g : Grammar) (o : Options) (depth : Nat) (name : String) :
    (g.symbolWithin o (depth + 1) (.nonterminal name) : Parser σ ParseTree) =
      match g.alternatives? name with
      | none => .fail
      | some alternatives =>
        (choiceOf (g.symbolWithin o depth) alternatives).map (.nonterminal name) := rfl

end AllParses.Grammar
