import AllParses.Grammar.Notation
import AllParses.Grammar.Parsing
import AllParses.Parser.Query

/-!
# From a grammar text to a parser

`Lexicon.readGrammar` reads a text and demands that it is one complete and unambiguous grammar in
which every nonterminal has a rule.  `Lexicon.compile` goes on to the parser of a start symbol.
As for every question to a parser, `none` says that the step budget was spent first.
-/

namespace AllParses

namespace Lexicon

open Grammar (Symbol)

/-- The error for a text without a complete reading.  It points behind the longest part of the
text that can be read. -/
def incomplete (text : String) (readings : List (Grammar × Input Char)) : ParseError :=
  let total := (Input.ofString text).utf8Size
  let unread := (readings.map fun (_, rest) => rest.utf8Size).min?.getD total
  .malformedGrammar .incomplete text (total - unread)

/-- Reports the first nonterminal that is mentioned and has no rule. -/
def checkReferences (g : Grammar) : Except ParseError Grammar :=
  match g.danglingReferences with
  | [] => .ok g
  | (rule, name) :: _ => .error (.undefinedNonterminal name (some rule))

/-- Reads a text into a grammar.  Readings of the whole text that agree count as one. -/
def readGrammar (l : Lexicon) (budget : Nat) (text : String) :
    Option (Except ParseError Grammar) :=
  let x := Input.ofString text
  match l.reader.full.run budget x with
  | .cut => none
  | .done => (l.reader.all budget x).map fun readings => .error (incomplete text readings)
  | .item (g, _) others =>
    ((others ()).any? fun (other, _) => other ≠ g).map fun
      | true => .error (.malformedGrammar .ambiguous text 0)
      | false => checkReferences g

/-- Reports a start symbol that is a nonterminal without a rule. -/
def checkStart (g : Grammar) : Symbol → Except ParseError Unit
  | .terminal _ => .ok ()
  | .nonterminal name =>
    if g.contains name then .ok () else .error (.undefinedNonterminal name none)

variable {σ : Type} [Alphabet σ] [BEq σ]

/-- The parser of `start` in the grammar that `text` describes. -/
def compile (l : Lexicon) (options : Grammar.Options) (budget : Nat) (text : String)
    (start : Symbol) : Option (Except ParseError (Parser σ ParseTree)) :=
  (l.readGrammar budget text).map fun grammar => do
    let g ← grammar
    checkStart g start
    return g.startParser options start

end Lexicon

end AllParses
