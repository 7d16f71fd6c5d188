import AllParses.Grammar.Basic
import AllParses.Parser.Repeat

/-!
# The notation of grammars

A grammar is written as its rules, one after the other: a name, `::=`, the alternatives with `|`
between them, and `.` at the end.  An alternative is a run of names, and it may be empty.

`display` writes the notation.  `Lexicon.reader` reads it: what the names look like is left to a
`Lexicon`, and layout may stand in front of every part and at the end.
-/

namespace AllParses

namespace Grammar

/-- An alternative as it is written: every name with a space in front. -/
def displayAlternative (symbols : Alternative) : List Char :=
  symbols.flatMap fun s => ' ' :: s.name.toList

/-- A rule as it is written, with the end of its line. -/
def displayRule (rule : Rule) : List Char :=
  rule.1.toList ++ " ::=".toList ++
    " |".toList.intercalate (rule.2.map displayAlternative) ++ " .\n".toList

/-- The rules as they are written, one on each line. -/
def display (g : Grammar) : List Char :=
  g.rules.flatMap displayRule

instance : ToString Grammar := ⟨fun g => String.ofList g.display⟩

end Grammar

/-- What the names in a grammar text look like.  The reader is ambiguous when a recognizer has
more than one result or both succeed at one place. -/
structure Lexicon where
  /-- Recognizes the name of a nonterminal. -/
  nonterminal : Parser Char String
  /-- Recognizes the name of a terminal. -/
  terminal : Parser Char String

namespace Lexicon

open Grammar (Symbol Alternative Rule)

/-- One name in an alternative. -/
def symbolReader (l : Lexicon) : Parser Char Symbol :=
  (l.terminal.afterLayout.map .terminal).either (l.nonterminal.afterLayout.map .nonterminal)

/-- A run of names. -/
def alternativeReader (l : Lexicon) : Parser Char Alternative :=
  l.symbolReader.many

/-- Alternatives with `|` between them. -/
def alternativesReader (l : Lexicon) : Parser Char (List Alternative) :=
  l.alternativeReader.sepBy (Parser.symbol '|').afterLayout

/-- One rule. -/
def ruleReader (l : Lexicon) : Parser Char Rule :=
  l.nonterminal.afterLayout.andThen
    ((Parser.token "::=".toList).afterLayout.skipThen
      (l.alternativesReader.thenSkip (Parser.symbol '.').afterLayout))

/-- Rules, and layout at the end. -/
def rulesReader (l : Lexicon) : Parser Char (List Rule) :=
  l.ruleReader.many.thenSkip Parser.epsilon.afterLayout

/-- A grammar.  Every prefix of its rules is a result too, the whole of them first. -/
def reader (l : Lexicon) : Parser Char Grammar :=
  l.rulesReader.map Grammar.ofRules

end Lexicon

end AllParses
