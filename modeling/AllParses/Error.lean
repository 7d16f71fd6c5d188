/-!
# Errors

What can go wrong when a definite answer is asked for, and how each cause is reported: a message,
a stable code, an optional hint, and for grammar texts the place that the report points at.
-/

namespace AllParses

/-- Why a grammar text is rejected. -/
inductive GrammarFault where
  /-- No reading consumes the whole text. -/
  | incomplete
  /-- Two readings consume the whole text and give different grammars. -/
  | ambiguous
  deriving DecidableEq, Repr

namespace GrammarFault

/-- The fault in words. -/
def reason : GrammarFault → String
  | incomplete => "the text does not parse to completion"
  | ambiguous => "the text has more than one reading"

end GrammarFault

/-- The causes of failure. -/
inductive ParseError where
  /-- No parse consumes the whole input. -/
  | noFullParse
  /-- The grammar text cannot be read as exactly one grammar; `offset` counts bytes of `text`. -/
  | malformedGrammar (fault : GrammarFault) (text : String) (offset : Nat)
  /-- A nonterminal has no rule; `referencedBy` is the rule that mentions it, and `none` when it
  is the start symbol. -/
  | undefinedNonterminal (name : String) (referencedBy : Option String)
  /-- The pattern is not a regular expression. -/
  | invalidPattern (pattern : String)
  deriving DecidableEq, Repr

/-- A stretch of a text, in bytes. -/
structure Span where
  offset : Nat
  length : Nat
  deriving DecidableEq, Repr

namespace ParseError

/-- The name of the cause. -/
def kind : ParseError → String
  | noFullParse => "NoFullParse"
  | malformedGrammar .. => "MalformedGrammar"
  | undefinedNonterminal .. => "UndefinedNonterminal"
  | invalidPattern _ => "InvalidPattern"

/-- The report in one line. -/
def message : ParseError → String
  | noFullParse => "no parse consumed the entire input"
  | malformedGrammar fault _ _ => "malformed grammar: " ++ fault.reason
  | undefinedNonterminal name _ => "nonterminal `" ++ name ++ "` is used but never defined"
  | invalidPattern pattern => "invalid lexeme pattern `" ++ pattern ++ "`"

/-- The stable identifier of the cause. -/
def code : ParseError → String
  | noFullParse => "parsgen::no_full_parse"
  | malformedGrammar .. => "parsgen::malformed_grammar"
  | undefinedNonterminal .. => "parsgen::undefined_nonterminal"
  | invalidPattern _ => "parsgen::invalid_pattern"

/-- What to do about it, where there is advice to give. -/
def help? : ParseError → Option String
  | noFullParse =>
    some "every candidate parse left unconsumed input; check the input or the grammar's coverage"
  | malformedGrammar .. =>
    some "rules have the form `NAME ::= alt | alt .` with lexemes accepted by the recognizers"
  | undefinedNonterminal name _ =>
    some ("add a rule `" ++ name ++ " ::= ... .` or correct the reference")
  | invalidPattern _ => none

/-- The place in the grammar text that the report points at: one byte wide, and empty at the end
of the text. -/
def span? : ParseError → Option Span
  | malformedGrammar _ text offset => some ⟨offset, if offset < text.utf8ByteSize then 1 else 0⟩
  | _ => none

/-- The note that stands at the place pointed at. -/
def label : String := "grammar reading stops here"

/-- The name under which a rejected grammar text is shown. -/
def sourceName : String := "grammar"

end ParseError

end AllParses
