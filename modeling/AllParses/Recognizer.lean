import AllParses.Error
import AllParses.Parser.Repeat
import AllParses.Pattern.Engine

/-!
# Recognizers

Parsers for the lexemes of a text: the longest run of characters of one class, or what a pattern
matches.
-/

namespace AllParses.Recognizer

/-- The longest run of characters that satisfy `p`; it is never empty. -/
def run (p : Char → Bool) : Parser Char String :=
  (Parser.satisfy p).firstRun1.map String.ofList

/-- A run of the letters `A` to `Z`. -/
def upper : Parser Char String :=
  run fun c => 'A' ≤ c && c ≤ 'Z'

/-- A run of the letters `a` to `z`. -/
def lower : Parser Char String :=
  run fun c => 'a' ≤ c && c ≤ 'z'

/-- The text of a pattern that matches at the start only.  The pattern is put into a group as it
stands, so one that closes the group itself gets out of it. -/
def anchored (pattern : String) : List Char :=
  "\\A(?:".toList ++ pattern.toList ++ ")".toList

/-- What a compiled pattern finds, with what follows the match.  A match that ends at the very start
of the input does not count. -/
def matching (engine : Pattern.Engine) (regex : engine.Regex) : Parser Char String where
  run _ x :=
    match engine.find regex x.symbols with
    | none => .done
    | some found =>
      if found.last = 0 then .done
      else
        let lexeme := (x.drop found.first).take (found.last - found.first)
        .single (String.ofList lexeme.symbols, x.drop found.last)

/-- The recognizer of a pattern. -/
def pattern (engine : Pattern.Engine) (text : String) : Except ParseError (Parser Char String) :=
  match engine.compile (anchored text) with
  | some regex => .ok (matching engine regex)
  | none => .error (.invalidPattern text)

end AllParses.Recognizer
