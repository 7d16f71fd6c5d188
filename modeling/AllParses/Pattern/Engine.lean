/-!
# Engines for patterns

What a pattern text means is left to an engine: it compiles texts and searches for what they match.
Recognizers are made with any engine.

`Documented` says what is relied on. It is about the matches of a compiled pattern; which of them a
search finds, the leftmost and then the preferred one, makes no difference here.
-/

namespace AllParses.Pattern

/-- A match, as two places in the text. Places are counted in characters. -/
structure Match where
  first : Nat
  last : Nat
  deriving DecidableEq

/-- An engine for regular expressions. -/
structure Engine where
  /-- What a pattern text is compiled to. -/
  Regex : Type
  /-- Compiles a text, if it is a pattern. -/
  compile : List Char → Option Regex
  /-- Searches a text for a match. -/
  find : Regex → List Char → Option Match

/-- The engine finds matches, and these are what its documentation says of `\A`, of groups that are
not numbered and of patterns one behind the other. -/
structure Engine.Documented (engine : Engine)
    (Matches : engine.Regex → List Char → Match → Prop) : Prop where
  /-- What is found is a match. -/
  found {r : engine.Regex} {text : List Char} {m : Match} :
    engine.find r text = some m → Matches r text m
  /-- A match is a part of the text. -/
  inside {r : engine.Regex} {text : List Char} {m : Match} :
    Matches r text m → m.first ≤ m.last ∧ m.last ≤ text.length
  /-- The pattern `\A` is there. -/
  hasTextStart : (engine.compile "\\A".toList).isSome
  /-- It matches nothing but the empty text, at the start of the text only. -/
  textStart {r : engine.Regex} {text : List Char} {m : Match} :
    engine.compile "\\A".toList = some r → Matches r text m → m = ⟨0, 0⟩
  /-- Behind `\A` a group of its own is put around a pattern. What matches this is what `\A` matches,
  and then what the pattern matches. -/
  textStart_group {pattern : List Char} {start alone whole : engine.Regex} {text : List Char}
    {m : Match} : engine.compile "\\A".toList = some start → engine.compile pattern = some alone →
      engine.compile ("\\A(?:".toList ++ pattern ++ ")".toList) = some whole → Matches whole text m →
        ∃ mid, Matches start text ⟨m.first, mid⟩ ∧ Matches alone text ⟨mid, m.last⟩

end AllParses.Pattern
