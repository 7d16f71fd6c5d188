import AllParses.Grammar.Reading
import AllParses.Proofs.Parser.Steady

/-!
# Reading a text under a larger budget

With steady recognizers the reader of grammars is steady, so a text is never judged differently under
a larger budget (`readGrammar_kept`).
-/
namespace AllParses.Lexicon

variable {l : Lexicon}

/-- Both recognizers carry their results on when the budget grows. -/
structure Steady (l : Lexicon) : Prop where
  nonterminal : l.nonterminal.Steady
  terminal : l.terminal.Steady

namespace Steady

theorem symbolReader (steady : l.Steady) : l.symbolReader.Steady :=
  (steady.terminal.afterLayout.map _).either (steady.nonterminal.afterLayout.map _)

theorem alternativesReader (steady : l.Steady) : l.alternativesReader.Steady :=
  steady.symbolReader.many.sepBy (Parser.Steady.symbol _).afterLayout

theorem ruleReader (steady : l.Steady) : l.ruleReader.Steady :=
  steady.nonterminal.afterLayout.andThen ((Parser.Steady.token _).afterLayout.skipThen
    (steady.alternativesReader.thenSkip (Parser.Steady.symbol _).afterLayout))

theorem reader (steady : l.Steady) : l.reader.Steady :=
  (steady.ruleReader.many.thenSkip (Parser.Steady.succeed ()).afterLayout).map _

/-- The answer for a text is kept under larger budgets. -/
theorem readGrammar_kept (steady : l.Steady) {small large : Nat} {text : String}
    {answer : Except ParseError Grammar} (more : small ≤ large)
    (known : l.readGrammar small text = some answer) : l.readGrammar large text = some answer := by
  have below := steady.reader.full small large (Input.ofString text) more
  unfold readGrammar at known ⊢
  dsimp only at known ⊢
  generalize l.reader.full.run small (Input.ofString text) = r at below known
  generalize l.reader.full.run large (Input.ofString text) = s at below
  cases below with
  | cut => cases known
  | done =>
    obtain ⟨readings, all, rfl⟩ := Option.map_eq_some_iff.mp known
    exact Option.map_eq_some_iff.mpr ⟨readings, steady.reader.all more all, rfl⟩
  | item first rest =>
    obtain ⟨differs, any, rfl⟩ := Option.map_eq_some_iff.mp known
    exact Option.map_eq_some_iff.mpr ⟨differs, rest.any? any, rfl⟩

end Steady

end AllParses.Lexicon
