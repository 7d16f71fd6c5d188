import AllParses.Grammar.Notation
import AllParses.Proofs.Grammar.Tracing
import AllParses.Proofs.Parser.Suffix
import AllParses.Recognizer

/-!
# Remainders are suffixes

Recognizers, the parsers of a grammar and the reader of grammar texts are suffix-safe, as all
parsers of the library are that have suffix-safe parts (`remainders_are_suffixes`).

For the parsers of a grammar the induction is on the depth of expansions, so nothing is asked of the
rules: the results may go on without end, and then each of them leaves a suffix.
-/
namespace AllParses

open Grammar (Symbol Alternative Options)

namespace Recognizer

theorem run_suffixSafe (p : Char → Bool) : (run p).SuffixSafe :=
  (Parser.SuffixSafe.satisfy p).firstRun1.map _

/-- What follows a match is a suffix, whatever it is that an engine finds. -/
theorem matching_suffixSafe (engine : Pattern.Engine) (regex : engine.Regex) :
    (matching engine regex).SuffixSafe := by
  intro budget x lexeme rest member
  unfold matching at member
  dsimp only at member
  split at member
  case h_1 => simp at member
  case h_2 found _ =>
    split at member
    · simp at member
    · obtain ⟨-, rfl⟩ := Prod.mk.inj (List.mem_singleton.mp member)
      exact List.drop_suffix _ _

theorem pattern_suffixSafe {engine : Pattern.Engine} {text : String} {parser : Parser Char String}
    (compiled : pattern engine text = .ok parser) : parser.SuffixSafe := by
  unfold pattern at compiled
  split at compiled
  · obtain rfl := Except.ok.inj compiled
    exact matching_suffixSafe _ _
  · cases compiled

end Recognizer

namespace Grammar

section

variable {σ α : Type} {parserOf : Symbol → Parser σ α}

theorem sequenceOf_suffixSafe (each : ∀ s, (parserOf s).SuffixSafe) (symbols : Alternative) :
    (sequenceOf parserOf symbols).SuffixSafe := by
  induction symbols using List.reverseRecOn with
  | nil => exact .succeed []
  | append_singleton symbols s ih =>
    rw [sequenceOf_concat]
    exact (ih.andThen (each s)).map _

theorem choiceOf_suffixSafe (each : ∀ s, (parserOf s).SuffixSafe)
    (alternatives : List Alternative) : (choiceOf parserOf alternatives).SuffixSafe := by
  refine .anyOf fun p among => ?_
  obtain ⟨symbols, -, rfl⟩ := List.mem_map.mp among
  exact sequenceOf_suffixSafe each symbols

end

variable {σ : Type} [Alphabet σ] [BEq σ]

theorem terminalParser_suffixSafe (o : Options) (name : String) :
    (terminalParser o name : Parser σ ParseTree).SuffixSafe := by
  have lexeme : (Parser.literal name : Parser σ Unit).SuffixSafe := .literal name
  unfold terminalParser
  split
  · exact lexeme.afterLayout.map _
  · exact lexeme.map _

theorem symbolWithin_suffixSafe (g : Grammar) (o : Options) (depth : Nat) (s : Symbol) :
    (g.symbolWithin o depth s : Parser σ ParseTree).SuffixSafe := by
  induction depth, s using depth_induction with
  | terminal depth name =>
    rw [symbolWithin_terminal]
    exact terminalParser_suffixSafe o name
  | cut name => exact .exhausted
  | expand depth name ih =>
    rw [symbolWithin_succ]
    cases g.alternatives? name with
    | none => exact .fail
    | some alternatives => exact (choiceOf_suffixSafe ih alternatives).map _

theorem symbolParser_suffixSafe (g : Grammar) (o : Options) (s : Symbol) :
    (g.symbolParser o s : Parser σ ParseTree).SuffixSafe := by
  intro budget
  exact symbolWithin_suffixSafe g o budget s budget

theorem startParser_suffixSafe (g : Grammar) (o : Options) (s : Symbol) :
    (g.startParser o s : Parser σ ParseTree).SuffixSafe := by
  unfold startParser
  split
  · exact (symbolParser_suffixSafe g o s).limit _
  · exact symbolParser_suffixSafe g o s

end Grammar

namespace Lexicon

/-- Both recognizers leave suffixes. -/
structure SuffixSafe (l : Lexicon) : Prop where
  nonterminal : l.nonterminal.SuffixSafe
  terminal : l.terminal.SuffixSafe

namespace SuffixSafe

variable {l : Lexicon}

theorem symbolReader (safe : l.SuffixSafe) : l.symbolReader.SuffixSafe :=
  (safe.terminal.afterLayout.map _).either (safe.nonterminal.afterLayout.map _)

theorem alternativesReader (safe : l.SuffixSafe) : l.alternativesReader.SuffixSafe :=
  safe.symbolReader.many.sepBy (Parser.SuffixSafe.symbol _).afterLayout

theorem ruleReader (safe : l.SuffixSafe) : l.ruleReader.SuffixSafe :=
  safe.nonterminal.afterLayout.andThen ((Parser.SuffixSafe.token _).afterLayout.skipThen
    (safe.alternativesReader.thenSkip (Parser.SuffixSafe.symbol _).afterLayout))

theorem reader (safe : l.SuffixSafe) : l.reader.SuffixSafe :=
  (safe.ruleReader.many.thenSkip Parser.SuffixSafe.epsilon.afterLayout).map _

end SuffixSafe

end Lexicon

open AllParses.Parser

/-- On text and on tokens alike, however these are compared, every result that is ever held leaves a
suffix of the input. This holds of the parsers for single matches and of recognizers, those of patterns
with any engine included, of whatever is composed of parsers that have this property, and of all parsers
of any grammar. -/
theorem remainders_are_suffixes {σ α β γ : Type} [Alphabet σ] [BEq σ] :
    ((∀ c : σ, (symbol c).SuffixSafe) ∧ (∀ cs : List σ, (token cs).SuffixSafe) ∧
      (∀ c : σ → Bool, (satisfy c).SuffixSafe) ∧ (∀ v : α, (succeed v : Parser σ α).SuffixSafe) ∧
      (epsilon : Parser σ Unit).SuffixSafe ∧ (fail : Parser σ α).SuffixSafe ∧
      (∀ name, (literal name : Parser σ Unit).SuffixSafe) ∧
      (∀ c, (Recognizer.run c).SuffixSafe) ∧
      ∀ engine text recognizer, Recognizer.pattern engine text = .ok recognizer →
        recognizer.SuffixSafe) ∧
    (∀ (p p' : Parser σ α) (q : Parser σ β) (r : Parser σ γ) (operator : Parser σ (α → α → α)),
      p.SuffixSafe → p'.SuffixSafe → q.SuffixSafe → r.SuffixSafe → operator.SuffixSafe →
      (p.andThen q).SuffixSafe ∧ (p.either p').SuffixSafe ∧ (p.orElse p').SuffixSafe ∧
      (p.thenSkip q).SuffixSafe ∧ (p.skipThen q).SuffixSafe ∧ p.optional.SuffixSafe ∧
      p.many.SuffixSafe ∧ p.many1.SuffixSafe ∧ p.firstRun.SuffixSafe ∧ p.firstRun1.SuffixSafe ∧
      (∀ v, (p.withDefault v).SuffixSafe) ∧ (p.sepBy q).SuffixSafe ∧ (between q p r).SuffixSafe ∧
      (leftAssociative p operator).SuffixSafe ∧ (rightAssociative p operator).SuffixSafe ∧
      (∀ f : α → β, (p.map f).SuffixSafe) ∧ p.afterLayout.SuffixSafe ∧ p.full.SuffixSafe ∧
      p.firstOnly.SuffixSafe ∧ ∀ n, (p.limit n).SuffixSafe) ∧
    (∀ ps : List (Parser σ α), (∀ p ∈ ps, p.SuffixSafe) → (anyOf ps).SuffixSafe) ∧
    (∀ l : Lexicon, l.nonterminal.SuffixSafe → l.terminal.SuffixSafe → l.reader.SuffixSafe) ∧
    ∀ (g : Grammar) (o : Options), (∀ s, (g.symbolParser o s : Parser σ ParseTree).SuffixSafe) ∧
      (∀ s, (g.startParser o s : Parser σ ParseTree).SuffixSafe) ∧
      (∀ symbols, (g.alternativeParser o symbols : Parser σ (List ParseTree)).SuffixSafe) ∧
      ∀ alternatives,
        (g.alternativesParser o alternatives : Parser σ (List ParseTree)).SuffixSafe := by
  refine ⟨?single, ?composed, fun ps each => .anyOf each, ?reader, ?grammar⟩
  case single =>
    exact ⟨.symbol, .token, .satisfy, .succeed, .epsilon, .fail, .literal,
      Recognizer.run_suffixSafe, fun engine text recognizer => Recognizer.pattern_suffixSafe⟩
  case composed =>
    intro p p' q r operator safe safe' second closing operator_safe
    exact ⟨safe.andThen second, safe.either safe', safe.orElse safe', safe.thenSkip second,
      safe.skipThen second, safe.optional, safe.many, safe.many1, safe.firstRun, safe.firstRun1,
      safe.withDefault, safe.sepBy second, second.between safe closing,
      safe.leftAssociative operator_safe, safe.rightAssociative operator_safe, safe.map,
      safe.afterLayout, safe.full, safe.firstOnly, safe.limit⟩
  case reader =>
    intro l nonterminal terminal
    exact Lexicon.SuffixSafe.reader ⟨nonterminal, terminal⟩
  case grammar =>
    intro g o
    have symbols := Grammar.symbolParser_suffixSafe (σ := σ) g o
    exact ⟨symbols, Grammar.startParser_suffixSafe g o, Grammar.sequenceOf_suffixSafe symbols,
      Grammar.choiceOf_suffixSafe symbols⟩

/-- The grammar of `S ::= | S .`, which derives nothing in endlessly many ways. -/
def Grammar.endless : Grammar :=
  .ofRules [("S", [[], [.nonterminal "S"]])]

/-- Every unit of the budget is good for one more result. -/
theorem Grammar.length_items_endless (depth budget : Nat) (x : Input Char) :
    ((endless.symbolWithin {} depth (.nonterminal "S")).run budget x).items.length = depth := by
  have rule : endless.alternatives? "S" = some [[], [.nonterminal "S"]] := by decide +kernel
  induction depth with
  | zero => rfl
  | succ depth ih =>
    have expanded :
        (choiceOf (endless.symbolWithin {} depth) [[], [.nonterminal "S"]]).run budget x =
          .item ([], x) fun _ =>
            ((endless.symbolWithin {} depth (.nonterminal "S")).run budget x).map
              fun r => ([r.1], r.2) := by
      simp [choiceOf, anyOf, sequenceOf, Results.single, Results.append,
        Results.flatMap, Results.map_map]
    rw [symbolWithin_succ, rule]
    simp [expanded, ih]

/-- The results for `S` have no end, since a larger budget always gives more. What repeats `S`
leaves suffixes all the same. -/
theorem endless_remainders :
    (∀ budget, ((Grammar.endless.symbolParser {} (.nonterminal "S")).run budget
      (Input.ofString "x")).items.length = budget) ∧
    ∀ budget trees rest, (trees, rest) ∈ ((Grammar.endless.symbolParser {}
      (.nonterminal "S")).many1.run budget (Input.ofString "x")).items →
        rest.symbols <:+ ['x'] := by
  obtain ⟨-, composed, -, -, grammars⟩ := @remainders_are_suffixes Char ParseTree Unit Unit _ _
  have expansion := (grammars Grammar.endless {}).1 (.nonterminal "S")
  obtain ⟨-, -, -, -, -, -, -, runs, -⟩ :=
    composed _ _ _ _ _ expansion expansion SuffixSafe.epsilon SuffixSafe.epsilon
      (SuffixSafe.fail : (fail : Parser Char (ParseTree → ParseTree → ParseTree)).SuffixSafe)
  refine ⟨fun budget => Grammar.length_items_endless budget budget _, ?_⟩
  intro budget trees rest
  exact runs budget (Input.ofString "x") trees rest

end AllParses
