import AllParses.Proofs.Notation.Unambiguous
import AllParses.Proofs.Parser.FirstRun
import AllParses.Proofs.Recognizer
import AllParses.Proofs.Remainders

/-!
# Repetition terminates

All repetitions of the library come to an end on parsers that leave suffixes and have finitely many
results (`repetition_terminates`), and so does the reader of grammar texts, in which repetitions of
names, of alternatives and of rules are nested. The names may be empty.

The input must equal itself, as texts and sequences of names do. Otherwise a step that consumes nothing
is taken for one that does (`not_a_number_never_terminates`).
-/
namespace AllParses

namespace Recognizer

theorem run_finitary (c : Char → Bool) : (run c).Finitary := by
  apply Parser.Finitary.map
  intro x
  obtain ⟨vs, rest, -, settles⟩ := (Parser.Finitary.satisfy c).firstRun_settles (.satisfy c) BEq.rfl
  exact ⟨_, settles⟩

end Recognizer

namespace Lexicon

/-- Both recognizers have finitely many results on every input. -/
structure Finitary (l : Lexicon) : Prop where
  nonterminal : l.nonterminal.Finitary
  terminal : l.terminal.Finitary

namespace Finitary

variable {l : Lexicon}

theorem symbolReader (finite : l.Finitary) : l.symbolReader.Finitary :=
  (finite.terminal.afterLayout.map _).either (finite.nonterminal.afterLayout.map _)

theorem alternativesReader (safe : l.SuffixSafe) (finite : l.Finitary) :
    l.alternativesReader.Finitary := by
  have alternative : l.alternativeReader.Finitary := .many safe.symbolReader finite.symbolReader
  apply Parser.Finitary.sepBy safe.symbolReader.many (Parser.SuffixSafe.symbol '|').afterLayout
  · exact alternative
  · exact (Parser.Finitary.symbol '|').afterLayout

theorem ruleReader (safe : l.SuffixSafe) (finite : l.Finitary) : l.ruleReader.Finitary :=
  finite.nonterminal.afterLayout.andThen ((Parser.Finitary.token _).afterLayout.skipThen
    ((finite.alternativesReader safe).thenSkip (Parser.Finitary.symbol '.').afterLayout))

theorem reader (safe : l.SuffixSafe) (finite : l.Finitary) : l.reader.Finitary := by
  have rules : l.ruleReader.many.Finitary := .many safe.ruleReader (finite.ruleReader safe)
  exact (rules.thenSkip Parser.Finitary.epsilon.afterLayout).map _

/-- A text is judged as soon as all its readings are known. -/
theorem readGrammar (safe : l.SuffixSafe) (finite : l.Finitary) (text : String) :
    ∃ answer, ∀ᶠ budget in Filter.atTop, l.readGrammar budget text = some answer := by
  obtain ⟨readings, settles⟩ := finite.reader safe (Input.ofString text)
  exact ⟨verdict text readings, settles.mono fun _ => readGrammar_eq_verdict⟩

end Finitary

end Lexicon

open AllParses.Parser

/-- Repetition comes to an end, whatever is repeated: on an input that equals itself, repetitions, lists
and chains of parsers that leave suffixes and have finitely many results have finitely many results, and
the loop that follows the first results stops. With such recognizers the reader of grammar texts has
finitely many readings of every text, and every text is judged. -/
theorem repetition_terminates {σ α β : Type} [BEq σ] :
    (∀ (p : Parser σ α) (separator : Parser σ β) (operator : Parser σ (α → α → α)),
      p.SuffixSafe → p.Finitary → ∀ x : Input σ, (x == x) = true →
      (∃ rs, p.many.Settles x rs) ∧ (∃ rs, p.many1.Settles x rs) ∧
      (separator.SuffixSafe → separator.Finitary → ∃ rs, (p.sepBy separator).Settles x rs) ∧
      (operator.SuffixSafe → operator.Finitary →
        (∃ rs, (leftAssociative p operator).Settles x rs) ∧
        ∃ rs, (rightAssociative p operator).Settles x rs) ∧
      ∃ vs rest, p.firstRun.Settles x [(vs, rest)] ∧
        p.firstRun1.Settles x (if vs = [] then [] else [(vs, rest)])) ∧
    ∀ l : Lexicon, l.SuffixSafe → l.Finitary → l.reader.Finitary ∧
      ∀ text, ∃ answer, ∀ᶠ budget in Filter.atTop, l.readGrammar budget text = some answer := by
  constructor
  · intro p separator operator safe finite x self
    refine ⟨finite.settles_many safe self, finite.settles_many1 safe self, ?list, ?chains,
      finite.firstRun_settles safe self⟩
    case list =>
      exact fun separator_safe separators =>
        finite.settles_sepBy safe separator_safe separators self
    case chains =>
      intro operator_safe operators
      obtain ⟨scans, scanned⟩ := finite.settles_chain safe operator_safe operators self
      exact ⟨⟨_, scanned.map _⟩, ⟨_, scanned.map _⟩⟩
  · intro l safe finite
    exact ⟨finite.reader safe, finite.readGrammar safe⟩

/-- A lexicon with names that may be left out: a nonterminal is `S` or nothing, a terminal is
nothing. -/
def Lexicon.absent : Lexicon where
  nonterminal := (Recognizer.run fun c => c = 'S').either (succeed "")
  terminal := succeed ""

theorem Lexicon.absent_suffixSafe : absent.SuffixSafe :=
  ⟨(Recognizer.run_suffixSafe _).either (.succeed ""), .succeed ""⟩

theorem Lexicon.absent_finitary : absent.Finitary :=
  ⟨(Recognizer.run_finitary _).either (.succeed ""), .succeed ""⟩

theorem Lexicon.absent_steady : absent.Steady :=
  ⟨(Recognizer.run_steady _).either (.succeed ""), .succeed ""⟩

/-- What is repeated here may consume nothing at every place, as one of several results. The grammar
text is judged all the same; it has more than one reading, since names may be read from nothing. -/
theorem absent_names_terminate :
    (∃ rs, (symbol 'a').optional.many.Settles (.ofString "aab") rs) ∧
    (∃ rs, ((symbol 'a').optional.sepBy (epsilon : Parser Char Unit)).Settles (.ofString "aab") rs) ∧
    (∃ rs, (leftAssociative (symbol 'a').optional (succeed fun c _ => c)).Settles
      (.ofString "aab") rs) ∧
    (∃ vs rest, (symbol 'a').optional.firstRun.Settles (.ofString "aab") [(vs, rest)]) ∧
    ∀ᶠ budget in Filter.atTop, Lexicon.absent.readGrammar budget "S::=." =
      some (.error (.malformedGrammar .ambiguous "S::=." 0)) := by
  obtain ⟨repetitions, readers⟩ := @repetition_terminates Char (Option Char) Unit _
  have safe : (symbol 'a').optional.SuffixSafe := (SuffixSafe.symbol 'a').optional
  have finite : (symbol 'a').optional.Finitary :=
    ((Finitary.symbol 'a').map some).either (.succeed none)
  obtain ⟨runs, -, lists, chains, vs, rest, stops, -⟩ :=
    repetitions _ epsilon (succeed fun c _ => c) safe finite (.ofString "aab") BEq.rfl
  obtain ⟨-, judged⟩ := readers Lexicon.absent Lexicon.absent_suffixSafe Lexicon.absent_finitary
  obtain ⟨answer, eventually⟩ := judged "S::=."
  have known : Lexicon.absent.readGrammar 9 "S::=." =
      some (.error (.malformedGrammar .ambiguous "S::=." 0)) := by decide +kernel
  have same := (Answers.of_eventually (fun _ _ _ => Lexicon.absent_steady.readGrammar_kept)
    eventually).only 9 _ known
  exact ⟨runs, lists .epsilon .epsilon, (chains (.succeed _) (.succeed _)).1, ⟨vs, rest, stops⟩,
    same ▸ eventually⟩

/-- In front of a number that is not one, which differs from itself, the repetition of what consumes
nothing has no answer, and the loop does not stop. -/
theorem not_a_number_never_terminates :
    (epsilon : Parser Float Unit).SuffixSafe ∧ (epsilon : Parser Float Unit).Finitary ∧
    (∀ rs, ¬ (epsilon : Parser Float Unit).many.Settles .notANumber rs) ∧
    (∀ rs, ¬ (epsilon : Parser Float Unit).many1.Settles .notANumber rs) ∧
    ∀ budget steps seen,
      (epsilon : Parser Float Unit).followFirst budget steps seen .notANumber = none := by
  have stuck : ∀ budget steps,
      (epsilon : Parser Float Unit).runsFrom budget steps .notANumber = .cut :=
    fun _ => runsFrom_eq_cut rfl Input.notANumber_differs
  refine ⟨.epsilon, .epsilon, not_settles_of_cut fun budget => ?_,
    not_settles_of_cut fun budget => stuck budget budget, fun budget steps => ?_⟩
  · rw [run_many, stuck]
    rfl
  · induction steps with
    | zero => exact fun _ => rfl
    | succ steps ih =>
      intro seen
      rw [followFirst_of_some rfl, if_neg Input.notANumber_differs, ih]

end AllParses
