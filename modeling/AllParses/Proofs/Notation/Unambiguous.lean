import AllParses.Grammar.Reading
import AllParses.Proofs.Notation.Rules
import AllParses.Proofs.Notation.Text

/-!
# One reading at most

For a sharp lexicon nothing of what the reader tries leads to a second reading of a text. Its
results are the beginnings of one sequence of rules (`reader_enumerates_prefixes`): the whole of them
first, then one rule less each time.
-/
namespace AllParses

namespace Lexicon

open Grammar (Symbol Alternative Rule)

variable {l : Lexicon}

/-- The readings of a text whose rules are known: the beginnings of the sequence of rules, each with
what is left behind the layout that follows it. -/
def readings (x : Input Char) (steps : List (Rule × Input Char)) : List (Grammar × Input Char) :=
  (Parser.beginnings x steps).map fun run => (Grammar.ofRules run.1, run.2.skipLayout)

/-- The readings are the grammars of the runs of rules. -/
theorem reader_settles_of_runs {x : Input Char} {runs : List (List Rule × Input Char)}
    (settles : l.ruleReader.many.Settles x runs) :
    l.reader.Settles x (runs.map fun run => (Grammar.ofRules run.1, run.2.skipLayout)) := by
  have behind : ∀ run : List Rule × Input Char,
      (Parser.epsilon.afterLayout : Parser Char Unit).Settles run.2 [((), run.2.skipLayout)] :=
    fun run => (Parser.Settles.succeed () run.2.skipLayout).afterLayout
  have whole := (settles.thenSkip (fun run => [((), run.2.skipLayout)]) fun run _ => behind run).map
    Grammar.ofRules
  simpa [reader, rulesReader, List.map_flatMap, Function.comp_def, ← List.map_eq_flatMap]
    using whole

theorem reader_settles {x rest : Input Char} {steps : List (Rule × Input Char)}
    (rules : l.ruleReader.Iterates x steps rest) : l.reader.Settles x (readings x steps) :=
  reader_settles_of_runs rules.settlesMany.settles

/-- What is answered for a text when all its readings are known. -/
def verdict (text : String) (readings : List (Grammar × Input Char)) :
    Except ParseError Grammar :=
  match readings.filter fun r => r.2.isEmpty with
  | [] => .error (incomplete text readings)
  | (g, _) :: others =>
    if others.any fun r => r.1 ≠ g then .error (.malformedGrammar .ambiguous text 0)
    else checkReferences g

theorem readGrammar_eq_verdict {budget : Nat} {text : String}
    {readings : List (Grammar × Input Char)}
    (all : l.reader.all budget (Input.ofString text) = some readings) :
    l.readGrammar budget text = some (verdict text readings) := by
  have full : ((l.reader.full).run budget (Input.ofString text)).toList? =
      some (readings.filter fun r => r.2.isEmpty) := Results.toList?_filter _ all
  unfold readGrammar verdict
  dsimp only
  generalize l.reader.full.run budget (Input.ofString text) = found at full
  cases found with
  | cut => cases full
  | done =>
    rw [← Option.some.inj full, all]
    rfl
  | item r others =>
    obtain ⟨as, rest, cons⟩ := Option.map_eq_some_iff.mp full
    rw [← cons]
    simp only [Results.any?_of_toList? _ rest, Option.map_some]
    cases as.any fun r' => decide (r'.1 ≠ r.1) <;> rfl

/-- What is left behind more rules is shorter than the text from the name of the next rule on. -/
theorem beginnings_pairwise (sharp : l.Sharp) {x rest : Input Char}
    {steps : List (Rule × Input Char)} (rules : l.ruleReader.Iterates x steps rest) :
    (Parser.beginnings x steps).Pairwise fun longer shorter =>
      longer.2.ProperSuffix shorter.2.skipLayout := by
  induction rules with
  | stop refused => exact List.pairwise_singleton _ _
  | @step x mid rest rule steps read proper later ih =>
    rw [Parser.beginnings, List.pairwise_append, List.pairwise_map]
    refine ⟨ih, List.pairwise_singleton _ _, ?_⟩
    intro longer member shorter last
    obtain ⟨run, among, rfl⟩ := List.mem_map.mp member
    rw [List.mem_singleton.mp last]
    have behind := ((ruleReader_settles_iff sharp).mp read).properSuffix sharp
    exact .of_suffix (later.suffix_of_mem run among) behind

theorem readings_pairwise (sharp : l.Sharp) {x rest : Input Char}
    {steps : List (Rule × Input Char)} (rules : l.ruleReader.Iterates x steps rest) :
    ((readings x steps).map Prod.snd).Pairwise Input.ProperSuffix := by
  rw [readings, List.map_map, List.pairwise_map]
  exact (beginnings_pairwise sharp rules).imp fun behind =>
    .of_suffix (Input.suffix_skipLayout _) behind

theorem readings_values (x : Input Char) (steps : List (Rule × Input Char)) :
    (readings x steps).map Prod.fst = (List.range (steps.length + 1)).map fun k =>
      Grammar.ofRules ((steps.map Prod.fst).take (steps.length - k)) := by
  have of_values := congrArg (List.map Grammar.ofRules) (Parser.beginnings_values x steps)
  simpa only [readings, List.map_map, Function.comp_def] using of_values

/-- Of readings that leave more and more only the first can be complete. -/
theorem filter_isEmpty_eq {r : Grammar × Input Char} {others : List (Grammar × Input Char)}
    (growing : ((r :: others).map Prod.snd).Pairwise Input.ProperSuffix) :
    (r :: others).filter (fun s => s.2.isEmpty) = if r.2.isEmpty then [r] else [] := by
  rw [List.map_cons, List.pairwise_cons] at growing
  have incomplete : others.filter (fun s => s.2.isEmpty) = [] := by
    rw [List.filter_eq_nil_iff]
    intro s member
    simp [(growing.1 s.2 (List.mem_map_of_mem member)).not_isEmpty]
  rw [List.filter_cons, incomplete]

theorem verdict_ne_ambiguous {text : String} {readings : List (Grammar × Input Char)}
    (growing : (readings.map Prod.snd).Pairwise Input.ProperSuffix) (text' : String)
    (offset : Nat) :
    verdict text readings ≠ .error (.malformedGrammar .ambiguous text' offset) := by
  unfold verdict
  cases readings with
  | nil => simp [incomplete]
  | cons r others =>
    rw [filter_isEmpty_eq growing]
    by_cases complete : r.2.isEmpty = true
    · rw [if_pos complete]
      change checkReferences r.1 ≠ _
      unfold checkReferences
      split <;> simp
    · rw [if_neg complete]
      simp [incomplete]

/-- There is one complete reading where nothing but layout follows the rules, and else none. -/
theorem reader_full_settles (sharp : l.Sharp) {x rest : Input Char}
    {steps : List (Rule × Input Char)} (rules : l.ruleReader.Iterates x steps rest) :
    l.reader.full.Settles x (if rest.skipLayout.isEmpty then
      [(Grammar.ofRules (steps.map Prod.fst), rest.skipLayout)] else []) := by
  obtain ⟨partials, whole, -⟩ := rules.beginnings_eq
  have growing := readings_pairwise sharp rules
  have settles := (reader_settles rules).full
  rw [readings, whole, List.map_cons] at growing settles
  rwa [filter_isEmpty_eq growing] at settles

/-- What is answered depends on the complete readings, since all readings are known. -/
theorem readGrammar_settles (sharp : l.Sharp) {text : String} {found : List (Grammar × Input Char)}
    (full : l.reader.full.Settles (Input.ofString text) found) :
    ∃ readings, readings.filter (fun r => r.2.isEmpty) = found ∧
      ∀ᶠ budget in Filter.atTop, l.readGrammar budget text = some (verdict text readings) := by
  obtain ⟨steps, rest, rules⟩ := Parser.exists_iterates sharp.ruleReader (Input.ofString text)
  have settles := reader_settles rules
  refine ⟨_, settles.full.unique full, ?_⟩
  filter_upwards [settles] with budget all
  exact readGrammar_eq_verdict all

theorem readGrammar_of_full (sharp : l.Sharp) {text : String} {g : Grammar} {rest : Input Char}
    (full : l.reader.full.Settles (Input.ofString text) [(g, rest)]) :
    ∀ᶠ budget in Filter.atTop, l.readGrammar budget text = some (checkReferences g) := by
  obtain ⟨readings, complete, answers⟩ := readGrammar_settles sharp full
  have checked : verdict text readings = checkReferences g := by
    rw [verdict, complete]
    rfl
  exact checked ▸ answers

theorem readGrammar_of_full_nil (sharp : l.Sharp) {text : String}
    (full : l.reader.full.Settles (Input.ofString text) []) :
    ∃ error, ∀ᶠ budget in Filter.atTop, l.readGrammar budget text = some (.error error) := by
  obtain ⟨readings, complete, answers⟩ := readGrammar_settles sharp full
  refine ⟨incomplete text readings, ?_⟩
  have rejected : verdict text readings = .error (incomplete text readings) := by
    rw [verdict, complete]
  exact rejected ▸ answers

/-- The readings are the grammars of the beginnings of one list of rules: all of them first, then one
rule less each time. Each leaves more than the one before, so only the first can be complete. -/
structure AreBeginnings (rules : List Rule) (readings : List (Grammar × Input Char)) : Prop where
  count : readings.length = rules.length + 1
  value : ∀ k, k ≤ rules.length → (readings[k]?).map Prod.fst =
    some (Grammar.ofRules (rules.take (rules.length - k)))
  growing : (readings.map Prod.snd).Pairwise Input.ProperSuffix
  complete : ∀ k r, readings[k]? = some r → r.2.isEmpty = true → k = 0

/-- The results of the reader of a sharp lexicon are the beginnings of one list of rules, and no text
is rejected for having two readings: not once it is judged under all large budgets, and with steady
recognizers not under any. -/
theorem reader_enumerates_prefixes (sharp : l.Sharp) (text : String) :
    ∃ (rules : List Rule) (readings : List (Grammar × Input Char)),
      l.reader.Settles (Input.ofString text) readings ∧ AreBeginnings rules readings ∧
      (∀ᶠ budget in Filter.atTop, ∃ answer, l.readGrammar budget text = some answer ∧
        ∀ text' offset, answer ≠ .error (.malformedGrammar .ambiguous text' offset)) ∧
      (l.Steady → ∀ budget text' offset,
        l.readGrammar budget text ≠ some (.error (.malformedGrammar .ambiguous text' offset))) := by
  obtain ⟨steps, rest, rules⟩ := Parser.exists_iterates sharp.ruleReader (Input.ofString text)
  have values := readings_values (Input.ofString text) steps
  have growing := readings_pairwise sharp rules
  have judged : ∀ᶠ budget in Filter.atTop, l.readGrammar budget text =
      some (verdict text (readings (Input.ofString text) steps)) :=
    (reader_settles rules).mono fun _ => readGrammar_eq_verdict
  refine ⟨steps.map Prod.fst, _, reader_settles rules, ⟨?_, ?_, growing, ?_⟩, ?_, ?_⟩
  · simpa using congrArg List.length values
  · intro k bound
    rw [List.length_map] at bound ⊢
    rw [← List.getElem?_map, values, List.getElem?_map, List.getElem?_range (by omega)]
    rfl
  · intro k r found empty
    by_contra later
    obtain ⟨bound, rfl⟩ := List.getElem?_eq_some_iff.mp found
    have behind := List.pairwise_iff_getElem.mp (List.pairwise_map.mp growing) 0 k (by omega) bound
      (Nat.pos_of_ne_zero later)
    rw [behind.not_isEmpty] at empty
    cases empty
  · exact judged.mono fun budget answer => ⟨_, answer, verdict_ne_ambiguous growing⟩
  · intro steady budget text' offset ambiguous
    have answers := Parser.Answers.of_eventually (fun _ _ _ => steady.readGrammar_kept) judged
    exact verdict_ne_ambiguous growing text' offset (answers.only budget _ ambiguous).symm

theorem letters_enumerates_prefixes :
    NameClasses.letters.lexicon.Sharp ∧ NameClasses.letters.lexicon.Steady ∧
    ∃ (rules : List Rule) (readings : List (Grammar × Input Char)),
      NameClasses.letters.lexicon.reader.Settles (Input.ofString "S ::= a S | . T ::= x") readings ∧
      AreBeginnings rules readings ∧ ∀ budget text' offset,
        NameClasses.letters.lexicon.readGrammar budget "S ::= a S | . T ::= x" ≠
          some (.error (.malformedGrammar .ambiguous text' offset)) := by
  have sharp := NameClasses.letters_separate.sharp
  have steady := NameClasses.letters.lexicon_steady
  obtain ⟨rules, readings, settles, beginnings, -, never⟩ :=
    reader_enumerates_prefixes sharp "S ::= a S | . T ::= x"
  exact ⟨sharp, steady, rules, readings, settles, beginnings, never steady⟩

end Lexicon

end AllParses
