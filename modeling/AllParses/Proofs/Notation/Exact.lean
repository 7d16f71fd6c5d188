import AllParses.Proofs.Notation.Text
import AllParses.Proofs.Notation.Unambiguous

/-!
# The reader accepts exactly the grammar texts

Both ways the parts are taken in order. A text of the notation is read part by part as it was put
together, because a name or a mark behind it ends each part. What is read, on the other hand, is put
together from the gaps that were skipped and the parts that were found.
-/
namespace AllParses

open Grammar (Symbol Alternative Rule)

namespace NameClasses

variable {k : NameClasses}

/-! ## Alternatives -/

/-- Layout and then one of the marks that end an alternative. -/
inductive EndsAlternative : List Char → Prop where
  | intro {gap text : List Char} {c : Char} (layout : IsGap gap) (mark : c ∈ ['|', '.']) :
    EndsAlternative (gap ++ c :: text)

theorem beginsOutside_mark {c : Char} (mark : c ∈ ['|', '.', ':']) (text : List Char) :
    BeginsOutside Unicode.isWhiteSpace (c :: text) := by
  rw [BeginsOutside.cons_iff]
  simp only [List.mem_cons, List.not_mem_nil, or_false] at mark
  rcases mark with rfl | rfl | rfl <;> decide

/-- Behind layout a mark is found. -/
theorem skipLayout_mark {gap : List Char} {c : Char} (layout : IsGap gap)
    (mark : c ∈ ['|', '.', ':']) (text : List Char) :
    (Input.ofList (gap ++ c :: text)).skipLayout = .ofList (c :: text) :=
  skipLayout_gap layout (beginsOutside_mark mark text)

namespace EndsAlternative

variable {text : List Char}

theorem beginsOutside (separate : k.Separate) (ends : EndsAlternative text) (s : Symbol) :
    BeginsOutside (k.of s) text := by
  cases ends with
  | intro layout mark =>
    have outside := separate.of_mark s (List.mem_append_left [':'] mark)
    exact separate.beginsOutside_gap layout (BeginsOutside.cons_iff.mpr outside)

theorem refuses (separate : k.Separate) (ends : EndsAlternative text) :
    k.lexicon.symbolReader.Settles (.ofList text) [] := by
  cases ends with
  | @intro gap text c layout mark =>
    have position := skipLayout_mark layout (List.mem_append_left [':'] mark) text
    refine separate.sharp.symbolReader_refuses ?_
    rw [position]
    simpa using mark

end EndsAlternative

/-- Where no name of the symbol's class follows without layout, the class ends. -/
theorem beginsOutside_of_apart (separate : k.Separate) {s : Symbol} {symbols : Alternative}
    {text rest : List Char} (later : k.AlternativeText symbols text)
    (apart : ∀ next ∈ symbols.head?, next.isTerminal = s.isTerminal →
      ∃ c ∈ text.head?, Unicode.isWhiteSpace c = true)
    (ends : EndsAlternative rest) : BeginsOutside (k.of s) (text ++ rest) := by
  cases later with
  | nil => exact ends.beginsOutside separate s
  | @cons next symbols gap text layout name later apart' =>
    -- A name of the same class has layout in front, and one of the other class ends the class itself.
    by_cases same : next.isTerminal = s.isTerminal
    · obtain ⟨d, first, blank⟩ := apart next rfl same
      intro e member
      have both : (gap ++ (next.name.toList ++ text) ++ rest).head? = some d := by
        rw [List.head?_append, Option.mem_def.mp first]
        rfl
      obtain rfl : d = e := Option.some.inj (both.symm.trans member)
      exact separate.of_layout s blank
    · obtain ⟨c, cs, spelt⟩ := List.exists_cons_of_ne_nil name.nonempty
      have inside : k.of next c = true := name.inside c (by simp [spelt])
      rw [List.append_assoc, spelt]
      exact separate.beginsOutside_gap layout
        (BeginsOutside.cons_iff.mpr (separate.of_other same inside))

/-- The symbols of an alternative are read from its text, one after the other. -/
theorem AlternativeText.iterates (separate : k.Separate) {symbols : Alternative}
    {text rest : List Char} (alternative : k.AlternativeText symbols text)
    (ends : EndsAlternative rest) :
    ∃ steps, steps.map Prod.fst = symbols ∧
      k.lexicon.symbolReader.Iterates (.ofList (text ++ rest)) steps (.ofList rest) := by
  induction alternative with
  | nil => exact ⟨[], rfl, .stop (ends.refuses separate)⟩
  | @cons s symbols gap text layout name later apart ih =>
    obtain ⟨steps, rfl, iterates⟩ := ih
    have read := name.settles separate layout (beginsOutside_of_apart separate later apart ends)
    have split : gap ++ (s.name.toList ++ text) ++ rest =
        (gap ++ s.name.toList) ++ (text ++ rest) := by simp
    have consumed : gap ++ s.name.toList ≠ [] := by simp [name.nonempty]
    rw [← List.append_assoc gap, ← split] at read
    exact ⟨(s, .ofList (text ++ rest)) :: steps, rfl, .step read (.of_append consumed split) iterates⟩

/-- A name of a class does not follow without layout where the class has ended. -/
theorem AlternativeText.apart_of_outside {s next : Symbol} {symbols : Alternative}
    {text rest : List Char} (alternative : k.AlternativeText symbols text)
    (first : symbols.head? = some next) (same : next.isTerminal = s.isTerminal)
    (outside : BeginsOutside (k.of s) (text ++ rest)) :
    ∃ c ∈ text.head?, Unicode.isWhiteSpace c = true := by
  cases alternative with
  | nil => cases first
  | @cons next' symbols gap text layout name later apart =>
    obtain rfl : next' = next := Option.some.inj first
    cases gap with
    | cons c gap => exact ⟨c, rfl, layout c (by simp)⟩
    | nil =>
      obtain ⟨c, cs, spelt⟩ := List.exists_cons_of_ne_nil name.nonempty
      have inside : k.of next' c = true := name.inside c (by simp [spelt])
      have one_class : k.of next' = k.of s := by
        cases next' <;> cases s <;> first | rfl | cases same
      have ended : k.of s c = false := outside c (by simp [spelt])
      rw [← one_class, inside] at ended
      cases ended

/-- What is followed symbol by symbol is the text of an alternative. -/
theorem alternativeText_of_iterates (separate : k.Separate) {x rest : Input Char}
    {steps : List (Symbol × Input Char)}
    (iterates : k.lexicon.symbolReader.Iterates x steps rest) :
    ∃ text, k.AlternativeText (steps.map Prod.fst) text ∧ x.symbols = text ++ rest.symbols := by
  induction iterates with
  | stop refused => exact ⟨[], .nil, rfl⟩
  | @step x mid rest s steps read proper later ih =>
    obtain ⟨text, alternative, split⟩ := ih
    obtain ⟨gap, layout, name, outside, front⟩ := exists_name_of_settles separate read
    rw [split] at outside
    refine ⟨_, .cons layout name alternative ?_, by rw [front, split]; simp⟩
    -- The class of the name has ended here, so another name of it is not read without layout.
    intro next first same
    exact alternative.apart_of_outside first same outside

/-! ## Rules -/

/-- The alternatives of a rule are read from their text, as far as the dot. -/
theorem AlternativesText.reads (separate : k.Separate) {alternatives : List Alternative}
    {text last : List Char} (body : k.AlternativesText alternatives text) (layout : IsGap last)
    (more : List Char) :
    ∃ steps stop further, alternatives = steps.map Prod.fst :: further ∧
      k.lexicon.symbolReader.Iterates (.ofList (text ++ (last ++ '.' :: more))) steps stop ∧
      k.lexicon.FurtherAt stop further (.ofList (last ++ '.' :: more)) := by
  induction body with
  | one alternative =>
    have ends : EndsAlternative (last ++ '.' :: more) := .intro layout (by simp)
    obtain ⟨steps, rfl, iterates⟩ := alternative.iterates separate ends
    have no_bar : (Input.ofList (last ++ '.' :: more)).skipLayout.head? ≠ some '|' := by
      rw [skipLayout_mark layout (by simp) more]
      simp
    exact ⟨steps, _, [], rfl, iterates, .last no_bar⟩
  | @more symbols alternatives text gap text' alternative layout' later ih =>
    obtain ⟨steps', stop, further, rfl, iterates', further_at⟩ := ih
    have ends : EndsAlternative (gap ++ '|' :: (text' ++ (last ++ '.' :: more))) :=
      .intro layout' (by simp)
    obtain ⟨steps, rfl, iterates⟩ := alternative.iterates separate ends
    have bar : (Input.ofList (gap ++ '|' :: (text' ++ (last ++ '.' :: more)))).skipLayout.symbols =
        '|' :: (Input.ofList (text' ++ (last ++ '.' :: more))).symbols := by
      rw [skipLayout_mark layout' (by simp)]
      rfl
    exact ⟨steps, _, _, rfl, by simpa using iterates, .more bar iterates' further_at⟩

/-- What is read as the alternatives of a rule is their text. -/
theorem alternativesText_of_reads (separate : k.Separate) {x stop rest : Input Char}
    {steps : List (Symbol × Input Char)} {alternatives : List Alternative}
    (iterates : k.lexicon.symbolReader.Iterates x steps stop)
    (further : k.lexicon.FurtherAt stop alternatives rest) :
    ∃ text, k.AlternativesText (steps.map Prod.fst :: alternatives) text ∧
      x.symbols = text ++ rest.symbols := by
  induction further generalizing x steps with
  | last no_bar =>
    obtain ⟨text, alternative, split⟩ := alternativeText_of_iterates separate iterates
    exact ⟨text, .one alternative, split⟩
  | @more bar_at mid stop rest steps' alternatives bar symbols later ih =>
    obtain ⟨text, alternative, split⟩ := alternativeText_of_iterates separate iterates
    obtain ⟨text', body, split'⟩ := ih symbols
    obtain ⟨gap, layout, position⟩ := exists_gap bar_at
    rw [bar, split'] at position
    exact ⟨_, .more alternative layout body, by rw [split, position]; simp⟩

/-- Layout or the mark `::=` ends the name of a rule. -/
theorem beginsOutside_defines (separate : k.Separate) {gap : List Char} (layout : IsGap gap)
    (name : String) (text : List Char) :
    BeginsOutside (k.of (.nonterminal name)) (gap ++ ("::=".toList ++ text)) := by
  have outside := separate.of_mark (.nonterminal name) (c := ':') (by simp)
  exact separate.beginsOutside_gap layout (BeginsOutside.cons_iff.mpr outside)

/-- A rule is read from its text. -/
theorem RuleText.ruleAt (separate : k.Separate) {rule : Rule} {text : List Char}
    (spelt : k.RuleText rule text) (rest : List Char) :
    k.lexicon.RuleAt (.ofList (text ++ rest)) rule (.ofList rest) := by
  cases spelt with
  | @intro name alternatives front mid text last layout head layout_mark body layout_dot =>
    obtain ⟨steps, stop, further, rfl, iterates, further_at⟩ :=
      body.reads separate layout_dot rest
    have shape :
        front ++ (name.toList ++ (mid ++ ("::=".toList ++ (text ++ (last ++ ['.']))))) ++ rest =
        front ++ (name.toList ++ (mid ++ ("::=".toList ++ (text ++ (last ++ '.' :: rest))))) := by
      simp
    have named := Recognizer.run_settles head.nonempty head.inside
      (beginsOutside_defines separate layout_mark name (text ++ (last ++ '.' :: rest)))
    have at_head := skipLayout_gap layout (head.beginsOutside separate
      (mid ++ ("::=".toList ++ (text ++ (last ++ '.' :: rest)))))
    rw [← at_head, String.ofList_toList] at named
    rw [shape]
    refine .intro named ?_ iterates further_at ?_
    · exact congrArg Input.symbols (skipLayout_mark (c := ':') layout_mark (by simp) _)
    · exact congrArg Input.symbols (skipLayout_mark layout_dot (by simp) rest)

/-- What is read as a rule is its text. -/
theorem ruleText_of_ruleAt (separate : k.Separate) {x rest : Input Char} {rule : Rule}
    (reads : k.lexicon.RuleAt x rule rest) :
    ∃ text, k.RuleText rule text ∧ x.symbols = text ++ rest.symbols := by
  cases reads with
  | @intro named defined stop last _ name steps alternatives head defines symbols further dot =>
    obtain ⟨front, layout, at_head⟩ := exists_gap x
    obtain ⟨some_character, inside, -, at_name⟩ := Recognizer.exists_run_of_settles head
    obtain ⟨mid, layout_mark, at_mark⟩ := exists_gap named
    obtain ⟨text, body, at_body⟩ := alternativesText_of_reads separate symbols further
    obtain ⟨gap, layout_dot, at_dot⟩ := exists_gap last
    refine ⟨_, .intro layout ⟨some_character, inside⟩ layout_mark body layout_dot, ?_⟩
    rw [at_head, at_name, at_mark, defines, at_body, at_dot, dot]
    simp

/-! ## Grammars -/

/-- The rules of a grammar are read from its text, and then nothing but layout is left. -/
theorem GrammarText.iterates (separate : k.Separate) {rules : List Rule} {text : List Char}
    (grammar : k.GrammarText rules text) :
    ∃ steps rest, steps.map Prod.fst = rules ∧ rest.skipLayout.isEmpty = true ∧
      k.lexicon.ruleReader.Iterates (.ofList text) steps rest := by
  have sharp := separate.sharp
  induction grammar with
  | @nil gap layout =>
    have empty : (Input.ofList gap).skipLayout.isEmpty = true := skipLayout_isEmpty_iff.mpr layout
    refine ⟨[], .ofList gap, rfl, empty, .stop ?_⟩
    rcases Lexicon.ruleReader_cases sharp (.ofList gap) with refused | ⟨rule, rest, reads⟩
    · exact refused
    · rw [(reads.properSuffix sharp).not_isEmpty] at empty
      cases empty
  | @cons rule rules text more first later ih =>
    obtain ⟨steps, rest, rfl, empty, iterates⟩ := ih
    have reads := first.ruleAt separate more
    exact ⟨(rule, .ofList more) :: steps, rest, rfl, empty,
      .step (reads.settles sharp) (reads.properSuffix sharp).of_skipLayout iterates⟩

/-- Rules that are read up to layout at the end make a text of a grammar. -/
theorem grammarText_of_iterates (separate : k.Separate) {x rest : Input Char}
    {steps : List (Rule × Input Char)} (rules : k.lexicon.ruleReader.Iterates x steps rest)
    (empty : rest.skipLayout.isEmpty = true) :
    k.GrammarText (steps.map Prod.fst) x.symbols := by
  induction rules with
  | stop => exact .nil (skipLayout_isEmpty_iff.mp empty)
  | @step x mid rest rule steps read proper later ih =>
    have reads := (Lexicon.ruleReader_settles_iff separate.sharp).mp read
    obtain ⟨text, spelt, split⟩ := ruleText_of_ruleAt separate reads
    rw [split]
    exact .cons spelt (ih empty)

/-- A text spells one list of rules at most. -/
theorem GrammarText.unique (separate : k.Separate) {rules rules' : List Rule} {text : List Char}
    (one : k.GrammarText rules text) (other : k.GrammarText rules' text) : rules = rules' := by
  obtain ⟨steps, rest, rfl, -, iterates⟩ := one.iterates separate
  obtain ⟨steps', rest', rfl, -, iterates'⟩ := other.iterates separate
  rw [(iterates.unique iterates').1]

/-- A text of a grammar has one complete reading. -/
theorem GrammarText.settles (separate : k.Separate) {rules : List Rule} {text : List Char}
    (grammar : k.GrammarText rules text) :
    k.lexicon.reader.full.Settles (.ofList text) [(Grammar.ofRules rules, .ofList [])] := by
  obtain ⟨steps, rest, rfl, empty, iterates⟩ := grammar.iterates separate
  have nothing : rest.skipLayout = .ofList [] := Input.ext (List.isEmpty_iff.mp empty)
  have settles := Lexicon.reader_full_settles separate.sharp iterates
  rwa [if_pos empty, nothing] at settles

/-- Any other text has no complete reading. -/
theorem reader_full_refuses (separate : k.Separate) {text : List Char}
    (none : ∀ rules, ¬ k.GrammarText rules text) :
    k.lexicon.reader.full.Settles (.ofList text) [] := by
  have sharp := separate.sharp.ruleReader
  obtain ⟨steps, rest, iterates⟩ := Parser.exists_iterates sharp (.ofList text)
  have settles := Lexicon.reader_full_settles separate.sharp iterates
  by_cases empty : rest.skipLayout.isEmpty = true
  · exact absurd (grammarText_of_iterates separate iterates empty) (none _)
  · rwa [if_neg empty] at settles

/-- The full parse of a text is the grammar of the rules that it spells, under every budget that
suffices for an answer. -/
theorem GrammarText.fullParse (separate : k.Separate) {rules : List Rule} {text : String}
    (grammar : k.GrammarText rules text.toList) :
    Parser.Answers (fun budget => k.lexicon.reader.fullParse budget (Input.ofString text))
      (.ok (Grammar.ofRules rules)) :=
  .of_eventually (fun _ _ _ => k.lexicon_steady.reader.fullParse)
    (grammar.settles separate).fullParse_ok

theorem fullParse_refuses (separate : k.Separate) {text : String}
    (none : ∀ rules, ¬ k.GrammarText rules text.toList) :
    Parser.Answers (fun budget => k.lexicon.reader.fullParse budget (Input.ofString text))
      (.error .noFullParse) :=
  .of_eventually (fun _ _ _ => k.lexicon_steady.reader.fullParse)
    (reader_full_refuses separate none).fullParse_error

/-- The first full parse of a text is the grammar of the rules that it spells, and there is none when
it spells no rules. A text spells one list of rules at most, and layout makes no difference: texts of
the same rules have the same answer. -/
theorem fullParse_iff_spells (separate : k.Separate) (text : String) :
    (∀ g, Parser.Answers (fun budget => k.lexicon.reader.fullParse budget (Input.ofString text))
        (.ok g) ↔ ∃ rules, k.GrammarText rules text.toList ∧ g = Grammar.ofRules rules) ∧
    (Parser.Answers (fun budget => k.lexicon.reader.fullParse budget (Input.ofString text))
        (.error .noFullParse) ↔ ∀ rules, ¬ k.GrammarText rules text.toList) ∧
    (∀ rules rules', k.GrammarText rules text.toList → k.GrammarText rules' text.toList →
      rules = rules') ∧
    ∀ rules (text' : String), k.GrammarText rules text.toList → k.GrammarText rules text'.toList →
      ∃ answer,
        Parser.Answers
          (fun budget => k.lexicon.reader.fullParse budget (Input.ofString text)) answer ∧
        Parser.Answers
          (fun budget => k.lexicon.reader.fullParse budget (Input.ofString text')) answer := by
  refine ⟨fun g => ⟨fun answers => ?_, ?_⟩, ⟨fun answers rules grammar => ?_, ?_⟩,
    fun rules rules' one other => one.unique separate other, fun rules text' one other => ?_⟩
  · by_cases spelt : ∃ rules, k.GrammarText rules text.toList
    · obtain ⟨rules, grammar⟩ := spelt
      have same := answers.unique (grammar.fullParse separate)
      exact ⟨rules, grammar, by simpa using same⟩
    · cases answers.unique (fullParse_refuses separate (not_exists.mp spelt))
  · rintro ⟨rules, grammar, rfl⟩
    exact grammar.fullParse separate
  · cases answers.unique (grammar.fullParse separate)
  · exact fullParse_refuses separate
  · exact ⟨_, one.fullParse separate, other.fullParse separate⟩

theorem letters_fullParse :
    letters.Separate ∧
    Parser.Answers (fun budget =>
        letters.lexicon.reader.fullParse budget (Input.ofString "S::=aS b |.\nT ::= . "))
      (.ok (Grammar.ofRules [("S", [[.terminal "a", .nonterminal "S", .terminal "b"], []]),
        ("T", [[]])])) := by
  refine ⟨letters_separate, ((fullParse_iff_spells letters_separate _).1 _).mpr ⟨_, ?_, rfl⟩⟩
  -- The parts of the text, from the last name of the first rule back to its head.
  have third : letters.AlternativeText [.terminal "b"] " b".toList :=
    @AlternativeText.cons _ _ _ [' '] [] (by decide) (by decide) .nil (by simp)
  have later : letters.AlternativeText [.nonterminal "S", .terminal "b"] "S b".toList :=
    @AlternativeText.cons _ _ _ [] " b".toList (by decide) (by decide) third
      (by simp [Symbol.isTerminal])
  have body : letters.AlternativeText [.terminal "a", .nonterminal "S", .terminal "b"]
      "aS b".toList :=
    @AlternativeText.cons _ _ _ [] "S b".toList (by decide) (by decide) later
      (by simp [Symbol.isTerminal])
  have first : letters.RuleText ("S", [[.terminal "a", .nonterminal "S", .terminal "b"], []])
      "S::=aS b |.".toList :=
    @RuleText.intro _ _ _ [] [] "aS b |".toList [] (by decide) (by decide) (by decide)
      (@AlternativesText.more _ _ _ _ [' '] [] body (by decide) (.one .nil)) (by decide)
  have second : letters.RuleText ("T", [[]]) "\nT ::= .".toList :=
    @RuleText.intro _ _ _ ['\n'] [' '] [] [' '] (by decide) (by decide) (by decide) (.one .nil)
      (by decide)
  exact @GrammarText.cons _ _ _ "S::=aS b |.".toList _ first
    (@GrammarText.cons _ _ _ "\nT ::= .".toList [' '] second (.nil (by decide)))

end NameClasses

end AllParses
